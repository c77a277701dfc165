import Cylindrical.Focus

/-!
# Residues in machine words

The operations on residues as a machine with words of 64 bits carries them out.  Every step is
checked: a number that its word cannot hold and a division by zero are faults, which end the
computation.  A result is therefore the exact one (`Unsigned.ofInt_eq_ok_iff`,
`Signed.ofInt_eq_ok_iff`).
-/

namespace Cylindrical

/-- Why an operation on machine words has no result. -/
inductive WordFault where
  | overflow
  | divisionByZero
deriving DecidableEq

/-! ## Unsigned words -/

namespace Unsigned

/-- The unsigned word that stands for a number. -/
def ofInt (n : Int) : Except WordFault UInt64 :=
  if h : 0 ≤ n ∧ n < UInt64.size then .ok (.ofNatLT n.toNat (by omega)) else .error .overflow

theorem ofInt_eq_ok_iff {n : Int} {w : UInt64} : ofInt n = .ok w ↔ (w.toNat : Int) = n := by
  rw [ofInt]
  split
  · next h =>
    rw [Except.ok.injEq, ← UInt64.toNat_inj, UInt64.toNat_ofNatLT]
    omega
  · next h =>
    have hw : w.toNat < UInt64.size := w.toNat_lt
    exact ⟨nofun, fun hn => absurd ⟨hn ▸ Int.natCast_nonneg _, hn ▸ Int.ofNat_lt.2 hw⟩ h⟩

def add (x y : UInt64) : Except WordFault UInt64 := ofInt (x.toNat + y.toNat)

def sub (x y : UInt64) : Except WordFault UInt64 := ofInt (x.toNat - y.toNat)

def mul (x y : UInt64) : Except WordFault UInt64 := ofInt (x.toNat * y.toNat)

def mod (x y : UInt64) : Except WordFault UInt64 :=
  if y = 0 then .error .divisionByZero else .ok (x % y)

end Unsigned

/-! ## Signed words -/

namespace Signed

/-- The signed word that stands for a number. -/
def ofInt (n : Int) : Except WordFault Int64 :=
  if h : Int64.minValue.toInt ≤ n ∧ n ≤ Int64.maxValue.toInt then .ok (.ofIntLE n h.1 h.2)
  else .error .overflow

theorem ofInt_eq_ok_iff {n : Int} {w : Int64} : ofInt n = .ok w ↔ w.toInt = n := by
  rw [ofInt]
  split
  · next h =>
    rw [Except.ok.injEq, ← Int64.toInt_inj, Int64.toInt_ofIntLE]
    exact eq_comm
  · next h => exact ⟨nofun, fun hn => absurd ⟨hn ▸ w.minValue_le_toInt, hn ▸ w.toInt_le⟩ h⟩

def sub (x y : Int64) : Except WordFault Int64 := ofInt (x.toInt - y.toInt)

def mul (x y : Int64) : Except WordFault Int64 := ofInt (x.toInt * y.toInt)

/-- The quotient, rounded towards zero.  The least word divided by minus one is an overflow. -/
def div (x y : Int64) : Except WordFault Int64 :=
  if y = 0 then .error .divisionByZero else ofInt (x.toInt.tdiv y.toInt)

/-- The remainder that is not negative, with the faults of the quotient. -/
def emod (x y : Int64) : Except WordFault Int64 := do
  let _ ← div x y
  ofInt (x.toInt % y.toInt)

/-- The difference of `x` and a product. -/
def subMul (x q y : Int64) : Except WordFault Int64 := do sub x (← mul q y)

theorem of_div_eq_ok {x y q : Int64} (h : div x y = .ok q) :
    y ≠ 0 ∧ q.toInt = x.toInt.tdiv y.toInt := by
  rw [div] at h
  split at h
  · cases h
  · next hy => exact ⟨hy, ofInt_eq_ok_iff.1 h⟩

theorem of_subMul_eq_ok {x q y z : Int64} (h : subMul x q y = .ok z) :
    z.toInt = x.toInt - q.toInt * y.toInt := by
  obtain ⟨m, hm, h⟩ := bind_eq_ok h
  rw [← ofInt_eq_ok_iff.1 hm]
  exact ofInt_eq_ok_iff.1 h

end Signed

namespace Residue.Word

/-! ## Euclid's algorithm -/

/-- Two successive remainders of Euclid's algorithm with their cofactors. -/
structure Euclid where
  r₀ : Int64
  r₁ : Int64
  t₀ : Int64
  t₁ : Int64

namespace Euclid

/-- One division with remainder. -/
def step (s : Euclid) : Except WordFault Euclid := do
  let q ← Signed.div s.r₀ s.r₁
  let r ← Signed.subMul s.r₀ q s.r₁
  let t ← Signed.subMul s.t₀ q s.t₁
  return ⟨s.r₁, r, s.t₁, t⟩

theorem natAbs_lt_of_step {s s' : Euclid} (h : s.step = .ok s') :
    s'.r₁.toInt.natAbs < s.r₁.toInt.natAbs := by
  obtain ⟨q, hq, h⟩ := bind_eq_ok h
  obtain ⟨r, hr, h⟩ := bind_eq_ok h
  obtain ⟨t, -, h⟩ := bind_eq_ok h
  cases h
  obtain ⟨hne, hquot⟩ := Signed.of_div_eq_ok hq
  have hpos : 0 < s.r₁.toInt.natAbs := Int.natAbs_pos.2 fun h0 => hne (Int64.toInt_inj.1 h0)
  have hrem : r.toInt = s.r₀.toInt.tmod s.r₁.toInt := by
    rw [Signed.of_subMul_eq_ok hr, hquot, Int.tmod_def, Int.mul_comm]
  rw [hrem, Int.natAbs_tmod]
  exact Nat.mod_lt _ hpos

/-- The cofactor of the last remainder that is not zero. -/
def cofactor (s : Euclid) : Except WordFault Int64 :=
  if s.r₁ = 0 then .ok s.t₀
  else
    match h : s.step with
    | .error e => .error e
    | .ok s' =>
      have := natAbs_lt_of_step h
      s'.cofactor
termination_by s.r₁.toInt.natAbs

end Euclid

/-! ## Operations -/

def add (p a b : UInt64) : Except WordFault UInt64 := do Unsigned.mod (← Unsigned.add a b) p

def sub (p a b : UInt64) : Except WordFault UInt64 := do
  Unsigned.mod (← Unsigned.sub (← Unsigned.add a p) b) p

def neg (p a : UInt64) : Except WordFault UInt64 := do Unsigned.mod (← Unsigned.sub p a) p

def mul (p a b : UInt64) : Except WordFault UInt64 := do Unsigned.mod (← Unsigned.mul a b) p

/-- The inverse, `none` for zero. -/
def inverse? (p a : UInt64) : Except WordFault (Option UInt64) :=
  if a = 0 then .ok none
  else do
    let modulus ← Signed.ofInt p.toNat
    let t ← Euclid.cofactor ⟨modulus, ← Signed.ofInt a.toNat, 0, 1⟩
    let r ← Signed.emod t modulus
    return some (← Unsigned.ofInt r.toInt)

/-- The residue of an integer, and zero if it is no word. -/
def ofInt (p : UInt64) (n : Int) : UInt64 := (Unsigned.ofInt (n.fmod p.toNat)).toOption.getD 0

/-- The residue of a rational number, `none` if the modulus divides the denominator. -/
def ofRat? (p : UInt64) (x : Rat) : Except WordFault (Option UInt64) := do
  match ← inverse? p (ofInt p x.den) with
  | none => return none
  | some d => return some (← mul p (ofInt p x.num) d)

/-- The representative of least absolute value. -/
def symmetric (p a : UInt64) : Except WordFault Int64 := do
  if p / 2 < a then Signed.sub (← Signed.ofInt a.toNat) (← Signed.ofInt p.toNat)
  else Signed.ofInt a.toNat

end Residue.Word

end Cylindrical
