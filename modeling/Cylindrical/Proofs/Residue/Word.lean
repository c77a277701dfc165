import Mathlib
import Cylindrical.Residue.Word
import Cylindrical.Proofs.Focus
import Cylindrical.Proofs.Residue.RationalReconstruction

/-!
# Exactness of residues in machine words

Modulo a prime below `2 ^ 31` no operation on residues meets a fault, and each returns the residue of
what the operation gives in the field (`exact_of_prime`).  Sums and products of residues are far from the
end of their words.  The cofactors of Euclid's algorithm change their sign at every step, so that the
determinant of two successive lines is a sum of absolute values
(`IsLatticeBasis.mul_abs_add_mul_abs`).  It is the modulus, and bounds the cofactors and the products
that the next step subtracts (`Euclid.Holds.returns_step`).
-/

namespace Cylindrical

/-! ## Steps without a fault -/

namespace Unsigned

variable {x y : UInt64}

theorem returns_ofInt {n : ℤ} (h₀ : 0 ≤ n) (h : n < 2 ^ 64) :
    Returns (ofInt n) fun w => (w.toNat : ℤ) = n := by
  have hw : ((UInt64.ofNatLT n.toNat (by simp only [UInt64.size]; omega)).toNat : ℤ) = n := by
    rw [UInt64.toNat_ofNatLT, Int.toNat_of_nonneg h₀]
  exact ⟨_, ofInt_eq_ok_iff.2 hw, hw⟩

theorem returns_add (h : x.toNat + y.toNat < 2 ^ 64) :
    Returns (add x y) fun w => w.toNat = x.toNat + y.toNat :=
  (returns_ofInt (by omega) (by omega)).mono fun _ hw => by omega

theorem returns_sub (h : y.toNat ≤ x.toNat) :
    Returns (sub x y) fun w => w.toNat = x.toNat - y.toNat := by
  have := x.toNat_lt
  exact (returns_ofInt (by omega) (by omega)).mono fun _ hw => by omega

theorem returns_mul (h : x.toNat * y.toNat < 2 ^ 64) :
    Returns (mul x y) fun w => w.toNat = x.toNat * y.toNat :=
  (returns_ofInt (by positivity) (by exact_mod_cast h)).mono fun _ hw => by exact_mod_cast hw

theorem returns_mod (hy : 0 < y.toNat) :
    Returns (mod x y) fun w => w.toNat = x.toNat % y.toNat := by
  have hy0 : y ≠ 0 := by
    rintro rfl
    exact hy.ne rfl
  rw [mod, if_neg hy0]
  exact .ok (UInt64.toNat_mod x y)

end Unsigned

namespace Signed

variable {x y q : Int64}

theorem returns_ofInt {n : ℤ} (h : |n| < 2 ^ 63) : Returns (ofInt n) fun w => w.toInt = n := by
  rw [abs_lt] at h
  have hw : (Int64.ofInt n).toInt = n := Int64.toInt_ofInt_of_le h.1.le h.2
  exact ⟨_, ofInt_eq_ok_iff.2 hw, hw⟩

theorem returns_ofInt_natCast {n : ℕ} (h : n < 2 ^ 63) :
    Returns (ofInt n) fun w => w.toInt = n :=
  returns_ofInt (by rw [Nat.abs_cast]; exact_mod_cast h)

theorem returns_subMul {a b c : ℤ} (hx : x.toInt = a) (hq : q.toInt = b) (hy : y.toInt = c)
    (hmul : |b * c| < 2 ^ 63) (hsub : |a - b * c| < 2 ^ 63) :
    Returns (subMul x q y) fun w => w.toInt = a - b * c := by
  subst hx hq hy
  refine (returns_ofInt hmul).bind fun m hm => ?_
  rw [← hm] at hsub ⊢
  exact returns_ofInt hsub

theorem returns_div (hx : |x.toInt| < 2 ^ 63) (hy : y.toInt ≠ 0) :
    Returns (div x y) fun w => w.toInt = x.toInt.tdiv y.toInt := by
  have hy0 : y ≠ 0 := by
    rintro rfl
    exact hy rfl
  have hle := Int.natAbs_tdiv_le_natAbs x.toInt y.toInt
  rw [div, if_neg hy0]
  refine returns_ofInt ?_
  rw [Int.abs_eq_natAbs] at hx ⊢
  omega

theorem returns_emod (hx : |x.toInt| < 2 ^ 63) (hy : 0 < y.toInt) :
    Returns (emod x y) fun w => w.toInt = x.toInt % y.toInt := by
  refine (returns_div hx hy.ne').bind fun _ _ => returns_ofInt ?_
  have hlt := Int.emod_lt_of_pos x.toInt hy
  have := y.toInt_lt
  rw [abs_of_nonneg (Int.emod_nonneg _ hy.ne')]
  omega

end Signed

namespace Residue

/-! ## Euclid's algorithm -/

namespace IsLatticeBasis

variable {m r₀ r₁ : ℕ} {u t₀ t₁ : ℤ}

/-- The two products of the determinant have opposite signs. -/
theorem mul_abs_add_mul_abs (h : IsLatticeBasis m u r₀ r₁ t₀ t₁) :
    (r₀ : ℤ) * |t₁| + r₁ * |t₀| = m := by
  have hsign : 0 ≤ r₀ * t₁ * -(r₁ * t₀) := by
    have : (r₀ : ℤ) * t₁ * -(r₁ * t₀) = r₀ * r₁ * -(t₀ * t₁) := by ring
    rw [this]
    exact mul_nonneg (by positivity) (neg_nonneg.2 h.alternate)
  calc (r₀ : ℤ) * |t₁| + r₁ * |t₀| = |r₀ * t₁ + -(r₁ * t₀)| := by
        rw [abs_add_of_mul_nonneg hsign, abs_neg, abs_mul, abs_mul, Nat.abs_cast, Nat.abs_cast]
    _ = m := by
        rw [← sub_eq_add_neg]
        rcases h.det with h | h <;> simp [h]

theorem mul_abs_cofactor_le (h : IsLatticeBasis m u r₀ r₁ t₀ t₁) : (r₀ : ℤ) * |t₁| ≤ m := by
  have := h.mul_abs_add_mul_abs
  have : (0 : ℤ) ≤ r₁ * |t₀| := by positivity
  omega

theorem abs_cofactor_le (h : IsLatticeBasis m u r₀ r₁ t₀ t₁) (h₀ : r₀ ≠ 0) : |t₁| ≤ m := by
  have h₀ : (1 : ℤ) ≤ r₀ := by exact_mod_cast Nat.one_le_iff_ne_zero.2 h₀
  exact (le_mul_of_one_le_left (abs_nonneg t₁) h₀).trans h.mul_abs_cofactor_le

theorem abs_quotient_mul_le (h : IsLatticeBasis m u r₀ r₁ t₀ t₁) :
    |((r₀ / r₁ : ℕ) : ℤ) * t₁| ≤ m := by
  have hq : ((r₀ / r₁ : ℕ) : ℤ) ≤ r₀ := by exact_mod_cast Nat.div_le_self r₀ r₁
  rw [abs_mul, Nat.abs_cast]
  exact (mul_le_mul_of_nonneg_right hq (abs_nonneg t₁)).trans h.mul_abs_cofactor_le

end IsLatticeBasis

namespace Word

namespace Euclid

/-- The remainders and cofactors that the words of a state stand for. -/
structure Holds (s : Euclid) (r₀ r₁ : ℕ) (t₀ t₁ : ℤ) : Prop where
  previous : s.r₀.toInt = r₀
  current : s.r₁.toInt = r₁
  previousCofactor : s.t₀.toInt = t₀
  currentCofactor : s.t₁.toInt = t₁

variable {s s' : Euclid} {m r₀ r₁ : ℕ} {u t₀ t₁ : ℤ}

theorem Holds.current_eq_zero_iff (h : s.Holds r₀ r₁ t₀ t₁) : s.r₁ = 0 ↔ r₁ = 0 := by
  rw [← Int64.toInt_inj, h.current, Int64.toInt_zero, Int.natCast_eq_zero]

theorem Holds.returns_step (hs : s.Holds r₀ r₁ t₀ t₁) (h : IsLatticeBasis m u r₀ r₁ t₀ t₁)
    (hm : m < 2 ^ 63) (hr : r₁ ≠ 0) :
    Returns s.step fun s' => s'.Holds r₁ (r₀ % r₁) t₁ (t₀ - (r₀ / r₁ : ℕ) * t₁) := by
  have hword : (r₀ : ℤ) < 2 ^ 63 := hs.previous ▸ s.r₀.toInt_lt
  have hm : (m : ℤ) < 2 ^ 63 := by exact_mod_cast hm
  have hquot : Returns (Signed.div s.r₀ s.r₁) fun q => q.toInt = (r₀ / r₁ : ℕ) := by
    refine (Signed.returns_div ?_ ?_).mono fun q hq => ?_
    · rw [hs.previous, Nat.abs_cast]
      exact hword
    · rwa [hs.current, Nat.cast_ne_zero]
    · rw [hq, hs.previous, hs.current, Int.ofNat_tdiv]
  refine hquot.bind fun q hq => ?_
  have hrem : Returns (Signed.subMul s.r₀ q s.r₁) fun r => r.toInt = (r₀ % r₁ : ℕ) := by
    have hmul : ((r₀ / r₁ : ℕ) : ℤ) * r₁ ≤ r₀ := by exact_mod_cast Nat.div_mul_le_self r₀ r₁
    have hle : ((r₀ % r₁ : ℕ) : ℤ) ≤ r₀ := by exact_mod_cast Nat.mod_le r₀ r₁
    have habs : |((r₀ % r₁ : ℕ) : ℤ)| < 2 ^ 63 := by
      rw [Nat.abs_cast]
      exact hle.trans_lt hword
    rw [cast_remainder] at habs ⊢
    refine Signed.returns_subMul hs.previous hq hs.current ?_ habs
    rw [abs_of_nonneg (by positivity)]
    exact hmul.trans_lt hword
  have hcof : Returns (Signed.subMul s.t₀ q s.t₁) fun t => t.toInt = t₀ - (r₀ / r₁ : ℕ) * t₁ :=
    Signed.returns_subMul hs.previousCofactor hq hs.currentCofactor
      (h.abs_quotient_mul_le.trans_lt hm) ((h.next.abs_cofactor_le hr).trans_lt hm)
  exact hrem.bind fun r hr => hcof.bind fun t ht =>
    .ok ⟨hs.current, hr, hs.currentCofactor, ht⟩

theorem cofactor_of_step (hr : s.r₁ ≠ 0) (h : s.step = .ok s') : s.cofactor = s'.cofactor := by
  rw [cofactor, if_neg hr]
  split
  · next e he =>
    rw [h] at he
    cases he
  · next s'' hs =>
    rw [h] at hs
    cases hs
    rfl

/-- The loop in words meets no fault and keeps all cofactors up to the modulus. -/
theorem Holds.returns_cofactor (hs : s.Holds r₀ r₁ t₀ t₁) (h : IsLatticeBasis m u r₀ r₁ t₀ t₁)
    (hm : m < 2 ^ 63) (h₀ : r₀ ≠ 0) (ht : |t₀| ≤ m) :
    Returns s.cofactor fun t => t.toInt = Residue.cofactor r₀ r₁ t₀ t₁ ∧ |t.toInt| ≤ m := by
  fun_induction Residue.cofactor r₀ r₁ t₀ t₁ generalizing s with
  | case1 r₀ t₀ t₁ =>
    rw [cofactor, if_pos (hs.current_eq_zero_iff.2 rfl)]
    exact .ok ⟨hs.previousCofactor, by rwa [hs.previousCofactor]⟩
  | case2 r₀ r₁ t₀ t₁ hr _ ih =>
    obtain ⟨s', hstep, hs'⟩ := hs.returns_step h hm hr
    rw [cofactor_of_step (mt hs.current_eq_zero_iff.1 hr) hstep]
    exact ih hs' h.next hr (h.abs_cofactor_le h₀)

end Euclid

/-! ## Operations -/

variable {p a b : UInt64}

theorem returns_add (hp : 0 < p.toNat) (h : a.toNat + b.toNat < 2 ^ 64) :
    Returns (add p a b) fun r => r.toNat = Residue.add p.toNat a.toNat b.toNat :=
  (Unsigned.returns_add h).bind fun s hs => (Unsigned.returns_mod hp).mono fun r hr => by
    rw [hr, hs, Residue.add]

theorem returns_sub (hp : 0 < p.toNat) (hb : b.toNat ≤ a.toNat + p.toNat)
    (h : a.toNat + p.toNat < 2 ^ 64) :
    Returns (sub p a b) fun r => r.toNat = Residue.sub p.toNat a.toNat b.toNat :=
  (Unsigned.returns_add h).bind fun s hs => (Unsigned.returns_sub (hs ▸ hb)).bind fun d hd =>
    (Unsigned.returns_mod hp).mono fun r hr => by rw [hr, hd, hs, Residue.sub]

theorem returns_neg (hp : 0 < p.toNat) (ha : a.toNat ≤ p.toNat) :
    Returns (neg p a) fun r => r.toNat = Residue.neg p.toNat a.toNat :=
  (Unsigned.returns_sub ha).bind fun d hd => (Unsigned.returns_mod hp).mono fun r hr => by
    rw [hr, hd, Residue.neg]

theorem returns_mul (hp : 0 < p.toNat) (h : a.toNat * b.toNat < 2 ^ 64) :
    Returns (mul p a b) fun r => r.toNat = Residue.mul p.toNat a.toNat b.toNat :=
  (Unsigned.returns_mul h).bind fun m hm => (Unsigned.returns_mod hp).mono fun r hr => by
    rw [hr, hm, Residue.mul]

theorem inverse?_zero (p : UInt64) : inverse? p 0 = .ok none := rfl

theorem returns_inverse? (hp : 0 < p.toNat) (hlt : p.toNat < 2 ^ 63) (ha : a.toNat < p.toNat)
    (ha0 : a ≠ 0) : Returns (inverse? p a) fun r =>
      ∃ w, r = some w ∧ w.toNat = Residue.inverse p.toNat a.toNat := by
  have hpos : (0 : ℤ) < p.toNat := by exact_mod_cast hp
  rw [inverse?, if_neg ha0]
  refine (Signed.returns_ofInt_natCast hlt).bind fun m hm =>
    (Signed.returns_ofInt_natCast (ha.trans hlt)).bind fun a' ha' => ?_
  have hstart : Euclid.Holds ⟨m, a', 0, 1⟩ p.toNat a.toNat 0 1 := ⟨hm, ha', rfl, rfl⟩
  refine (hstart.returns_cofactor (.start p.toNat a.toNat rfl) hlt hp.ne' (by simp)).bind ?_
  rintro t ⟨ht, hle⟩
  have hrem : Returns (Signed.emod t m) fun r => r.toInt = t.toInt % m.toInt :=
    Signed.returns_emod (hle.trans_lt (by exact_mod_cast hlt)) (hm ▸ hpos)
  refine hrem.bind fun r hr => ?_
  rw [hm, ht] at hr
  have hnonneg : 0 ≤ r.toInt := hr ▸ Int.emod_nonneg _ hpos.ne'
  have hsmall : r.toInt < 2 ^ 64 := r.toInt_lt.trans (by norm_num)
  refine (Unsigned.returns_ofInt hnonneg hsmall).bind fun w hw => .ok ⟨w, rfl, ?_⟩
  rw [Residue.inverse, Residue.ofInt, ← hr]
  omega

theorem toNat_ofInt (hp : 0 < p.toNat) (n : ℤ) : (ofInt p n).toNat = Residue.ofInt p.toNat n := by
  have hpos : (0 : ℤ) < p.toNat := by exact_mod_cast hp
  have hnonneg := Int.emod_nonneg n hpos.ne'
  have hlt := Int.emod_lt_of_pos n hpos
  have hword := p.toNat_lt
  obtain ⟨w, hw, hn⟩ := Unsigned.returns_ofInt (n := n.fmod p.toNat)
    (by rwa [Int.fmod_eq_emod_of_nonneg n hpos.le]) (by
      rw [Int.fmod_eq_emod_of_nonneg n hpos.le]
      omega)
  rw [ofInt, hw, Residue.ofInt, ← Int.fmod_eq_emod_of_nonneg n hpos.le, ← hn]
  rfl

/-- The residue of a denominator is zero if the modulus divides it. -/
theorem toNat_ofInt_den (hp : 0 < p.toNat) (x : ℚ) : (ofInt p x.den).toNat = x.den % p.toNat := by
  rw [toNat_ofInt hp, Residue.ofInt]
  omega

theorem ofRat?_of_dvd (hp : 0 < p.toNat) {x : ℚ} (h : p.toNat ∣ x.den) :
    ofRat? p x = .ok none := by
  have h0 : ofInt p x.den = 0 := by
    rw [← UInt64.toNat_inj, toNat_ofInt_den hp, Nat.mod_eq_zero_of_dvd h]
    rfl
  rw [ofRat?, h0]
  rfl

theorem returns_ofRat? (hp : 0 < p.toNat) (hlt : p.toNat < 2 ^ 32) {x : ℚ}
    (h : ¬p.toNat ∣ x.den) : Returns (ofRat? p x) fun r =>
      ∃ w, r = some w ∧ Residue.ofRat? p.toNat x = some w.toNat := by
  have hden := toNat_ofInt_den hp x
  have hden0 : x.den % p.toNat ≠ 0 := fun h0 => h (Nat.dvd_of_mod_eq_zero h0)
  have hne : ofInt p x.den ≠ 0 := by
    intro h0
    rw [h0] at hden
    exact hden0 hden.symm
  have hinv := returns_inverse? hp (hlt.trans (by norm_num)) (hden ▸ Nat.mod_lt _ hp) hne
  refine hinv.bind ?_
  rintro _ ⟨d, rfl, hd⟩
  have hnum := toNat_ofInt hp x.num
  have hmul : (ofInt p x.num).toNat * d.toNat < 2 ^ 64 := by
    rw [hnum, hd]
    have := Nat.mul_lt_mul'' (ofInt_lt hp.ne' x.num)
      (inverse_lt hp.ne' (ofInt p x.den).toNat)
    exact this.trans (by nlinarith)
  refine (returns_mul hp hmul).bind fun w hw => .ok ⟨w, rfl, ?_⟩
  rw [Residue.ofRat?, Residue.inverse?, if_neg hden0, Option.map_some, hw, hnum, hd, hden]

theorem returns_symmetric (hlt : p.toNat < 2 ^ 63) (ha : a.toNat < p.toNat) :
    Returns (symmetric p a) fun s => s.toInt = Residue.symmetric p.toNat a.toNat := by
  have hhalf : p / 2 < a ↔ p.toNat / 2 < a.toNat := by
    rw [UInt64.lt_iff_toNat_lt, UInt64.toNat_div]
    rfl
  rw [symmetric, Residue.symmetric]
  by_cases h : p.toNat / 2 < a.toNat
  · rw [if_pos (hhalf.2 h), if_pos h]
    refine (Signed.returns_ofInt_natCast (ha.trans hlt)).bind fun x hx =>
      (Signed.returns_ofInt_natCast hlt).bind fun y hy => ?_
    rw [← hx, ← hy]
    refine Signed.returns_ofInt ?_
    rw [hx, hy, abs_lt]
    omega
  · rw [if_neg (mt hhalf.1 h), if_neg h]
    exact Signed.returns_ofInt_natCast (ha.trans hlt)

/-! ## Exactness -/

/-- The word is a residue modulo `p`, of the element `x`. -/
structure IsResidue (p : UInt64) (x : ZMod p.toNat) (r : UInt64) : Prop where
  lt : r < p
  cast_eq : (r.toNat : ZMod p.toNat) = x

theorem isResidue_of_toNat_eq {r : UInt64} {n : ℕ} {x : ZMod p.toNat} (hr : r.toNat = n)
    (hn : n < p.toNat) (hx : (n : ZMod p.toNat) = x) : IsResidue p x r :=
  ⟨UInt64.lt_iff_toNat_lt.2 (hr ▸ hn), hr ▸ hx⟩

/-- No operation on residues modulo `p` meets a fault.  Each returns the residue of what the operation
gives for the elements modulo `p`, which is the one that the operation on numbers gives. -/
structure Exact (p : UInt64) : Prop where
  add {a b : UInt64} : a < p → b < p → Returns (add p a b) fun r =>
    r.toNat = Residue.add p.toNat a.toNat b.toNat ∧ IsResidue p (a.toNat + b.toNat) r
  sub {a b : UInt64} : a < p → b < p → Returns (sub p a b) fun r =>
    r.toNat = Residue.sub p.toNat a.toNat b.toNat ∧ IsResidue p (a.toNat - b.toNat) r
  neg {a : UInt64} : a < p → Returns (neg p a) fun r =>
    r.toNat = Residue.neg p.toNat a.toNat ∧ IsResidue p (-a.toNat) r
  mul {a b : UInt64} : a < p → b < p → Returns (mul p a b) fun r =>
    r.toNat = Residue.mul p.toNat a.toNat b.toNat ∧ IsResidue p (a.toNat * b.toNat) r
  inverse_zero : inverse? p 0 = .ok none
  inverse {a : UInt64} : a < p → a ≠ 0 → Returns (inverse? p a) fun r => ∃ w, r = some w ∧
    w.toNat = Residue.inverse p.toNat a.toNat ∧ IsResidue p (a.toNat : ZMod p.toNat)⁻¹ w ∧
    (w.toNat * a.toNat : ZMod p.toNat) = 1
  ofInt (n : ℤ) : (ofInt p n).toNat = Residue.ofInt p.toNat n ∧ IsResidue p n (ofInt p n)
  ofRat_of_dvd {x : ℚ} : p.toNat ∣ x.den → ofRat? p x = .ok none
  ofRat_of_not_dvd {x : ℚ} : ¬p.toNat ∣ x.den → Returns (ofRat? p x) fun r => ∃ w, r = some w ∧
    Residue.ofRat? p.toNat x = some w.toNat ∧
    IsResidue p (x.num * (x.den : ZMod p.toNat)⁻¹) w
  /-- The representative is the only number in its class between the halves of the modulus. -/
  symmetric {a : UInt64} : a < p → Returns (symmetric p a) fun s =>
    s.toInt = Residue.symmetric p.toNat a.toNat ∧ ∀ n : ℤ, n = s.toInt ↔
      (n : ZMod p.toNat) = a.toNat ∧ (n : ℚ) ∈ Set.Ioc (-(p.toNat : ℚ) / 2) (p.toNat / 2)

/-- Modulo a prime below `2 ^ 31` the arithmetic of residues in words is that of the prime field. -/
theorem exact_of_prime (hp : p.toNat.Prime) (hlt : p.toNat < 2 ^ 31) : Exact p := by
  have hpos := hp.pos
  have hzero : ((p.toNat : ℕ) : ZMod p.toNat) = 0 := ZMod.natCast_self _
  have below {a : UInt64} (ha : a < p) : a.toNat < p.toNat := UInt64.lt_iff_toNat_lt.1 ha
  have hmod (n : ℕ) : n % p.toNat < p.toNat := Nat.mod_lt n hpos
  refine
    { add := fun {a b} ha hb => ?add
      sub := fun {a b} ha hb => ?sub
      neg := fun {a} ha => ?neg
      mul := fun {a b} ha hb => ?mul
      inverse_zero := inverse?_zero p
      inverse := fun {a} ha ha0 => ?inverse
      ofInt := fun n => ⟨toNat_ofInt hpos n, ?ofInt⟩
      ofRat_of_dvd := ofRat?_of_dvd hpos
      ofRat_of_not_dvd := fun {x} hdvd => ?ofRat
      symmetric := fun {a} ha => ?symmetric }
  case add =>
    have hsum : a.toNat + b.toNat < 2 ^ 64 := by
      have := below ha
      have := below hb
      omega
    exact (returns_add hpos hsum).mono fun r hr =>
      ⟨hr, isResidue_of_toNat_eq hr (hmod _) (cast_add hzero _ _)⟩
  case sub =>
    have ha := below ha
    have hb : b.toNat ≤ a.toNat + p.toNat := (below hb).le.trans (Nat.le_add_left _ _)
    exact (returns_sub hpos hb (by omega)).mono fun r hr =>
      ⟨hr, isResidue_of_toNat_eq hr (hmod _) (cast_sub hzero hb)⟩
  case neg =>
    exact (returns_neg hpos (below ha).le).mono fun r hr =>
      ⟨hr, isResidue_of_toNat_eq hr (hmod _) (cast_neg hzero (below ha).le)⟩
  case mul =>
    have hprod : a.toNat * b.toNat < 2 ^ 64 := by
      calc a.toNat * b.toNat ≤ 2 ^ 31 * 2 ^ 31 :=
            Nat.mul_le_mul ((below ha).trans hlt).le ((below hb).trans hlt).le
        _ < 2 ^ 64 := by norm_num
    exact (returns_mul hpos hprod).mono fun r hr =>
      ⟨hr, isResidue_of_toNat_eq hr (hmod _) (cast_mul hzero _ _)⟩
  case inverse =>
    have ha' : a.toNat ≠ 0 := fun h => ha0 (UInt64.toNat_inj.1 h)
    refine (returns_inverse? hpos (hlt.trans (by norm_num)) (below ha) ha0).mono ?_
    rintro _ ⟨w, rfl, hw⟩
    have hres := isResidue_of_toNat_eq hw (inverse_lt hp.ne_zero _) (cast_inverse hp ha' (below ha))
    exact ⟨w, rfl, hw, hres, hw ▸ cast_inverse_mul hzero hp ha' (below ha)⟩
  case ofInt =>
    exact isResidue_of_toNat_eq (toNat_ofInt hpos n) (ofInt_lt hp.ne_zero n)
      (cast_ofInt hzero hp.ne_zero n)
  case ofRat =>
    refine (returns_ofRat? hpos (hlt.trans (by norm_num)) hdvd).mono ?_
    rintro _ ⟨w, rfl, hw⟩
    have hres := (ofRat?_spec hzero hp hw).2.1
    exact ⟨w, rfl, hw, isResidue_of_toNat_eq rfl hres (cast_of_ofRat? hp hw)⟩
  case symmetric =>
    refine (returns_symmetric (hlt.trans (by norm_num)) (below ha)).mono fun s hs => ⟨hs, ?_⟩
    rw [hs]
    exact fun n => eq_symmetric_iff (below ha)

/-- The largest number below `2 ^ 31` is prime; the inverse takes 35 divisions here. -/
theorem exact_of_prime_mersenne : Nat.Prime 2147483647 ∧ 2147483647 < 2 ^ 31 ∧
    Exact 2147483647 ∧ mul 2147483647 2147483646 2147483646 = .ok 1 ∧
    inverse? 2147483647 1327217767 = .ok (some 761262764) ∧
    symmetric 2147483647 2147483646 = .ok (-1) := by
  have hp : Nat.Prime 2147483647 := prime_of_isOddPrime (k := 1073741823) (by norm_num)
    isOddPrime_mersenne
  exact ⟨hp, by norm_num, exact_of_prime hp (by decide), by decide +kernel, by decide +kernel,
    by decide +kernel⟩

end Word

end Residue

end Cylindrical
