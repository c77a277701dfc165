/-!
# Power products

A power product of variables, which are plain indices.  The powers are kept from the largest
variable down, without zero exponents, so that two power products are equal exactly when all
exponents agree.  The exponent of a variable is `Monomial.degreeOf`.
-/

namespace Cylindrical

/-- Lists of powers: strictly decreasing variables with positive exponents. -/
structure PowerList (ps : List (Nat × Nat)) : Prop where
  descending : ps.Pairwise fun p q => q.1 < p.1
  positive : ∀ p ∈ ps, 0 < p.2

/-- The exponent of `v` in a list of powers. -/
def exponentIn (v : Nat) : List (Nat × Nat) → Nat
  | [] => 0
  | p :: ps => if p.1 = v then p.2 else exponentIn v ps

/-- The sum of all exponents. -/
def degreeSum : List (Nat × Nat) → Nat
  | [] => 0
  | p :: ps => p.2 + degreeSum ps

/-- A product of powers of variables. -/
structure Monomial where
  powers : List (Nat × Nat)
  valid : PowerList powers
  totalDegree : Nat := degreeSum powers
  totalDegree_eq : totalDegree = degreeSum powers := by rfl

/-! ## Lists of powers -/

namespace PowerList

theorem nil : PowerList [] := ⟨.nil, by simp⟩

theorem tail {p : Nat × Nat} {ps : List (Nat × Nat)} (h : PowerList (p :: ps)) : PowerList ps :=
  ⟨h.descending.tail, fun q hq => h.positive q (.tail _ hq)⟩

theorem lt_head {p : Nat × Nat} {ps : List (Nat × Nat)} (h : PowerList (p :: ps)) :
    ∀ q ∈ ps, q.1 < p.1 :=
  (List.pairwise_cons.1 h.descending).1

theorem head_pos {p : Nat × Nat} {ps : List (Nat × Nat)} (h : PowerList (p :: ps)) : 0 < p.2 :=
  h.positive p (.head _)

theorem cons {p : Nat × Nat} {ps : List (Nat × Nat)} (h : PowerList ps)
    (hlt : ∀ q ∈ ps, q.1 < p.1) (hp : 0 < p.2) : PowerList (p :: ps) :=
  ⟨List.pairwise_cons.2 ⟨hlt, h.descending⟩, by
    intro q hq
    cases hq with
    | head => exact hp
    | tail _ hq => exact h.positive q hq⟩

theorem filter {ps : List (Nat × Nat)} (h : PowerList ps) (f : Nat × Nat → Bool) :
    PowerList (ps.filter f) :=
  ⟨h.descending.filter f, fun q hq => h.positive q (List.mem_filter.1 hq).1⟩

end PowerList

theorem exponentIn_eq_zero {v : Nat} {ps : List (Nat × Nat)} (h : ∀ p ∈ ps, p.1 ≠ v) :
    exponentIn v ps = 0 := by
  induction ps with
  | nil => rfl
  | cons p ps ih =>
    rw [exponentIn, if_neg (h p (.head _)), ih fun q hq => h q (.tail _ hq)]

theorem exponentIn_of_lt {v : Nat} {ps : List (Nat × Nat)} (h : ∀ p ∈ ps, p.1 < v) :
    exponentIn v ps = 0 :=
  exponentIn_eq_zero fun p hp => Nat.ne_of_lt (h p hp)

/-! ## Insertion and merging -/

/-- Multiplies a list of powers by `v ^ e`, for positive `e`. -/
def insertPower (v : Nat) (e : Nat) : List (Nat × Nat) → List (Nat × Nat)
  | [] => [(v, e)]
  | p :: ps =>
    if p.1 < v then (v, e) :: p :: ps
    else if p.1 = v then (v, e + p.2) :: ps
    else p :: insertPower v e ps

theorem fst_of_mem_insertPower {v : Nat} {e : Nat} {ps : List (Nat × Nat)} {q : Nat × Nat}
    (h : q ∈ insertPower v e ps) : q.1 = v ∨ ∃ p ∈ ps, p.1 = q.1 := by
  induction ps with
  | nil => simp_all [insertPower]
  | cons p ps ih => grind [insertPower]

theorem PowerList.insertPower {v : Nat} {e : Nat} {ps : List (Nat × Nat)} (h : PowerList ps)
    (he : 0 < e) : PowerList (insertPower v e ps) := by
  induction ps with
  | nil => exact .cons .nil (by simp) he
  | cons p ps ih =>
    rw [Cylindrical.insertPower]
    split
    · rename_i hlt
      refine .cons h (fun q hq => ?_) he
      cases hq with
      | head => exact hlt
      | tail _ hq => exact Nat.lt_trans (h.lt_head q hq) hlt
    · split
      · rename_i hp
        exact .cons h.tail (fun q hq => hp ▸ h.lt_head q hq) (Nat.add_pos_left he _)
      · refine .cons (ih h.tail) (fun q hq => ?_) h.head_pos
        rcases fst_of_mem_insertPower hq with hq | ⟨p', hp', hq⟩
        · show q.1 < p.1
          omega
        · exact hq ▸ h.lt_head p' hp'

/-- Merges two lists of powers, combining the exponents of a common variable by `f`. -/
@[specialize] def mergePowers (f : Nat → Nat → Nat) :
    List (Nat × Nat) → List (Nat × Nat) → List (Nat × Nat)
  | [], qs => qs
  | ps, [] => ps
  | p :: ps, q :: qs =>
    if q.1 < p.1 then p :: mergePowers f ps (q :: qs)
    else if p.1 < q.1 then q :: mergePowers f (p :: ps) qs
    else (p.1, f p.2 q.2) :: mergePowers f ps qs
termination_by ps qs => ps.length + qs.length

theorem fst_of_mem_mergePowers {f : Nat → Nat → Nat} {ps qs : List (Nat × Nat)} {r : Nat × Nat}
    (h : r ∈ mergePowers f ps qs) : (∃ p ∈ ps, p.1 = r.1) ∨ ∃ q ∈ qs, q.1 = r.1 := by
  fun_induction mergePowers f ps qs with
  | case1 => exact .inr ⟨r, h, rfl⟩
  | case2 => exact .inl ⟨r, h, rfl⟩
  | case3 => grind
  | case4 => grind
  | case5 => grind

theorem PowerList.mergePowers {f : Nat → Nat → Nat} (hf : ∀ a b, 0 < a → 0 < b → 0 < f a b)
    {ps qs : List (Nat × Nat)} (hp : PowerList ps) (hq : PowerList qs) :
    PowerList (mergePowers f ps qs) := by
  fun_induction Cylindrical.mergePowers f ps qs with
  | case1 => exact hq
  | case2 => exact hp
  | case3 p ps q qs hlt ih =>
    refine .cons (ih hp.tail hq) (fun r hr => ?_) hp.head_pos
    have := hp.lt_head
    have := hq.lt_head
    rcases fst_of_mem_mergePowers hr with ⟨s, hs, hr⟩ | ⟨s, hs, hr⟩ <;> grind
  | case4 p ps q qs hnlt hlt ih =>
    refine .cons (ih hp hq.tail) (fun r hr => ?_) hq.head_pos
    have := hp.lt_head
    have := hq.lt_head
    rcases fst_of_mem_mergePowers hr with ⟨s, hs, hr⟩ | ⟨s, hs, hr⟩ <;> grind
  | case5 p ps q qs hnlt hlt ih =>
    refine .cons (ih hp.tail hq.tail) (fun r hr => ?_) (hf _ _ hp.head_pos hq.head_pos)
    have := hp.lt_head
    have := hq.lt_head
    rcases fst_of_mem_mergePowers hr with ⟨s, hs, hr⟩ | ⟨s, hs, hr⟩ <;> grind

/-- Subtracts the exponents of the second list from those of the first, `none` when one of them
would become negative. -/
def subtractPowers : List (Nat × Nat) → List (Nat × Nat) → Option (List (Nat × Nat))
  | ps, [] => some ps
  | [], _ :: _ => none
  | p :: ps, q :: qs =>
    if q.1 < p.1 then (subtractPowers ps (q :: qs)).map (p :: ·)
    else if p.1 < q.1 then none
    else if p.2 < q.2 then none
    else if p.2 = q.2 then subtractPowers ps qs
    else (subtractPowers ps qs).map ((p.1, p.2 - q.2) :: ·)

theorem fst_of_mem_subtractPowers {ps qs rs : List (Nat × Nat)} {r : Nat × Nat}
    (h : subtractPowers ps qs = some rs) (hr : r ∈ rs) : ∃ p ∈ ps, p.1 = r.1 := by
  fun_induction subtractPowers ps qs generalizing rs with
  | case1 => grind
  | case2 => simp at h
  | case3 | case7 =>
    obtain ⟨ts, hts, rfl⟩ := Option.map_eq_some_iff.1 h
    grind
  | case4 => simp at h
  | case5 => simp at h
  | case6 => grind

theorem PowerList.subtractPowers {ps qs rs : List (Nat × Nat)} (hp : PowerList ps)
    (h : subtractPowers ps qs = some rs) : PowerList rs := by
  fun_induction Cylindrical.subtractPowers ps qs generalizing rs with
  | case1 => exact (Option.some.inj h) ▸ hp
  | case2 => simp at h
  | case3 p ps q qs hlt ih =>
    obtain ⟨ts, hts, rfl⟩ := Option.map_eq_some_iff.1 h
    refine .cons (ih hp.tail hts) (fun r hr => ?_) hp.head_pos
    obtain ⟨s, hs, hr⟩ := fst_of_mem_subtractPowers hts hr
    exact hr ▸ hp.lt_head s hs
  | case4 => simp at h
  | case5 => simp at h
  | case6 p ps q qs _ _ _ _ ih => exact ih hp.tail h
  | case7 p ps q qs _ _ hle hne ih =>
    obtain ⟨ts, hts, rfl⟩ := Option.map_eq_some_iff.1 h
    refine .cons (ih hp.tail hts) (fun r hr => ?_) (by simp; omega)
    obtain ⟨s, hs, hr⟩ := fst_of_mem_subtractPowers hts hr
    exact hr ▸ hp.lt_head s hs

/-! ## Power products -/

namespace Monomial

/-- The exponent of a variable. -/
def degreeOf (v : Nat) (m : Monomial) : Nat := exponentIn v m.powers

@[ext] theorem ext {a b : Monomial} (h : a.powers = b.powers) : a = b := by
  obtain ⟨ps, _, d, hd⟩ := a
  obtain ⟨qs, _, e, he⟩ := b
  cases h
  cases hd
  cases he
  rfl

instance : DecidableEq Monomial := fun a b =>
  if h : a.powers = b.powers then isTrue (ext h) else isFalse fun hab => h (hab ▸ rfl)

/-- The empty product. -/
protected def one : Monomial := ⟨[], .nil, 0, rfl⟩

instance : One Monomial := ⟨Monomial.one⟩

instance : Inhabited Monomial := ⟨1⟩

/-- The power `v ^ e`. -/
def ofPower (v : Nat) (e : Nat) : Monomial :=
  if h : 0 < e then ⟨[(v, e)], .cons .nil (by simp) h, e, rfl⟩ else 1

/-- The product of any powers, in any order. -/
def ofPowers : List (Nat × Nat) → Monomial
  | [] => 1
  | p :: ps =>
    if h : 0 < p.2 then { powers := insertPower p.1 p.2 (ofPowers ps).powers,
                          valid := (ofPowers ps).valid.insertPower h }
    else ofPowers ps

def isUnit (m : Monomial) : Bool := m.powers.isEmpty

/-- The variables that occur, from the largest down. -/
def vars (m : Monomial) : List Nat := m.powers.map (·.1)

/-- The largest variable that occurs. -/
def mainVar? (m : Monomial) : Option Nat := m.powers.head?.map (·.1)

/-- The product without its power of `v`. -/
def without (v : Nat) (m : Monomial) : Monomial where
  powers := m.powers.filter (·.1 != v)
  valid := m.valid.filter _

protected def mul (a b : Monomial) : Monomial where
  powers := mergePowers (· + ·) a.powers b.powers
  valid := a.valid.mergePowers (fun _ _ h _ => Nat.add_pos_left h _) b.valid

instance : Mul Monomial := ⟨Monomial.mul⟩

/-- The quotient of `a` by `b`, if `b` divides `a`. -/
def div? (a b : Monomial) : Option Monomial :=
  match h : subtractPowers a.powers b.powers with
  | none => none
  | some ps => some { powers := ps, valid := a.valid.subtractPowers h }

/-- The least common multiple. -/
def lcm (a b : Monomial) : Monomial where
  powers := mergePowers max a.powers b.powers
  valid := a.valid.mergePowers (fun _ _ h _ => Nat.lt_of_lt_of_le h (Nat.le_max_left ..)) b.valid

/-- No variable occurs in both. -/
def isCoprime (a b : Monomial) : Bool :=
  a.powers.all fun p => b.powers.all fun q => q.1 != p.1

/-- Renames the variables; powers of variables with the same new name are multiplied. -/
def rename (f : Nat → Nat) (m : Monomial) : Monomial :=
  ofPowers (m.powers.map fun p => (f p.1, p.2))

/-- Every exponent is even. -/
def isSquare (m : Monomial) : Bool := m.powers.all fun p => p.2 % 2 == 0

end Monomial

end Cylindrical
