import Mathlib
import Cylindrical.Proofs.Poly.Substitution
import Cylindrical.Proofs.Sample.Denotation

/-!
# Known coordinates put into a polynomial

A coordinate is known when it is rational or its defining polynomial is linear.  Putting the known
coordinates in keeps the value at a point where their relations hold, as long as each rational
coordinate is put in at a power below `2 ^ 31` (`SamplePoint.Fits`).  A new defining polynomial that
only brings in coordinates that are not known does not spoil this.
-/

noncomputable section

namespace Cylindrical

open MvPolynomial (aeval X C)

variable {A : Type*} [CommRing A] [RationalAlgebra A]

/-! ## One coordinate -/

namespace Coordinate

/-- The coordinate of `v` is rational or the root of a linear defining polynomial. -/
def Known (v : ℕ) : Coordinate → Prop
  | rational _ => True
  | algebraic a => a.defining.degreeOf v = 1 ∧ (a.defining.coeff v 1).isConstant = true

/-- The relation of a known coordinate holds at a point. -/
def Holds (v : ℕ) (x : ℕ → A) : Coordinate → Prop
  | rational r => x v = algebraMap ℚ A r
  | algebraic a => (algebraic a).Known v → a.defining.value x = 0

/-- The polynomial for which a known coordinate stands. -/
def expression (v : ℕ) : Coordinate → Poly
  | rational r => .const r
  | algebraic a => (a.defining.coeff v 0).scale (-(1 / (a.defining.coeff v 1).constantValue))

/-- No variable above its own is in the defining polynomial of the coordinate. -/
def Triangular (v : ℕ) : Coordinate → Prop
  | rational _ => True
  | algebraic a => ∀ w ∈ a.defining.toMv.vars, w ≤ v

theorem Denotes.triangular {v : ℕ} {x : ℕ → ℝ} {c : Coordinate} (h : c.Denotes v x) :
    c.Triangular v := by
  cases c with
  | rational r => trivial
  | algebraic a => exact h.2.vars_le

theorem lt_of_mem_vars_expression {v w : ℕ} {c : Coordinate} (h : c.Triangular v)
    (hw : w ∈ (c.expression v).toMv.vars) : w < v := by
  cases c with
  | rational r =>
    rw [expression, Poly.toMv_const, MvPolynomial.vars_C] at hw
    simp at hw
  | algebraic a =>
    have hw : w ∈ (a.defining.coeff v 0).toMv.vars := by
      rw [expression, Poly.toMv_scale] at hw
      classical
      rcases Finset.mem_union.1 (MvPolynomial.vars_mul _ _ hw) with hw | hw
      · simp at hw
      · exact hw
    refine lt_of_le_of_ne (h w (Poly.vars_coeff_subset v 0 _ hw)) ?_
    rintro rfl
    exact Poly.notMem_vars_coeff w 0 _ hw

theorem value_expression {v : ℕ} {x : ℕ → A} {c : Coordinate} (hc : c.Known v)
    (h : c.Holds v x) : (c.expression v).value x = x v := by
  cases c with
  | rational r =>
    rw [expression, Poly.value_const]
    exact h.symm
  | algebraic a =>
    have h0 := h hc
    have hslope : (a.defining.coeff v 1).isNumber = true := by
      rw [Poly.isNumber, hc.2, Bool.or_true]
    rw [Poly.value_eq_sum_coeff v, hc.1, Finset.sum_range_succ, Finset.sum_range_one, pow_zero,
      mul_one, pow_one, Poly.value_of_isNumber x hslope] at h0
    rw [expression, Poly.value_scale, eq_neg_of_add_eq_zero_left h0, mul_neg, ← mul_assoc,
      ← map_mul, neg_mul, one_div, inv_mul_cancel₀ (Poly.constantValue_ne_zero hc.2), map_neg,
      map_one]
    ring

end Coordinate

namespace SamplePoint

/-- The step of the substitution for one coordinate. -/
def substituteStep (v : ℕ) (c : Coordinate) (p : Poly) : Poly :=
  if p.containsVar v then substituteCoord v p c else p

theorem substituteCoord_of_not_known {v : ℕ} {c : Coordinate} (h : ¬c.Known v) (p : Poly) :
    substituteCoord v p c = p := by
  cases c with
  | rational r => exact absurd trivial h
  | algebraic a =>
    rw [substituteCoord]
    exact if_neg fun hk => h (by simpa [Coordinate.Known] using hk)

theorem substituteCoord_of_known {v : ℕ} {a : AlgebraicNumber}
    (h : (Coordinate.algebraic a).Known v) (p : Poly) :
    substituteCoord v p (.algebraic a) = p.substitute v ((Coordinate.algebraic a).expression v) := by
  rw [substituteCoord]
  exact if_pos (by simpa [Coordinate.Known] using h)

theorem substituteStep_of_not_known {v : ℕ} {c : Coordinate} (h : ¬c.Known v) (p : Poly) :
    substituteStep v c p = p := by
  rw [substituteStep, substituteCoord_of_not_known h, ite_self]

theorem substituteStep_rational (v : ℕ) (r : ℚ) (p : Poly) :
    substituteStep v (.rational r) p = p.evalAt v r := by
  rw [substituteStep, substituteCoord, Poly.evalAt]
  split_ifs <;> rfl

theorem toMv_substituteStep {v : ℕ} {c : Coordinate} {p : Poly} (h : c.Known v)
    (hp : c.isRational = true → p.degreeOf v < Nat.pow 2 31) :
    (substituteStep v c p).toMv = (p.substitute v (c.expression v)).toMv := by
  cases c with
  | rational r =>
    rw [substituteStep_rational, Poly.toMv_evalAt (hp rfl), Poly.toMv_substitute,
      Coordinate.expression, Poly.toMv_const]
  | algebraic a =>
    rw [substituteStep, substituteCoord_of_known h, Poly.substitute]
    split_ifs <;> rfl

theorem toMv_substituteStep_algebraic {v : ℕ} {a : AlgebraicNumber}
    (h : (Coordinate.algebraic a).Known v) (p : Poly) :
    (substituteStep v (.algebraic a) p).toMv =
      (p.substitute v ((Coordinate.algebraic a).expression v)).toMv :=
  toMv_substituteStep h (by simp [Coordinate.isRational])

/-- A step of the substitution commutes with putting in a polynomial without its variable. -/
theorem toMv_substituteStep_substitute {v w : ℕ} {c : Coordinate} (hvw : v ≠ w) {p q e : Poly}
    (hq : q.toMv = (p.substitute v e).toMv) (he : c.Known w → w ∉ e.toMv.vars)
    (hc : v ∉ (c.expression w).toMv.vars) :
    (substituteStep w c q).toMv = ((substituteStep w c p).substitute v e).toMv := by
  by_cases hk : c.Known w
  · cases c with
    | rational r =>
      rw [substituteStep_rational, substituteStep_rational, Poly.toMv_evalAt_eq_putIn, hq,
        ← Poly.toMv_evalAt_eq_putIn, Poly.toMv_evalAt_substitute hvw p (he hk)]
    | algebraic a =>
      rw [toMv_substituteStep_algebraic hk, Poly.toMv_substitute, hq, ← Poly.toMv_substitute,
        Poly.toMv_substitute_comm hvw p (he hk) hc, Poly.toMv_substitute v (substituteStep _ _ _),
        toMv_substituteStep_algebraic hk, ← Poly.toMv_substitute]
  · rw [substituteStep_of_not_known hk, substituteStep_of_not_known hk, hq]

theorem value_substituteStep {v : ℕ} {c : Coordinate} {p : Poly} {x : ℕ → A} (h : c.Holds v x)
    (hp : c.isRational = true → p.degreeOf v < Nat.pow 2 31) :
    (substituteStep v c p).value x = p.value x := by
  by_cases hc : c.Known v
  · rw [Poly.value_eq_aeval_of_toMv_eq (toMv_substituteStep hc hp), Poly.value_substitute,
      c.value_expression hc h, Function.update_eq_self]
  · rw [substituteStep_of_not_known hc]

theorem vars_substituteStep_subset (v : ℕ) (c : Coordinate) (p : Poly) :
    (substituteStep v c p).toMv.vars ⊆ p.toMv.vars ∪ (c.expression v).toMv.vars := by
  rw [substituteStep]
  split_ifs
  · cases c with
    | rational r =>
      exact (Poly.vars_evalAt_subset v r p).trans
        ((Finset.erase_subset _ _).trans Finset.subset_union_left)
    | algebraic a =>
      by_cases hc : (Coordinate.algebraic a).Known v
      · rw [substituteCoord_of_known hc]
        exact (Poly.vars_substitute_subset v p _).trans
          (Finset.union_subset_union_left (Finset.erase_subset _ _))
      · rw [substituteCoord_of_not_known hc]
        exact Finset.subset_union_left
  · exact Finset.subset_union_left

theorem notMem_vars_substituteStep {v : ℕ} {c : Coordinate} (hc : c.Known v) (ht : c.Triangular v)
    (p : Poly) : v ∉ (substituteStep v c p).toMv.vars := by
  rw [substituteStep]
  split_ifs with hv
  · cases c with
    | rational r =>
      intro h
      exact Finset.notMem_erase v _ (Poly.vars_evalAt_subset v r p h)
    | algebraic a =>
      rw [substituteCoord_of_known hc]
      intro h
      rcases Finset.mem_union.1 (Poly.vars_substitute_subset v p _ h) with h | h
      · exact Finset.notMem_erase v _ h
      · exact (Coordinate.lt_of_mem_vars_expression ht h).false
  · exact Poly.containsVar_eq_false_iff.1 (by simpa using hv)

theorem degreeOf_substituteStep_le {v w : ℕ} {c : Coordinate} (hc : c.Triangular v) (hw : v ≤ w)
    (p : Poly) : (substituteStep v c p).degreeOf w ≤ p.degreeOf w := by
  rw [substituteStep]
  split_ifs
  · cases c with
    | rational r => exact Poly.degreeOf_evalAt_le v w r p
    | algebraic a =>
      by_cases hk : (Coordinate.algebraic a).Known v
      · rw [substituteCoord_of_known hk]
        refine Poly.degreeOf_substitute_le p fun h => ?_
        exact (Coordinate.lt_of_mem_vars_expression hc h).not_ge hw
      · rw [substituteCoord_of_not_known hk]
  · exact le_rfl

/-! ## All coordinates from a variable on -/

/-- The polynomial with the coordinates from `k` on put in, as far as they are known. -/
def substituteFrom (s : SamplePoint) (k : ℕ) (p : Poly) : Poly :=
  (s.coords.zipIdx.drop k).foldr (fun (c, v) p =>
    if p.containsVar v then substituteCoord v p c else p) p

/-- Every rational coordinate is put into the polynomial at a power that counts as it is. -/
def Fits (s : SamplePoint) (p : Poly) : Prop :=
  ∀ v r, s.get? v = some (.rational r) → (s.substituteFrom (v + 1) p).degreeOf v < Nat.pow 2 31

theorem substituteKnown_eq (s : SamplePoint) (p : Poly) :
    s.substituteKnown p = s.substituteFrom 0 p := rfl

theorem substituteFrom_of_size_le {s : SamplePoint} {k : ℕ} (h : s.size ≤ k) (p : Poly) :
    s.substituteFrom k p = p := by
  rw [substituteFrom, List.drop_eq_nil_of_le (by simpa [size] using h)]
  rfl

theorem substituteFrom_of_get? {s : SamplePoint} {k : ℕ} {c : Coordinate} (h : s.get? k = some c)
    (p : Poly) : s.substituteFrom k p = substituteStep k c (s.substituteFrom (k + 1) p) := by
  have hk : k < s.coords.zipIdx.length := by simpa [size] using lt_size_of_get? h
  obtain ⟨-, rfl⟩ := List.getElem?_eq_some_iff.1 h
  rw [substituteFrom, List.drop_eq_getElem_cons hk, List.foldr_cons, List.getElem_zipIdx, zero_add]
  rfl

/-- From the last coordinate down: what holds of the polynomial itself and is kept by each step. -/
theorem substituteFrom_induction {s : SamplePoint} {p : Poly} {P : ℕ → Poly → Prop}
    (base : ∀ k, s.size ≤ k → P k p)
    (step : ∀ k c q, s.get? k = some c → q = s.substituteFrom (k + 1) p → P (k + 1) q →
      P k (substituteStep k c q)) (k : ℕ) : P k (s.substituteFrom k p) := by
  by_cases h : s.size ≤ k
  · rw [substituteFrom_of_size_le h]
    exact base k h
  · obtain ⟨c, hc⟩ := exists_get? (not_le.1 h)
    rw [substituteFrom_of_get? hc]
    exact step k c _ hc rfl (substituteFrom_induction base step (k + 1))
termination_by s.size - k

theorem substituteCoord_congr {v : ℕ} {c d : Coordinate} (h : c.relation = d.relation) (p : Poly) :
    substituteCoord v p c = substituteCoord v p d := by
  cases c <;> cases d <;> simp_all [Coordinate.relation, substituteCoord]

theorem substituteFrom_congr {s t : SamplePoint} (h : s.relations = t.relations) (k : ℕ)
    (p : Poly) : s.substituteFrom k p = t.substituteFrom k p := by
  have hsize : s.size = t.size := by simpa [relations, size] using congrArg List.length h
  refine substituteFrom_induction (P := fun k q => q = t.substituteFrom k p)
    (fun k hk => (substituteFrom_of_size_le (hsize ▸ hk) p).symm) (fun k c q hc _ hq => ?_) k
  have hget := congrArg (·[k]?) h
  simp only [getElem?_relations, hc] at hget
  obtain ⟨d, hd, hcd⟩ := Option.map_eq_some_iff.1 hget.symm
  rw [substituteFrom_of_get? hd, ← hq, substituteStep, substituteStep,
    substituteCoord_congr hcd]

/-- The relations of the coordinates up to `n` hold at a point. -/
def HoldsUpTo (s : SamplePoint) (n : ℕ) (x : ℕ → A) : Prop :=
  ∀ v c, s.get? v = some c → v ≤ n → c.Holds v x

/-- The relations of all coordinates hold at a point. -/
def Holds (s : SamplePoint) (x : ℕ → A) : Prop := ∀ v c, s.get? v = some c → c.Holds v x

/-- All coordinates have defining polynomials in lower variables and their own. -/
def Triangular (s : SamplePoint) : Prop := ∀ v c, s.get? v = some c → c.Triangular v

theorem Denotes.triangular {s : SamplePoint} {x : ℕ → ℝ} (h : s.Denotes x) : s.Triangular :=
  fun v c hc => (h v c hc).triangular

theorem vars_substituteFrom_le {s : SamplePoint} (hs : s.Triangular) {n : ℕ} {p : Poly}
    (hp : ∀ w ∈ p.toMv.vars, w ≤ n) (k : ℕ) :
    ∀ w ∈ (s.substituteFrom k p).toMv.vars, w ≤ n := by
  refine substituteFrom_induction (P := fun _ q => ∀ w ∈ q.toMv.vars, w ≤ n) (fun _ _ => hp)
    (fun k c q hc _ hq w hw => ?_) k
  by_cases hk : q.containsVar k = true
  · rcases Finset.mem_union.1 (vars_substituteStep_subset k c q hw) with hw | hw
    · exact hq w hw
    · have := hq k (Poly.containsVar_iff.1 hk)
      have := Coordinate.lt_of_mem_vars_expression (hs k c hc) hw
      omega
  · rw [substituteStep, if_neg hk] at hw
    exact hq w hw

theorem notMem_vars_substituteFrom {s : SamplePoint} (hs : s.Triangular) {v k : ℕ} (hk : k ≤ v)
    {c : Coordinate} (hc : s.get? v = some c) (hv : c.Known v) (p : Poly) :
    v ∉ (s.substituteFrom k p).toMv.vars := by
  refine substituteFrom_induction (P := fun k q => k ≤ v → v ∉ q.toMv.vars)
    (fun k hsize hk => absurd (lt_size_of_get? hc) (by omega)) (fun k d q hd _ hq hk => ?_) k hk
  rcases Nat.lt_or_eq_of_le hk with hlt | rfl
  · intro hw
    rcases Finset.mem_union.1 (vars_substituteStep_subset k d q hw) with hw | hw
    · exact hq hlt hw
    · have := Coordinate.lt_of_mem_vars_expression (hs k d hd) hw
      omega
  · obtain rfl := Option.some.inj (hc.symm.trans hd)
    exact notMem_vars_substituteStep hv (hs _ _ hc) q

theorem degreeOf_substituteFrom_le {s : SamplePoint} (hs : s.Triangular) {n : ℕ} {p : Poly}
    (hp : ∀ w ∈ p.toMv.vars, w ≤ n) (k : ℕ) : (s.substituteFrom k p).degreeOf n ≤ p.degreeOf n := by
  refine substituteFrom_induction (P := fun _ q => q.degreeOf n ≤ p.degreeOf n) (fun _ _ => le_rfl)
    (fun k c q hc hq hle => ?_) k
  by_cases hk : k ≤ n
  · exact (degreeOf_substituteStep_le (hs k c hc) hk q).trans hle
  · rw [substituteStep, if_neg]
    · exact hle
    · rw [Poly.containsVar_iff, hq]
      exact fun hmem => hk (vars_substituteFrom_le hs hp _ k hmem)

theorem value_substituteFrom {s : SamplePoint} (hs : s.Triangular) {n : ℕ} {p : Poly}
    (hp : ∀ w ∈ p.toMv.vars, w ≤ n) (hfits : s.Fits p) {x : ℕ → A} (hx : s.HoldsUpTo n x) (k : ℕ) :
    (s.substituteFrom k p).value x = p.value x := by
  refine substituteFrom_induction (P := fun _ q => q.value x = p.value x) (fun _ _ => rfl)
    (fun k c q hc hq hval => ?_) k
  by_cases hk : k ≤ n
  · rw [value_substituteStep (hx k c hc hk), hval]
    intro hr
    cases c with
    | rational r => exact hq ▸ hfits k r hc
    | algebraic a => simp [Coordinate.isRational] at hr
  · rw [substituteStep, if_neg]
    · exact hval
    · rw [Poly.containsVar_iff, hq]
      exact fun hmem => hk (vars_substituteFrom_le hs hp _ k hmem)

/-- Known coordinates in a polynomial keep its value where their relations hold. -/
theorem value_substituteKnown_of_holds {s : SamplePoint} (hs : s.Triangular) {p : Poly}
    (hp : s.Fits p) {x : ℕ → A} (hx : s.Holds x) : (s.substituteKnown p).value x = p.value x :=
  value_substituteFrom hs (n := p.toMv.vars.sup id) (fun _ hw => Finset.le_sup (f := id) hw) hp
    (fun v c hc _ => hx v c hc) 0

/-- A polynomial without known coordinates is left alone. -/
theorem substituteFrom_of_not_known {s : SamplePoint} {p : Poly}
    (hp : ∀ v ∈ p.toMv.vars, ∀ c, s.get? v = some c → ¬c.Known v) (k : ℕ) :
    s.substituteFrom k p = p := by
  refine substituteFrom_induction (P := fun _ q => q = p) (fun _ _ => rfl)
    (fun k c q hc _ hq => ?_) k
  rw [substituteStep, hq]
  split_ifs with hk
  · exact substituteCoord_of_not_known (hp k (Poly.containsVar_iff.1 hk) c hc) p
  · rfl

/-- No variable with a known coordinate is left. -/
theorem not_known_of_mem_vars_substituteKnown {s : SamplePoint} (hs : s.Triangular) {p : Poly}
    {v : ℕ} (hv : v ∈ (s.substituteKnown p).toMv.vars) {c : Coordinate}
    (hc : s.get? v = some c) : ¬c.Known v := fun hk =>
  notMem_vars_substituteFrom hs (Nat.zero_le v) hc hk p hv

theorem substituteKnown_substituteKnown {s : SamplePoint} (hs : s.Triangular) (p : Poly) :
    s.substituteKnown (s.substituteKnown p) = s.substituteKnown p :=
  substituteFrom_of_not_known (fun _ hv _ hc => not_known_of_mem_vars_substituteKnown hs hv hc) 0

/-! ## New defining polynomials -/

section Replacement

variable {s : SamplePoint} {v : ℕ} {a : AlgebraicNumber} {g : Poly}

/-- A polynomial that may define the coordinate of `v` anew: the variables of it are not known. -/
structure Replaceable (s : SamplePoint) (v : ℕ) (a : AlgebraicNumber) (g : Poly) : Prop where
  get? : s.get? v = some (.algebraic a)
  not_known : ¬(Coordinate.algebraic a).Known v
  vars_le : ∀ w ∈ g.toMv.vars, w ≤ v
  vars_not_known : ∀ w ∈ g.toMv.vars, ∀ c, s.get? w = some c → ¬c.Known w

/-- The point with a new defining polynomial. -/
def redefine (s : SamplePoint) (v : ℕ) (a : AlgebraicNumber) (g : Poly) : SamplePoint :=
  s.set v (.algebraic { a with defining := g })

theorem get?_redefine_of_ne {w : ℕ} (h : v ≠ w) : (s.redefine v a g).get? w = s.get? w := by
  rw [redefine, get?_set, if_neg fun hvw => h hvw.1]

theorem get?_redefine_self (h : s.get? v = some (.algebraic a)) :
    (s.redefine v a g).get? v = some (.algebraic { a with defining := g }) := by
  rw [redefine, get?_set, if_pos ⟨rfl, lt_size_of_get? h⟩]

theorem substituteFrom_redefine_of_lt (p : Poly) {k : ℕ} (hk : v < k) :
    (s.redefine v a g).substituteFrom k p = s.substituteFrom k p := by
  refine substituteFrom_induction (P := fun k q => v < k → q = s.substituteFrom k p)
    (fun k hk _ => (substituteFrom_of_size_le (by simpa [redefine] using hk) p).symm)
    (fun k c q hc _ hq hk => ?_) k hk
  rw [get?_redefine_of_ne hk.ne] at hc
  rw [substituteFrom_of_get? hc, hq (by omega)]

theorem notMem_vars_expression (h : s.Replaceable v a g) {k : ℕ} {c : Coordinate}
    (hk : s.get? k = some c) (hc : c.Known k) :
    k ∉ ((Coordinate.algebraic { a with defining := g }).expression v).toMv.vars := by
  intro hmem
  refine h.vars_not_known k ?_ c hk hc
  rw [Coordinate.expression, Poly.toMv_scale] at hmem
  classical
  rcases Finset.mem_union.1 (MvPolynomial.vars_mul _ _ hmem) with hmem | hmem
  · simp at hmem
  · exact Poly.vars_coeff_subset v 0 g hmem

/-- With a new defining polynomial that makes its coordinate known, the same is put in, and this
coordinate. -/
theorem toMv_substituteFrom_redefine (hs : s.Triangular) (h : s.Replaceable v a g)
    (hb : (Coordinate.algebraic { a with defining := g }).Known v) (p : Poly) {k : ℕ} (hk : k ≤ v) :
    ((s.redefine v a g).substituteFrom k p).toMv = ((s.substituteFrom k p).substitute v
      ((Coordinate.algebraic { a with defining := g }).expression v)).toMv := by
  refine substituteFrom_induction (P := fun k q => k ≤ v → q.toMv =
    ((s.substituteFrom k p).substitute v _).toMv) (fun k hsize hk => ?_)
    (fun k c q hc hq hval hk => ?_) k hk
  · have := lt_size_of_get? h.get?
    rw [redefine, size_set] at hsize
    omega
  rcases Nat.lt_or_eq_of_le hk with hlt | rfl
  · rw [get?_redefine_of_ne (by omega)] at hc
    rw [substituteFrom_of_get? hc]
    exact toMv_substituteStep_substitute hlt.ne' (hval hlt) (notMem_vars_expression h hc)
      fun hv => (Coordinate.lt_of_mem_vars_expression (hs k c hc) hv).not_gt hlt
  · rw [get?_redefine_self h.get?] at hc
    obtain rfl := Option.some.inj hc
    rw [hq, substituteFrom_redefine_of_lt p (by omega), substituteFrom_of_get? h.get?,
      substituteStep_of_not_known h.not_known, toMv_substituteStep_algebraic hb]

theorem substituteFrom_redefine_of_not_known (h : s.Replaceable v a g)
    (hb : ¬(Coordinate.algebraic { a with defining := g }).Known v) (p : Poly) (k : ℕ) :
    (s.redefine v a g).substituteFrom k p = s.substituteFrom k p := by
  refine substituteFrom_induction (P := fun k q => q = s.substituteFrom k p)
    (fun k hk => (substituteFrom_of_size_le (by simpa [redefine] using hk) p).symm)
    (fun k c q hc _ hq => ?_) k
  by_cases hv : v = k
  · subst hv
    rw [get?_redefine_self h.get?] at hc
    obtain rfl := Option.some.inj hc
    rw [substituteFrom_of_get? h.get?, substituteStep_of_not_known hb,
      substituteStep_of_not_known h.not_known, hq]
  · rw [get?_redefine_of_ne hv] at hc
    rw [substituteFrom_of_get? hc, hq]

/-- A new defining polynomial does not raise the power at which a rational coordinate is put in. -/
theorem Fits.redefine {p : Poly} (hp : s.Fits p) (hs : s.Triangular) (h : s.Replaceable v a g) :
    (s.redefine v a g).Fits p := by
  intro u r hu
  have huv : v ≠ u := by
    rintro rfl
    rw [get?_redefine_self h.get?] at hu
    simp at hu
  rw [get?_redefine_of_ne huv] at hu
  refine lt_of_le_of_lt ?_ (hp u r hu)
  by_cases hb : (Coordinate.algebraic { a with defining := g }).Known v
  · rcases lt_or_ge v (u + 1) with hlt | hle
    · rw [substituteFrom_redefine_of_lt p hlt]
    · rw [Poly.degreeOf_eq, toMv_substituteFrom_redefine hs h hb p hle, ← Poly.degreeOf_eq]
      exact Poly.degreeOf_substitute_le _ (notMem_vars_expression h hu trivial)
  · rw [substituteFrom_redefine_of_not_known h hb]

/-- A new defining polynomial that vanishes at a point keeps the value there of a polynomial with the
known coordinates put in. -/
theorem value_substituteKnown_redefine (hs : s.Triangular) (h : s.Replaceable v a g) {x : ℕ → A}
    (hg : g.value x = 0) (p : Poly) :
    ((s.redefine v a g).substituteKnown p).value x = (s.substituteKnown p).value x := by
  rw [substituteKnown_eq, substituteKnown_eq]
  by_cases hb : (Coordinate.algebraic { a with defining := g }).Known v
  · rw [Poly.value_eq_aeval_of_toMv_eq (toMv_substituteFrom_redefine hs h hb p (Nat.zero_le v)),
      Poly.value_substitute, Coordinate.value_expression hb fun _ => hg, Function.update_eq_self]
  · rw [substituteFrom_redefine_of_not_known h hb]

theorem fits_of_not_known {p : Poly}
    (hp : ∀ v ∈ p.toMv.vars, ∀ c, s.get? v = some c → ¬c.Known v) : s.Fits p := by
  intro u r hu
  rw [substituteFrom_of_not_known hp, Poly.degreeOf_eq_zero_iff.2]
  · exact Nat.pow_pos (by omega)
  · exact fun hmem => hp u hmem _ hu trivial

end Replacement

end SamplePoint

end Cylindrical

end
