import Mathlib
import Cylindrical.Univariate.Basic
import Cylindrical.Proofs.Poly.Value

/-!
# Coefficient lists as polynomials

A list of coefficients is read as a polynomial over the rational numbers, and as one over the real
numbers.  Polynomials in one variable and their coefficient lists stand for the same thing.
-/

noncomputable section

open Polynomial

namespace Cylindrical

/-! ## Orderings relative to zero -/

theorem compareZero_eq_eq_iff {x : ℚ} : compareZero x = .eq ↔ x = 0 := by
  rw [compareZero]
  split_ifs with h₁ h₂
  · simp [h₁.ne]
  · simp [h₂]
  · simp [h₂]

theorem compareZero_eq_lt_iff {x : ℚ} : compareZero x = .lt ↔ x < 0 := by
  rw [compareZero]
  split_ifs with h₁ h₂ <;> simp [h₁]

theorem compareZero_eq_gt_iff {x : ℚ} : compareZero x = .gt ↔ 0 < x := by
  rw [compareZero]
  split_ifs with h₁ h₂
  · simp [h₁.le]
  · simp [h₂]
  · simp [lt_of_le_of_ne (not_lt.1 h₁) (Ne.symm h₂)]

/-- Two nonzero numbers have the same ordering exactly when their product is positive. -/
theorem compareZero_eq_iff {x y : ℚ} (hx : x ≠ 0) (hy : y ≠ 0) :
    compareZero x = compareZero y ↔ 0 < x * y := by
  rcases lt_or_gt_of_ne hx with hx | hx <;> rcases lt_or_gt_of_ne hy with hy | hy
  · rw [compareZero_eq_lt_iff.2 hx, compareZero_eq_lt_iff.2 hy]
    simp [mul_pos_of_neg_of_neg hx hy]
  · rw [compareZero_eq_lt_iff.2 hx, compareZero_eq_gt_iff.2 hy]
    simp [(mul_neg_of_neg_of_pos hx hy).le]
  · rw [compareZero_eq_gt_iff.2 hx, compareZero_eq_lt_iff.2 hy]
    simp [(mul_neg_of_pos_of_neg hx hy).le]
  · rw [compareZero_eq_gt_iff.2 hx, compareZero_eq_gt_iff.2 hy]
    simp [mul_pos hx hy]

namespace Univariate

/-! ## Polynomials -/

/-- The polynomial with the given coefficients. -/
def toPolynomial : List ℚ → ℚ[X]
  | [] => 0
  | c :: cs => toPolynomial cs * X + C c

@[simp] theorem toPolynomial_nil : toPolynomial [] = 0 := rfl

@[simp] theorem toPolynomial_cons (c : ℚ) (cs : List ℚ) :
    toPolynomial (c :: cs) = toPolynomial cs * X + C c := rfl

@[simp] theorem eval_toPolynomial (cs : List ℚ) (x : ℚ) :
    (toPolynomial cs).eval x = eval cs x := by
  induction cs with
  | nil => simp [eval]
  | cons c cs ih =>
    rw [toPolynomial_cons, eval_add, eval_mul, ih, eval_X, eval_C]
    rfl

theorem coeff_toPolynomial (cs : List ℚ) (k : ℕ) : (toPolynomial cs).coeff k = cs.getD k 0 := by
  induction cs generalizing k with
  | nil => simp
  | cons c cs ih =>
    cases k with
    | zero => simp
    | succ k => simp [ih]

theorem toPolynomial_eq_sum (cs : List ℚ) :
    toPolynomial cs = ∑ k ∈ Finset.range cs.length, C (cs.getD k 0) * X ^ k := by
  induction cs with
  | nil => simp
  | cons c cs ih =>
    rw [toPolynomial_cons, ih, List.length_cons, Finset.sum_range_succ', Finset.sum_mul]
    simp [pow_succ, mul_assoc]

theorem degree_toPolynomial_lt (cs : List ℚ) : (toPolynomial cs).degree < cs.length := by
  rw [degree_lt_iff_coeff_zero]
  intro k hk
  rw [coeff_toPolynomial, List.getD_eq_getElem?_getD, List.getElem?_eq_none (by simpa using hk)]
  rfl

theorem toPolynomial_trim (cs : List ℚ) : toPolynomial (trim cs) = toPolynomial cs := by
  induction cs with
  | nil => rfl
  | cons c cs ih =>
    rw [trim]
    split
    · rename_i heq
      rw [heq] at ih
      split_ifs with hc
      · simp [← ih, hc]
      · simp [← ih]
    · rw [toPolynomial_cons, ih, toPolynomial_cons]

theorem signAt_eq_eq_iff {cs : List ℚ} {x : ℚ} :
    signAt cs x = .eq ↔ (toPolynomial cs).IsRoot x := by
  rw [signAt, compareZero_eq_eq_iff, IsRoot, eval_toPolynomial]

/-- The polynomial over the real numbers. -/
def toReal (cs : List ℚ) : ℝ[X] := (toPolynomial cs).map (algebraMap ℚ ℝ)

@[simp] theorem eval_toReal_cast (cs : List ℚ) (x : ℚ) :
    (toReal cs).eval (x : ℝ) = (eval cs x : ℚ) := by
  rw [← eval_toPolynomial, toReal]
  exact eval_map_apply (algebraMap ℚ ℝ) x

theorem eval_ne_zero_iff {cs : List ℚ} {x : ℚ} :
    eval cs x ≠ 0 ↔ ¬(toReal cs).IsRoot (x : ℝ) := by
  rw [IsRoot, eval_toReal_cast, Rat.cast_eq_zero]

theorem isRoot_toReal_iff {cs : List ℚ} {x : ℚ} :
    (toReal cs).IsRoot (x : ℝ) ↔ (toPolynomial cs).IsRoot x := by
  rw [IsRoot, IsRoot, eval_toReal_cast, eval_toPolynomial, Rat.cast_eq_zero]

end Univariate

/-! ## Polynomials in one variable -/

namespace Poly

open Univariate

theorem sumOf_univariate (v : ℕ) (cs : List ℚ) (n : ℕ) :
    sumOf ((cs.zipIdx n).map fun c => ⟨c.1, .ofPower v c.2⟩) =
      MvPolynomial.X v ^ n * Polynomial.aeval (MvPolynomial.X v) (toPolynomial cs) := by
  induction cs generalizing n with
  | nil => simp
  | cons c cs ih =>
    have hterm : (⟨c, .ofPower v n⟩ : Term).toMv = MvPolynomial.C c * MvPolynomial.X v ^ n := by
      rw [Term.toMv, Monomial.toFinsupp_ofPower, MvPolynomial.X_pow_eq_monomial,
        MvPolynomial.C_mul_monomial, mul_one]
    rw [List.zipIdx_cons, List.map_cons, sumOf_cons, ih, hterm, toPolynomial_cons, map_add, map_mul,
      aeval_X, aeval_C, MvPolynomial.algebraMap_eq]
    ring

theorem toMv_univariate (v : ℕ) (cs : List ℚ) :
    (univariate v cs).toMv = Polynomial.aeval (MvPolynomial.X v) (toPolynomial cs) := by
  rw [univariate, toMv_ofTerms, sumOf_reverse, sumOf_univariate, pow_zero, one_mul]

theorem mem_vars_of_univariate? {v w : ℕ} {p : Poly} {cs : List ℚ}
    (h : p.univariate? v = some cs) (hw : w ∈ p.toMv.vars) : w = v := by
  rw [univariate?] at h
  split_ifs at h with hall
  obtain ⟨m, hm, hw⟩ := (MvPolynomial.mem_vars_iff_mem_support w).1 hw
  obtain ⟨t, ht, rfl⟩ := mem_support_toMv.1 hm
  have ht := List.all_eq_true.1 hall t ht
  by_contra hne
  refine Finsupp.mem_support_iff.1 hw ?_
  rw [Monomial.toFinsupp_apply]
  refine exponentIn_eq_zero fun q hq => ?_
  have hq := List.all_eq_true.1 ht q hq
  rw [beq_iff_eq] at hq
  rw [hq]
  exact Ne.symm hne

theorem toMv_coeff_of_univariate? {v : ℕ} {p : Poly} {cs : List ℚ} (h : p.univariate? v = some cs)
    (k : ℕ) : (p.coeff v k).toMv = MvPolynomial.C (p.coeff v k).constantValue := by
  refine toMv_of_isNumber (isNumber_iff_vars.2 (Finset.eq_empty_iff_forall_notMem.2 ?_))
  intro w hw
  have hwv := mem_vars_of_univariate? h (vars_coeff_subset v k p hw)
  exact notMem_vars_coeff v k p (hwv ▸ hw)

theorem toMv_of_univariate? {v : ℕ} {p : Poly} {cs : List ℚ} (h : p.univariate? v = some cs) :
    p.toMv = Polynomial.aeval (MvPolynomial.X v) (toPolynomial cs) := by
  have hvars := toMv_coeff_of_univariate? h
  rw [univariate?] at h
  split_ifs at h
  obtain rfl := Option.some.inj h
  rw [toPolynomial_eq_sum, map_sum]
  conv_lhs => rw [toMv_eq_sum_coeff v p]
  rw [List.length_map, coeffs, List.length_map, List.length_range]
  refine Finset.sum_congr rfl fun k hk => ?_
  have hk := Finset.mem_range.1 hk
  rw [map_mul, map_pow, aeval_X, aeval_C, hvars, List.getD_eq_getElem?_getD, List.map_map,
    List.getElem?_map, List.getElem?_range hk]
  rfl

/-- Every polynomial without other variables is univariate. -/
theorem exists_univariate? {v : ℕ} {p : Poly} (h : ∀ w ∈ p.toMv.vars, w = v) :
    ∃ cs, p.univariate? v = some cs := by
  refine ⟨_, if_pos (List.all_eq_true.2 fun t ht => List.all_eq_true.2 fun q hq => ?_)⟩
  rw [beq_iff_eq]
  refine h q.1 ((MvPolynomial.mem_vars_iff_mem_support _).2
    ⟨_, mem_support_toMv.2 ⟨t, ht, rfl⟩, Finsupp.mem_support_iff.2 ?_⟩)
  have hpos := t.monomial.valid.positive q hq
  have hle := snd_le_exponentsOf hq
  rw [Monomial.toFinsupp]
  omega

theorem fiber_of_toMv_eq {A : Type*} [CommRing A] [RationalAlgebra A] {v : ℕ} {p : Poly} {P : ℚ[X]}
    (h : p.toMv = Polynomial.aeval (MvPolynomial.X v) P) (x : ℕ → A) :
    p.fiber v x = P.map (algebraMap ℚ A) := by
  rw [fiber, value, h, ← Polynomial.aeval_algHom_apply, MvPolynomial.aeval_X, openAt_self]
  rfl

end Poly

end Cylindrical

end
