import Mathlib
import Cylindrical.Proofs.Univariate.Mobius
import Cylindrical.Proofs.Univariate.ShortInterval

/-!
# Descartes' bound with multiplicities

A real polynomial is a product of linear factors and of one without real roots
(`induction_on_realRoots`).  Each positive root turns the sign of the last coefficient relative to
the leading one, so changes of sign and positive roots agree modulo two
(`even_countP_roots_iff`, `even_signVariations_iff`).  The transform of a product is the product of
the transforms, so its positive roots are the roots inside the interval with their multiplicities,
also when the ends are roots (`countP_roots_transform`).
-/

noncomputable section

open Polynomial

namespace Cylindrical

variable {a b r : ℝ} {P : ℝ[X]}

/-! ## Real roots -/

/-- Real roots split off one at a time, until none is left. -/
theorem induction_on_realRoots {motive : ℝ[X] → Prop} (zero : motive 0)
    (rootless : ∀ P, (∀ x, ¬P.IsRoot x) → motive P)
    (linear_mul : ∀ r P, P ≠ 0 → motive P → motive ((X - C r) * P)) (P : ℝ[X]) : motive P := by
  by_cases h0 : P = 0
  · exact h0 ▸ zero
  induction hn : P.natDegree generalizing P with
  | zero =>
    refine rootless P fun x hroot => h0 ?_
    rw [eq_C_of_natDegree_eq_zero hn, IsRoot, eval_C] at hroot
    rw [eq_C_of_natDegree_eq_zero hn, hroot, C_0]
  | succ n ih =>
    by_cases hroots : ∀ x, ¬P.IsRoot x
    · exact rootless P hroots
    push Not at hroots
    obtain ⟨r, hroot⟩ := hroots
    obtain ⟨Q, rfl⟩ := dvd_iff_isRoot.2 hroot
    have hQ : Q ≠ 0 := right_ne_zero_of_mul h0
    rw [natDegree_mul (X_sub_C_ne_zero r) hQ, natDegree_X_sub_C] at hn
    exact linear_mul r Q hQ (ih Q hQ (by omega))

theorem ne_zero_of_rootless (h : ∀ x, ¬P.IsRoot x) : P ≠ 0 := by
  rintro rfl
  exact h 0 eval_zero

theorem roots_of_rootless (h : ∀ x, ¬P.IsRoot x) : P.roots = 0 :=
  Multiset.eq_zero_of_forall_notMem fun x hx => h x (isRoot_of_mem_roots hx)

/-- Without real roots the value at zero has the sign of the values far away. -/
theorem leadingCoeff_mul_eval_zero_pos (h : ∀ x, ¬P.IsRoot x) :
    0 < P.leadingCoeff * P.eval 0 := by
  have hlead := leadingCoeff_ne_zero.2 (ne_zero_of_rootless h)
  rcases Nat.eq_zero_or_pos P.natDegree with hn | hn
  · rw [leadingCoeff, hn] at hlead ⊢
    rw [← coeff_zero_eq_eval_zero]
    exact mul_self_pos.2 hlead
  have hfar := tendsto_atTop_of_leadingCoeff_nonneg (C P.leadingCoeff * P)
    (by rwa [degree_C_mul hlead, ← natDegree_pos_iff_degree_pos])
    (by rw [leadingCoeff_mul, leadingCoeff_C]; exact mul_self_nonneg _)
  obtain ⟨M, hM, hpos⟩ := ((hfar.eventually_gt_atTop 0).and (Filter.eventually_ge_atTop 0)).exists
  have hsame := eval_mul_eval_pos hpos fun x _ => h x
  rw [eval_mul, eval_C] at hM
  have hproduct : P.leadingCoeff * P.eval 0 * (P.leadingCoeff * P.eval M) =
      P.leadingCoeff ^ 2 * (P.eval 0 * P.eval M) := by ring
  exact pos_of_mul_pos_left (hproduct ▸ mul_pos (by positivity) hsame) hM.le

/-! ## Positive roots and signs -/

theorem trailingCoeff_X : (X : ℝ[X]).trailingCoeff = 1 := by
  rw [← monomial_one_one_eq_X]
  simp [trailingCoeff, natTrailingDegree_monomial]

theorem trailingCoeff_X_sub_C (hr : r ≠ 0) : (X - C r : ℝ[X]).trailingCoeff = -r := by
  rw [trailingCoeff_eq_coeff_zero] <;> simp [hr]

theorem countP_roots_linear_mul (p : ℝ → Prop) [DecidablePred p] (h0 : P ≠ 0) (r : ℝ) :
    ((X - C r) * P).roots.countP p = P.roots.countP p + if p r then 1 else 0 := by
  rw [roots_mul (mul_ne_zero (X_sub_C_ne_zero r) h0), roots_X_sub_C, Multiset.singleton_add,
    Multiset.countP_cons]

/-- The number of positive roots is even when the first and the last coefficient have the same sign. -/
theorem even_countP_roots_iff (h0 : P ≠ 0) :
    Even (P.roots.countP (0 < ·)) ↔ 0 < P.leadingCoeff * P.trailingCoeff := by
  induction P using induction_on_realRoots with
  | zero => exact absurd rfl h0
  | rootless P h =>
    have hzero : P.coeff 0 ≠ 0 := by
      rw [coeff_zero_eq_eval_zero]
      exact h 0
    have hpos := leadingCoeff_mul_eval_zero_pos h
    rw [← coeff_zero_eq_eval_zero, ← trailingCoeff_eq_coeff_zero hzero] at hpos
    simp [roots_of_rootless h, hpos]
  | linear_mul r P hP ih =>
    have hne : P.leadingCoeff * P.trailingCoeff ≠ 0 :=
      mul_ne_zero (leadingCoeff_ne_zero.2 hP) (trailingCoeff_nonzero_iff_nonzero.2 hP)
    rw [countP_roots_linear_mul _ hP, leadingCoeff_mul, leadingCoeff_X_sub_C, one_mul,
      trailingCoeff_mul, mul_left_comm]
    -- only a positive root has a factor with a negative last coefficient
    rcases lt_trichotomy r 0 with hr | rfl | hr
    · rw [if_neg hr.not_gt, add_zero, ih hP, trailingCoeff_X_sub_C hr.ne,
        mul_pos_iff_of_pos_left (neg_pos.2 hr)]
    · rw [if_neg (lt_irrefl _), add_zero, ih hP, C_0, sub_zero, trailingCoeff_X, one_mul]
    · rw [if_pos hr, Nat.even_add_one, ih hP, trailingCoeff_X_sub_C hr.ne', not_lt,
        hne.le_iff_lt, neg_mul_comm, mul_pos_iff_of_pos_left hr, neg_pos]

namespace Univariate

variable {cs : List ℚ}

/-- The number of changes of sign is even when the first and the last coefficient have the same sign. -/
theorem even_signVariations_iff (h0 : toReal cs ≠ 0) :
    Even (signVariations cs) ↔ 0 < (toReal cs).leadingCoeff * (toReal cs).trailingCoeff := by
  induction cs with
  | nil => exact absurd (by simp [toReal]) h0
  | cons c cs ih =>
    by_cases hc : c = 0
    · have hcons : toReal (c :: cs) = toReal cs * X := by simp [toReal, hc]
      rw [hcons] at h0 ⊢
      rw [signVariations, hc, signVariationsAfter_zero, ← signVariations, ih (left_ne_zero_of_mul h0),
        leadingCoeff_mul_X, trailingCoeff_mul, trailingCoeff_X, mul_one]
    · have hzero : (toReal (c :: cs)).coeff 0 = c := by simp [toReal]
      have hcompare : compareZero c ≠ .eq := fun h => hc (compareZero_eq_eq_iff.1 h)
      have hsign : SignType.sign (c : ℝ) ≠ 0 := sign_ne_zero.2 (Rat.cast_ne_zero.2 hc)
      have hlead := sign_leadingCoeff_toReal (c :: cs)
      rw [lastSign_cons, if_neg hc] at hlead
      rw [signVariations, signVariationsAfter_cons hc, if_neg (by simp), zero_add,
        even_signVariationsAfter_iff hcompare, trailingCoeff_eq_coeff_zero (by simp [hzero, hc]), hzero,
        ← signType_injective.eq_iff, ← hlead, ← sign_cast, ← sign_eq_one_iff, sign_mul]
      revert hsign
      generalize SignType.sign (toReal (c :: cs)).leadingCoeff = s
      generalize SignType.sign (c : ℝ) = t
      revert s t
      decide

end Univariate

/-! ## Transforms -/

/-- The sum of `cᵢ * (a + b * t) ^ i * (1 + t) ^ (n - i)`, where `n` is the degree. -/
def transform (a b : ℝ) (P : ℝ[X]) : ℝ[X] :=
  ∑ i ∈ Finset.range (P.natDegree + 1),
    C (P.coeff i) * (C a + C b * X) ^ i * (1 + X) ^ (P.natDegree - i)

theorem isTransform_transform (a b : ℝ) (P : ℝ[X]) :
    IsTransform a b P.natDegree P (transform a b P) := fun t ht => by
  have h0 : 1 + t ≠ 0 := by positivity
  rw [transform, eval_finsetSum, eval_eq_sum_range, Finset.mul_sum]
  refine Finset.sum_congr rfl fun i hi => ?_
  have hpow : (1 + t) ^ P.natDegree = (1 + t) ^ (P.natDegree - i) * (1 + t) ^ i := by
    rw [← pow_add, Nat.sub_add_cancel (Finset.mem_range_succ_iff.1 hi)]
  simp only [eval_mul, eval_pow, eval_add, eval_C, eval_X, eval_one]
  rw [hpow, div_pow]
  field_simp

theorem transform_linear_mul (a b r : ℝ) (h0 : P ≠ 0) :
    transform a b ((X - C r) * P) = (C (a - r) + C (b - r) * X) * transform a b P := by
  have hproduct := (isTransform_linear a b r).mul (isTransform_transform a b P)
  rw [← natDegree_X_sub_C r, ← natDegree_mul (X_sub_C_ne_zero r) h0] at hproduct
  exact (isTransform_transform a b _).unique hproduct

theorem linear_ne_zero (hab : a < b) (r : ℝ) : C (a - r) + C (b - r) * X ≠ 0 := fun h => by
  have hfirst : a - r = 0 := by simpa using congrArg (eval 0) h
  have hlast : a - r + (b - r) = 0 := by simpa using congrArg (eval 1) h
  linarith

/-- The factor of a root has a positive root in the transform when the root is inside the interval. -/
theorem countP_roots_linear (hab : a < b) (r : ℝ) :
    (C (a - r) + C (b - r) * X).roots.countP (0 < ·) = if a < r ∧ r < b then 1 else 0 := by
  by_cases hr : r = b
  · rw [hr, sub_self, C_0, zero_mul, add_zero, roots_C, Multiset.countP_zero, if_neg (by simp)]
  have hb : b - r ≠ 0 := sub_ne_zero.2 (Ne.symm hr)
  have hpos : 0 < -((b - r)⁻¹ * (a - r)) ↔ a < r ∧ r < b := by
    rw [← mul_neg, neg_sub, ← div_eq_inv_mul, div_pos_iff, sub_pos, sub_pos, sub_neg, sub_neg,
      or_iff_left fun h => (h.1.trans (hab.trans h.2)).false]
  rw [add_comm, roots_C_mul_X_add_C _ hb, ← Multiset.cons_zero, Multiset.countP_cons,
    Multiset.countP_zero, zero_add, if_congr hpos rfl rfl]

theorem transform_ne_zero (hab : a < b) (h0 : P ≠ 0) : transform a b P ≠ 0 := by
  induction P using induction_on_realRoots with
  | zero => exact absurd rfl h0
  | rootless P h =>
    intro hzero
    have heval := isTransform_transform a b P 1 one_pos
    rw [hzero, eval_zero, eq_comm, mul_eq_zero] at heval
    exact heval.elim (by positivity) (h _)
  | linear_mul r P hP ih =>
    rw [transform_linear_mul a b r hP]
    exact mul_ne_zero (linear_ne_zero hab r) (ih hP)

/-- The positive roots of the transform are the roots in the interval. -/
theorem countP_roots_transform (hab : a < b) (h0 : P ≠ 0) :
    (transform a b P).roots.countP (0 < ·) = P.roots.countP fun x => a < x ∧ x < b := by
  induction P using induction_on_realRoots with
  | zero => exact absurd rfl h0
  | rootless P h =>
    rw [roots_of_rootless h, Multiset.countP_zero, Multiset.countP_eq_zero]
    intro t ht hpos
    have heval := isTransform_transform a b P t hpos
    rw [isRoot_of_mem_roots ht, eq_comm, mul_eq_zero] at heval
    exact heval.elim (by positivity) (h _)
  | linear_mul r P hP ih =>
    rw [countP_roots_linear_mul _ hP, transform_linear_mul a b r hP,
      roots_mul (mul_ne_zero (linear_ne_zero hab r) (transform_ne_zero hab hP)), Multiset.countP_add,
      countP_roots_linear hab, ih hP, add_comm]

namespace Univariate

variable {cs : List ℚ} {lo hi : ℚ}

theorem toReal_mobius (h0 : toPolynomial cs ≠ 0) (lo hi : ℚ) :
    toReal (mobius cs lo hi) = transform lo hi (toReal cs) :=
  (isTransform_mobius_natDegree h0 lo hi).unique (isTransform_transform lo hi (toReal cs))

/-- Descartes' bound is the number of roots in the open interval, with their multiplicities, and an even
number more. -/
theorem countP_roots_le_descartesBound (h0 : toPolynomial cs ≠ 0) (h : lo < hi) :
    (toReal cs).roots.countP (fun x => (lo : ℝ) < x ∧ x < hi) ≤ descartesBound cs lo hi ∧
      Even (descartesBound cs lo hi -
        (toReal cs).roots.countP fun x => (lo : ℝ) < x ∧ x < hi) := by
  have h : (lo : ℝ) < hi := Rat.cast_lt.2 h
  have hP := toReal_ne_zero_iff.2 h0
  have hQ : toReal (mobius cs lo hi) ≠ 0 := by
    rw [toReal_mobius h0]
    exact transform_ne_zero h hP
  have hle := countP_roots_toReal_le (mobius cs lo hi)
  have hparity := (even_signVariations_iff hQ).trans (even_countP_roots_iff hQ).symm
  rw [toReal_mobius h0, countP_roots_transform h hP, ← descartesBound] at hle hparity
  exact ⟨hle, (Nat.even_sub hle).2 hparity⟩

/-- A simple root at one end and a double root inside, `x * (x - 1) ^ 2` between zero and two. -/
theorem countP_roots_le_descartesBound_double_root :
    toPolynomial [0, 1, -2, 1] ≠ 0 ∧ (0 : ℚ) < 2 ∧ descartesBound [0, 1, -2, 1] 0 2 = 2 ∧
      (toReal [0, 1, -2, 1]).roots.countP (fun x => ((0 : ℚ) : ℝ) < x ∧ x < (2 : ℚ)) ≤
        descartesBound [0, 1, -2, 1] 0 2 ∧
      Even (descartesBound [0, 1, -2, 1] 0 2 -
        (toReal [0, 1, -2, 1]).roots.countP fun x => ((0 : ℚ) : ℝ) < x ∧ x < (2 : ℚ)) := by
  have h0 : toPolynomial [0, 1, -2, 1] ≠ 0 := fun h => by
    simpa using congrArg (Polynomial.coeff · 1) h
  exact ⟨h0, two_pos, by decide +kernel, countP_roots_le_descartesBound h0 two_pos⟩

end Univariate

end Cylindrical

end
