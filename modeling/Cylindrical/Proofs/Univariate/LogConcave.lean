import Mathlib
import Cylindrical.Proofs.Univariate.SignVariations

/-!
# Log-concave coefficients

The coefficients of a polynomial are log-concave when products `rᵢ * rⱼ` do not increase as the
indices move apart.  Linear factors with nonnegative coefficients keep that, and so do quadratic ones
`c + b * x + a * x ^ 2` with `c * a ≤ b ^ 2`, whose roots lie in the sector of sixty degrees to both
sides of the negative real axis.  A linear factor with coefficients of any signs then leads to one
change of sign at most (`signVariations_le_one_of_linear_mul`).
-/

noncomputable section

open Polynomial

namespace Cylindrical

/-! ## Coefficients at all integers -/

/-- The coefficient, zero at negative indices. -/
def coeffAt (P : ℝ[X]) (k : ℤ) : ℝ := if 0 ≤ k then P.coeff k.toNat else 0

section

variable (P Q : ℝ[X]) (c : ℝ) (k : ℤ)

theorem coeffAt_natCast (n : ℕ) : coeffAt P n = P.coeff n := by simp [coeffAt]

theorem coeffAt_add : coeffAt (P + Q) k = coeffAt P k + coeffAt Q k := by
  unfold coeffAt
  split_ifs <;> simp

theorem coeffAt_C_mul : coeffAt (C c * P) k = c * coeffAt P k := by
  unfold coeffAt
  split_ifs <;> simp

theorem coeffAt_X_mul : coeffAt (X * P) k = coeffAt P (k - 1) := by
  unfold coeffAt
  split_ifs with h₁ h₂ h₂
  · rw [show k.toNat = (k - 1).toNat + 1 by omega, coeff_X_mul]
  · rw [show k = 0 by omega, Int.toNat_zero, coeff_X_mul_zero]
  · omega
  · rfl

theorem coeffAt_linear_mul (d : ℝ) : coeffAt ((C c + C d * X) * P) k =
    c * coeffAt P k + d * coeffAt P (k - 1) := by
  rw [add_mul, mul_assoc, coeffAt_add, coeffAt_C_mul, coeffAt_C_mul, coeffAt_X_mul]

theorem coeffAt_quadratic_mul (b a : ℝ) : coeffAt ((C c + C b * X + C a * X ^ 2) * P) k =
    c * coeffAt P k + b * coeffAt P (k - 1) + a * coeffAt P (k - 2) := by
  have hsplit : (C c + C b * X + C a * X ^ 2) * P =
      (C c + C b * X) * P + C a * (X * (X * P)) := by ring
  rw [hsplit, coeffAt_add, coeffAt_linear_mul, coeffAt_C_mul, coeffAt_X_mul, coeffAt_X_mul,
    sub_sub, one_add_one_eq_two]

end

/-! ## Log-concavity -/

/-- The coefficients are not negative, and products of two of them do not increase as the indices move
apart. -/
structure LogConcave (P : ℝ[X]) : Prop where
  nonneg : ∀ k, 0 ≤ coeffAt P k
  step : ∀ i j, i ≤ j → coeffAt P (i - 1) * coeffAt P (j + 1) ≤ coeffAt P i * coeffAt P j

namespace LogConcave

variable {P : ℝ[X]} {a b c d : ℝ}

theorem one : LogConcave 1 where
  nonneg k := by
    unfold coeffAt
    split_ifs
    · rw [coeff_one]
      split_ifs <;> norm_num
    · exact le_rfl
  step i j hij := by
    have hone : ∀ k : ℤ, k ≠ 0 → coeffAt 1 k = 0 := fun k hk => by
      unfold coeffAt
      split_ifs
      · rw [coeff_one, if_neg (by omega)]
      · rfl
    by_cases hi : i = 1
    · rw [hone (j + 1) (by omega), hone i (by omega), mul_zero, zero_mul]
    · rw [hone (i - 1) (by omega), zero_mul]
      by_cases h0 : i = 0 ∧ j = 0
      · rw [h0.1, h0.2]
        exact mul_self_nonneg _
      · by_cases hi : i = 0
        · rw [hone j (by omega), mul_zero]
        · rw [hone i hi, zero_mul]

/-- Products with the same sum of indices decrease from the middle to both sides. -/
theorem spread (h : LogConcave P) {i j k l : ℤ} (hij : k ≤ i) (hkj : k ≤ j) (hsum : i + j = k + l) :
    coeffAt P k * coeffAt P l ≤ coeffAt P i * coeffAt P j := by
  wlog hle : i ≤ j generalizing i j
  · rw [mul_comm (coeffAt P i)]
    exact this hkj hij (by omega) (by omega)
  obtain ⟨n, hn⟩ : ∃ n : ℕ, i = k + n := ⟨(i - k).toNat, by omega⟩
  induction n generalizing k l with
  | zero =>
    obtain rfl : k = i := by omega
    obtain rfl : l = j := by omega
    exact le_rfl
  | succ n ih =>
    have hstep := h.step (k + 1) (l - 1) (by omega)
    rw [add_sub_cancel_right, sub_add_cancel] at hstep
    exact hstep.trans (ih (by omega) (by omega) (by omega) (by omega))

/-- Linear factors without a positive root. -/
theorem linear_mul (h : LogConcave P) (hc : 0 ≤ c) (hd : 0 ≤ d) :
    LogConcave ((C c + C d * X) * P) where
  nonneg k := by
    rw [coeffAt_linear_mul]
    have := h.nonneg k
    have := h.nonneg (k - 1)
    positivity
  step i j hij := by
    simp only [coeffAt_linear_mul, sub_sub, one_add_one_eq_two, add_sub_cancel_right]
    have hcc := mul_le_mul_of_nonneg_left
      (h.spread (i := i) (j := j) (k := i - 1) (l := j + 1) (by omega) (by omega) (by omega))
      (mul_nonneg hc hc)
    have hdd := mul_le_mul_of_nonneg_left
      (h.spread (i := i - 1) (j := j - 1) (k := i - 2) (l := j) (by omega) (by omega) (by omega))
      (mul_nonneg hd hd)
    have hcd := mul_le_mul_of_nonneg_left
      (h.spread (i := i) (j := j - 1) (k := i - 2) (l := j + 1) (by omega) (by omega) (by omega))
      (mul_nonneg hc hd)
    linarith

/-- Next to each other the square of the middle coefficient makes up for the outer ones. -/
theorem middle_le (h : LogConcave P) {a b c : ℝ} (hc : 0 ≤ c) (ha : 0 ≤ a) (hsector : c * a ≤ b ^ 2)
    {i j : ℤ} (hij : i ≤ j) :
    c * a * (coeffAt P (i - 1) * coeffAt P (j - 1)) + b ^ 2 * (coeffAt P (i - 2) * coeffAt P j) ≤
      c * a * (coeffAt P i * coeffAt P (j - 2)) +
        b ^ 2 * (coeffAt P (i - 1) * coeffAt P (j - 1)) := by
  have hbb := h.spread (i := i - 1) (j := j - 1) (k := i - 2) (l := j)
    (by omega) (by omega) (by omega)
  rcases hij.eq_or_lt with rfl | hlt
  · nlinarith [mul_le_mul_of_nonneg_right hsector (sub_nonneg.2 hbb)]
  · have houter := h.spread (i := i) (j := j - 2) (k := i - 1) (l := j - 1)
      (by omega) (by omega) (by omega)
    have h₁ := mul_le_mul_of_nonneg_left houter (mul_nonneg hc ha)
    have h₂ := mul_le_mul_of_nonneg_left hbb (sq_nonneg b)
    linarith

/-- Quadratic factors with roots in the sector of sixty degrees around the negative axis. -/
theorem quadratic_mul (h : LogConcave P) (hc : 0 ≤ c) (hb : 0 ≤ b) (ha : 0 ≤ a)
    (hsector : c * a ≤ b ^ 2) : LogConcave ((C c + C b * X + C a * X ^ 2) * P) where
  nonneg k := by
    rw [coeffAt_quadratic_mul]
    have := h.nonneg k
    have := h.nonneg (k - 1)
    have := h.nonneg (k - 2)
    positivity
  step i j hij := by
    simp only [coeffAt_quadratic_mul, sub_sub, one_add_one_eq_two, add_sub_cancel_right,
      show (1 : ℤ) + 2 = 3 by norm_num, show j + 1 - 2 = j - 1 by ring]
    have hcc := mul_le_mul_of_nonneg_left
      (h.spread (i := i) (j := j) (k := i - 1) (l := j + 1) (by omega) (by omega) (by omega))
      (mul_nonneg hc hc)
    have haa := mul_le_mul_of_nonneg_left
      (h.spread (i := i - 2) (j := j - 2) (k := i - 3) (l := j - 1) (by omega) (by omega) (by omega))
      (mul_nonneg ha ha)
    have hba := mul_le_mul_of_nonneg_left
      (h.spread (i := i - 1) (j := j - 2) (k := i - 3) (l := j) (by omega) (by omega) (by omega))
      (mul_nonneg hb ha)
    have hcb := mul_le_mul_of_nonneg_left
      (h.spread (i := i) (j := j - 1) (k := i - 2) (l := j + 1) (by omega) (by omega) (by omega))
      (mul_nonneg hc hb)
    have hca := mul_le_mul_of_nonneg_left
      (h.spread (i := i - 2) (j := j) (k := i - 3) (l := j + 1) (by omega) (by omega) (by omega))
      (mul_nonneg hc ha)
    have hmiddle := h.middle_le hc ha hsector hij
    linarith

/-! ## Changes of sign -/

/-- Where the earlier of two coefficients outweighs the later one, it does so from there on. -/
theorem mul_le_mul_of_lt (h : LogConcave P) (hc : 0 ≤ c) (hd : 0 ≤ d) {i j : ℕ} (hij : i < j)
    (hlt : c * coeffAt P i < d * coeffAt P (i - 1)) :
    c * coeffAt P j ≤ d * coeffAt P (j - 1) := by
  by_contra! hj
  have hproduct := mul_lt_mul'' hlt hj (mul_nonneg hc (h.nonneg _)) (mul_nonneg hd (h.nonneg _))
  have hspread : coeffAt P (i - 1) * coeffAt P j ≤ coeffAt P i * coeffAt P (j - 1) :=
    h.spread (by omega) (by omega) (by omega)
  have := mul_le_mul_of_nonneg_left hspread (mul_nonneg hc hd)
  linarith

/-- With one more linear factor, a positive coefficient is followed by positive ones only, or a negative
one by negative ones. -/
theorem linear_mul_signs (h : LogConcave P) (c d : ℝ) :
    (∀ i j : ℕ, i < j → 0 < ((C c + C d * X) * P).coeff i → 0 ≤ ((C c + C d * X) * P).coeff j) ∨
      ∀ i j : ℕ, i < j → ((C c + C d * X) * P).coeff i < 0 →
        ((C c + C d * X) * P).coeff j ≤ 0 := by
  simp only [← coeffAt_natCast, coeffAt_linear_mul]
  rcases le_total 0 c with hc | hc <;> rcases le_total 0 d with hd | hd
  · refine .inl fun i j _ _ => ?_
    have := h.nonneg j
    have := h.nonneg (j - 1)
    positivity
  · refine .inr fun i j hij hi => ?_
    have := h.mul_le_mul_of_lt hc (neg_nonneg.2 hd) hij (by linarith)
    linarith
  · refine .inl fun i j hij hi => ?_
    have := h.mul_le_mul_of_lt (neg_nonneg.2 hc) hd hij (by linarith)
    linarith
  · refine .inr fun i j _ _ => ?_
    have := mul_nonneg (neg_nonneg.2 hc) (h.nonneg j)
    have := mul_nonneg (neg_nonneg.2 hd) (h.nonneg (j - 1))
    linarith

end LogConcave

namespace Univariate

/-- A list that is the product of a linear polynomial and a log-concave one has at most one change of
sign. -/
theorem signVariations_le_one_of_linear_mul {cs : List ℚ} {P : ℝ[X]} {c d : ℝ} (hP : LogConcave P)
    (h : toReal cs = (C c + C d * X) * P) : signVariations cs ≤ 1 := by
  rcases hP.linear_mul_signs c d with hsigns | hsigns
  · refine signVariations_le_one (s := .gt) (by decide) (List.pairwise_iff_getElem.2 ?_)
    intro i j hi hj hij hgt hne
    have hnonneg := hsigns i j hij
    rw [← h, coeff_toReal_of_getElem hi, coeff_toReal_of_getElem hj, Rat.cast_pos,
      Rat.cast_nonneg] at hnonneg
    rw [compareZero_eq_gt_iff] at hgt ⊢
    exact lt_of_le_of_ne (hnonneg hgt) hne.symm
  · refine signVariations_le_one (s := .lt) (by decide) (List.pairwise_iff_getElem.2 ?_)
    intro i j hi hj hij hlt hne
    have hnonpos := hsigns i j hij
    rw [← h, coeff_toReal_of_getElem hi, coeff_toReal_of_getElem hj, Rat.cast_lt_zero,
      Rat.cast_nonpos] at hnonpos
    rw [compareZero_eq_lt_iff] at hlt ⊢
    exact lt_of_le_of_ne (hnonpos hlt) hne

end Univariate

end Cylindrical

end
