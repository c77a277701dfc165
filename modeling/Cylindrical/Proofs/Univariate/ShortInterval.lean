import Mathlib
import Cylindrical.Proofs.Univariate.Degree
import Cylindrical.Proofs.Univariate.LogConcave
import Cylindrical.Proofs.Univariate.Mobius

/-!
# Descartes' bound on short intervals

When all complex roots are at least as far from the midpoint of an interval as the interval is long,
the transform of each factor has log-concave coefficients (`exists_logConcave_transform`).  One more
real root adds one change of sign at most, so on an interval that is at most half as long as the
distance of any two roots Descartes' bound is zero or one (`descartesBound_le_one`).
-/

noncomputable section

open Polynomial

namespace Cylindrical

variable {a b r u v : ℝ}

/-! ## Transforms of factors -/

theorem isTransform_linear (a b r : ℝ) :
    IsTransform a b 1 (X - C r) (C (a - r) + C (b - r) * X) := fun t ht => by
  have h0 : 1 + t ≠ 0 := by positivity
  simp only [eval_add, eval_sub, eval_mul, eval_C, eval_X]
  field_simp
  ring

theorem isTransform_quadratic (a b u v : ℝ) :
    IsTransform a b 2 (X ^ 2 - C (2 * u) * X + C (u ^ 2 + v ^ 2))
      (C ((a - u) ^ 2 + v ^ 2) + C (2 * ((a - u) * (b - u) + v ^ 2)) * X +
        C ((b - u) ^ 2 + v ^ 2) * X ^ 2) := fun t ht => by
  have h0 : 1 + t ≠ 0 := by positivity
  simp only [eval_add, eval_sub, eval_mul, eval_pow, eval_C, eval_X]
  field_simp
  ring

theorem natDegree_conjugates (u v : ℝ) :
    (X ^ 2 - C (2 * u) * X + C (u ^ 2 + v ^ 2)).natDegree = 2 := by
  have hq : X ^ 2 - C (2 * u) * X + C (u ^ 2 + v ^ 2) =
      C 1 * X ^ 2 + C (-(2 * u)) * X + C (u ^ 2 + v ^ 2) := by
    simp only [C_1, C_neg]
    ring
  rw [hq, natDegree_quadratic one_ne_zero]

/-- A root far from the midpoint is outside the interval. -/
theorem endpoints_of_far (hab : a < b) (h : b - a ≤ |r - (a + b) / 2|) : r < a ∨ b < r := by
  rcases abs_cases (r - (a + b) / 2) with ⟨heq, -⟩ | ⟨heq, -⟩
  · right
    linarith
  · left
    linarith

/-- The transform of a conjugate pair of roots far from the midpoint has its own roots in the sector of
sixty degrees around the negative axis. -/
theorem sector_of_far (h : (b - a) ^ 2 ≤ (u - (a + b) / 2) ^ 2 + v ^ 2) :
    0 ≤ (a - u) * (b - u) + v ^ 2 ∧
      ((a - u) ^ 2 + v ^ 2) * ((b - u) ^ 2 + v ^ 2) ≤ (2 * ((a - u) * (b - u) + v ^ 2)) ^ 2 := by
  obtain ⟨w, hw⟩ : ∃ w, w = b - a := ⟨_, rfl⟩
  obtain ⟨s, hs⟩ : ∃ s, s = u - (a + b) / 2 := ⟨_, rfl⟩
  obtain rfl : a = u - s - w / 2 := by linarith
  obtain rfl : b = u - s + w / 2 := by linarith
  rw [← hw, ← hs] at h
  have hproduct : (u - s - w / 2 - u) * (u - s + w / 2 - u) + v ^ 2 = s ^ 2 + v ^ 2 - w ^ 2 / 4 := by
    ring
  have hmiddle : s ^ 2 + v ^ 2 + w ^ 2 / 4 ≤ 2 * (s ^ 2 + v ^ 2 - w ^ 2 / 4) := by
    have := sq_nonneg w
    linarith
  have houter : 0 ≤ s ^ 2 + v ^ 2 + w ^ 2 / 4 := by positivity
  rw [hproduct]
  refine ⟨by linarith, ?_⟩
  calc _ = (s ^ 2 + v ^ 2 + w ^ 2 / 4) ^ 2 - (w * s) ^ 2 := by ring
    _ ≤ (s ^ 2 + v ^ 2 + w ^ 2 / 4) ^ 2 := sub_le_self _ (sq_nonneg _)
    _ ≤ (2 * (s ^ 2 + v ^ 2 - w ^ 2 / 4)) ^ 2 := pow_le_pow_left₀ houter hmiddle 2

/-! ## Transforms of polynomials -/

/-- Up to a constant, the transform of the polynomial has log-concave coefficients. -/
def HasLogConcaveTransform (a b : ℝ) (P : ℝ[X]) : Prop :=
  ∃ c R, LogConcave R ∧ IsTransform a b P.natDegree P (C c * R)

namespace HasLogConcaveTransform

variable {P : ℝ[X]}

theorem const (a b c : ℝ) : HasLogConcaveTransform a b (C c) :=
  ⟨c, 1, .one, by simpa using IsTransform.C a b c⟩

/-- The factor of a real root outside the interval. -/
theorem linear_mul (h : HasLogConcaveTransform a b P) (h0 : P ≠ 0) (hab : a < b)
    (hr : r < a ∨ b < r) : HasLogConcaveTransform a b ((X - C r) * P) := by
  obtain ⟨c, R, hR, ht⟩ := h
  have ht := (isTransform_linear a b r).mul ht
  rw [HasLogConcaveTransform, natDegree_mul (X_sub_C_ne_zero r) h0, natDegree_X_sub_C]
  rcases hr with hr | hr
  · refine ⟨c, _, hR.linear_mul (c := a - r) (d := b - r) (by linarith) (by linarith), ?_⟩
    convert ht using 1
    ring
  · refine ⟨-c, _, hR.linear_mul (c := r - a) (d := r - b) (by linarith) (by linarith), ?_⟩
    convert ht using 1
    simp only [C_sub, C_neg]
    ring

/-- The factor of a conjugate pair far from the midpoint. -/
theorem quadratic_mul (h : HasLogConcaveTransform a b P) (h0 : P ≠ 0)
    (hfar : (b - a) ^ 2 ≤ (u - (a + b) / 2) ^ 2 + v ^ 2) :
    HasLogConcaveTransform a b ((X ^ 2 - C (2 * u) * X + C (u ^ 2 + v ^ 2)) * P) := by
  obtain ⟨c, R, hR, ht⟩ := h
  have hdegree := natDegree_conjugates u v
  have hne : X ^ 2 - C (2 * u) * X + C (u ^ 2 + v ^ 2) ≠ 0 := fun h => by
    rw [h, natDegree_zero] at hdegree
    omega
  obtain ⟨hmiddle, hsector⟩ := sector_of_far hfar
  refine ⟨c, _, hR.quadratic_mul (by positivity) (by positivity) (by positivity) hsector, ?_⟩
  rw [natDegree_mul hne h0, hdegree]
  convert (isTransform_quadratic a b u v).mul ht using 1
  ring

end HasLogConcaveTransform

/-- Roots that are all far from the midpoint leave no change of sign. -/
theorem exists_logConcave_transform (hab : a < b) {P : ℝ[X]} (h0 : P ≠ 0)
    (hfar : ∀ z : ℂ, aeval z P = 0 → b - a ≤ ‖z - ((a + b) / 2 : ℝ)‖) :
    HasLogConcaveTransform a b P := by
  induction hn : P.natDegree using Nat.strong_induction_on generalizing P with
  | h n ih =>
    -- either there is no root, or the factor of one root or of a conjugate pair splits off
    by_cases hdegree : P.degree = 0
    · rw [eq_C_of_degree_eq_zero hdegree]
      exact .const a b _
    obtain ⟨z, hz⟩ := IsAlgClosed.exists_aeval_eq_zero ℂ P hdegree
    have hquotient : ∀ F Q : ℝ[X], P = F * Q → 0 < F.natDegree →
        HasLogConcaveTransform a b Q ∧ Q ≠ 0 := by
      rintro F Q rfl hF
      have hQ : Q ≠ 0 := right_ne_zero_of_mul h0
      rw [natDegree_mul (left_ne_zero_of_mul h0) hQ] at hn
      exact ⟨ih Q.natDegree (by omega) hQ (fun w hw => hfar w (by rw [map_mul, hw, mul_zero])) rfl, hQ⟩
    have hfar := hfar z hz
    by_cases him : z.im = 0
    · obtain ⟨r, rfl⟩ : ∃ r : ℝ, z = r := ⟨z.re, Complex.ext rfl him⟩
      rw [← Complex.ofReal_sub, Complex.norm_real] at hfar
      have hroot : P.IsRoot r := (aeval_algebraMap_eq_zero_iff ℂ r P).1 hz
      obtain ⟨Q, hQ⟩ := dvd_iff_isRoot.2 hroot
      obtain ⟨hQt, hQ0⟩ := hquotient _ Q hQ (by rw [natDegree_X_sub_C]; omega)
      rw [hQ]
      exact hQt.linear_mul hQ0 hab (endpoints_of_far hab hfar)
    · obtain ⟨Q, hQ⟩ := quadratic_dvd_of_aeval_eq_zero_im_ne_zero P hz him
      rw [Complex.sq_norm, Complex.normSq_apply, ← sq, ← sq] at hQ
      obtain ⟨hQt, hQ0⟩ := hquotient _ Q hQ (by rw [natDegree_conjugates]; omega)
      rw [hQ]
      refine hQt.quadratic_mul hQ0 ?_
      have hfar := pow_le_pow_left₀ (sub_pos.2 hab).le hfar 2
      rwa [Complex.sq_norm, Complex.normSq_apply, ← sq, ← sq, Complex.sub_re, Complex.sub_im,
        Complex.ofReal_re, Complex.ofReal_im, sub_zero] at hfar

/-! ## The bound -/

namespace Univariate

variable {cs : List ℚ}

/-- The transform of the list belongs to the degree of the polynomial. -/
theorem isTransform_mobius_natDegree (h0 : toPolynomial cs ≠ 0) (a b : ℚ) :
    IsTransform a b (toReal cs).natDegree (toReal cs) (toReal (mobius cs a b)) := by
  rw [natDegree_toReal h0]
  exact isTransform_mobius (trim_ne_nil h0) a b

/-- A complex root nearer to a real number than half its distance to any other root is real. -/
theorem exists_ofReal_eq {P : ℝ[X]} {z : ℂ} {m w : ℝ} (hz : aeval z P = 0) (hnear : ‖z - m‖ < w)
    (hsep : ∀ y : ℂ, aeval y P = 0 → z ≠ y → 2 * w ≤ ‖z - y‖) : ∃ r : ℝ, z = r := by
  suffices h : (starRingEnd ℂ) z = z from (Complex.conj_eq_iff_real.1 h)
  by_contra hne
  have hfar := hsep _ (by rw [aeval_conj, hz, map_zero]) (Ne.symm hne)
  have hconj : ‖(m : ℂ) - (starRingEnd ℂ) z‖ = ‖z - m‖ := by
    rw [← Complex.norm_conj, map_sub, Complex.conj_conj, Complex.conj_ofReal, norm_sub_rev]
  have htri := norm_sub_le_norm_sub_add_norm_sub z (m : ℂ) ((starRingEnd ℂ) z)
  linarith

/-- On an interval at most half as long as the distance of any two roots the bound is exact. -/
theorem descartesBound_le_one {a b : ℚ} (hcs : Squarefree (toPolynomial cs)) (hab : a < b)
    (hsep : ∀ z w : ℂ, aeval z (toReal cs) = 0 → aeval w (toReal cs) = 0 → z ≠ w →
      2 * ((b : ℝ) - a) ≤ ‖z - w‖) : descartesBound cs a b ≤ 1 := by
  have h0 := hcs.ne_zero
  have hP0 := toReal_ne_zero_iff.2 h0
  have hab : (a : ℝ) < b := Rat.cast_lt.2 hab
  have ht := isTransform_mobius_natDegree h0 a b
  by_cases hfar : ∀ z : ℂ, aeval z (toReal cs) = 0 → (b : ℝ) - a ≤ ‖z - ((a + b) / 2 : ℝ)‖
  · obtain ⟨c, R, hR, hR'⟩ := exists_logConcave_transform hab hP0 hfar
    refine signVariations_le_one_of_linear_mul (c := c) (d := 0) hR ?_
    rw [ht.unique hR', C_0, zero_mul, add_zero]
  push Not at hfar
  obtain ⟨z, hz, hnear⟩ := hfar
  -- the one root near the midpoint is real, and all others are far
  obtain ⟨r, rfl⟩ := exists_ofReal_eq hz hnear fun y hy => hsep z y hz hy
  obtain ⟨Q, hQ, hrQ⟩ := exists_eq_mul_of_squarefree (squarefree_toReal hcs)
    ((aeval_algebraMap_eq_zero_iff ℂ r _).1 hz)
  have hQ0 : Q ≠ 0 := fun h => hP0 (by rw [hQ, h, mul_zero])
  obtain ⟨c, R, hR, hR'⟩ := exists_logConcave_transform hab hQ0 fun y hy => by
    have hroot : aeval y (toReal cs) = 0 := by rw [hQ, map_mul, hy, mul_zero]
    have hne : (r : ℂ) ≠ y := by
      rintro rfl
      exact hrQ ((aeval_algebraMap_eq_zero_iff ℂ r Q).1 hy)
    have hdist := hsep r y hz hroot hne
    have htri := norm_sub_le_norm_sub_add_norm_sub (r : ℂ) ((a + b) / 2 : ℝ) y
    rw [norm_sub_rev y]
    linarith
  refine signVariations_le_one_of_linear_mul (c := c * (a - r)) (d := c * (b - r)) hR ?_
  have hproduct := (isTransform_linear a b r).mul hR'
  rw [← natDegree_X_sub_C r, ← natDegree_mul (X_sub_C_ne_zero r) hQ0, ← hQ] at hproduct
  rw [ht.unique hproduct]
  simp only [C_mul]
  ring

end Univariate

end Cylindrical

end
