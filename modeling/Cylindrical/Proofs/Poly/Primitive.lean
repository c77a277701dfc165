import Mathlib
import Cylindrical.Proofs.Poly.Normal

/-!
# Polynomials that are primitive in a variable

A polynomial is primitive in `v` when no polynomial without `v` has a factor in common with it.  Every
polynomial is a polynomial without `v` times a primitive one (`exists_primitiveIn`), and a primitive
divisor of a product with a polynomial without `v` divides the other factor.
-/

noncomputable section

open MvPolynomial

namespace Cylindrical

/-! ## Variables of divisors -/

theorem vars_subset_of_dvd {P Q : MvPolynomial ℕ ℚ} (hQ : Q ≠ 0) (h : P ∣ Q) :
    P.vars ⊆ Q.vars := by
  obtain ⟨R, rfl⟩ := h
  intro v hv
  rw [mem_vars_iff_degreeOf_ne_zero] at hv ⊢
  rw [degreeOf_mul_eq (left_ne_zero_of_mul hQ) (right_ne_zero_of_mul hQ)]
  omega

theorem notMem_vars_of_isUnit {P : MvPolynomial ℕ ℚ} (h : IsUnit P) (v : ℕ) : v ∉ P.vars := by
  obtain ⟨c, -, rfl⟩ := isUnit_iff_eq_C_of_isReduced.1 h
  simp

/-- A polynomial as one in `v` with polynomial coefficients. -/
def openVar (v : ℕ) : MvPolynomial ℕ ℚ →ₐ[ℚ] Polynomial (MvPolynomial ℕ ℚ) := aeval (Poly.openAt v X)

theorem openVar_of_notMem {v : ℕ} {P : MvPolynomial ℕ ℚ} (h : v ∉ P.vars) :
    openVar v P = Polynomial.C P := by
  have hC : Polynomial.C P = aeval (fun w => Polynomial.C (X w)) P := by
    have := MvPolynomial.comp_aeval_apply X
      (Polynomial.CAlgHom (R := ℚ) (A := MvPolynomial ℕ ℚ)) P
    rw [aeval_X_left_apply] at this
    exact this
  rw [hC]
  exact eval₂Hom_congr' rfl (fun w hw _ => Poly.openAt_of_ne (fun he => h (by rwa [← he])) X) rfl

theorem coeff_openVar (v k : ℕ) (p : Poly) :
    (openVar v p.toMv).coeff k = (p.coeff v k).toMv :=
  (Poly.coeff_fiber v k X p).trans (Poly.value_X _)

theorem dvd_coeff {v : ℕ} {D : MvPolynomial ℕ ℚ} (hv : v ∉ D.vars) {p : Poly} (h : D ∣ p.toMv)
    (k : ℕ) : D ∣ (p.coeff v k).toMv := by
  obtain ⟨Q, hQ⟩ := h
  rw [← coeff_openVar, hQ, map_mul, openVar_of_notMem hv, Polynomial.coeff_C_mul]
  exact dvd_mul_right _ _

theorem dvd_of_forall_dvd_coeff {v : ℕ} {D : MvPolynomial ℕ ℚ} {p : Poly}
    (h : ∀ k, D ∣ (p.coeff v k).toMv) : D ∣ p.toMv := by
  rw [Poly.toMv_eq_sum_coeff v p]
  exact Finset.dvd_sum fun k _ => (h k).mul_right _

/-! ## Primitive polynomials -/

/-- Nothing without `v` has a factor in common with the polynomial. -/
def PrimitiveIn (v : ℕ) (P : MvPolynomial ℕ ℚ) : Prop :=
  ∀ c, c ≠ 0 → v ∉ c.vars → IsRelPrime P c

namespace PrimitiveIn

variable {v : ℕ} {P Q c : MvPolynomial ℕ ℚ}

theorem of_forall_isUnit (h : ∀ e, e ∣ P → v ∉ e.vars → IsUnit e) : PrimitiveIn v P :=
  fun _ hc hv _ heP hec => h _ heP fun he => hv (vars_subset_of_dvd hc hec he)

theorem of_isUnit (h : IsUnit P) : PrimitiveIn v P := fun _ _ _ => h.isRelPrime_left

theorem isUnit_of_notMem (h : PrimitiveIn v P) (hP : P ≠ 0) (hv : v ∉ P.vars) : IsUnit P :=
  h P hP hv dvd_rfl dvd_rfl

theorem of_dvd (h : PrimitiveIn v Q) (hd : P ∣ Q) : PrimitiveIn v P :=
  fun c hc hv => (h c hc hv).of_dvd_left hd

theorem of_prime (h : Prime P) (hv : v ∈ P.vars) : PrimitiveIn v P := fun _ hc hcv =>
  h.irreducible.isRelPrime_iff_not_dvd.2 fun hd => hcv (vars_subset_of_dvd hc hd hv)

theorem mul (hP : PrimitiveIn v P) (hQ : PrimitiveIn v Q) : PrimitiveIn v (P * Q) :=
  fun c hc hv => (hP c hc hv).mul_left (hQ c hc hv)

theorem dvd_of_dvd_mul (hP : PrimitiveIn v P) (hc : c ≠ 0) (hv : v ∉ c.vars) (h : P ∣ c * Q) :
    P ∣ Q :=
  (hP c hc hv).dvd_of_dvd_mul_left h

theorem dvd_of_dvd_mul_primitive (hQ : PrimitiveIn v Q) (hP : P ≠ 0) (hv : v ∉ P.vars)
    (h : P ∣ c * Q) : P ∣ c :=
  (hQ P hP hv).symm.dvd_of_dvd_mul_right h

end PrimitiveIn

/-- Every polynomial has a factor without `v` that leaves a primitive polynomial. -/
theorem exists_primitiveIn (v : ℕ) {P : MvPolynomial ℕ ℚ} (hP : P ≠ 0) :
    ∃ c Q, P = c * Q ∧ v ∉ c.vars ∧ PrimitiveIn v Q := by
  induction P using UniqueFactorizationMonoid.induction_on_prime with
  | h₁ => exact absurd rfl hP
  | h₂ u hu => exact ⟨u, 1, (mul_one u).symm, notMem_vars_of_isUnit hu v, .of_isUnit isUnit_one⟩
  | h₃ a p ha hp ih =>
    classical
    obtain ⟨c, Q, rfl, hc, hQ⟩ := ih ha
    by_cases hv : v ∈ p.vars
    · exact ⟨c, p * Q, by ring, hc, (PrimitiveIn.of_prime hp hv).mul hQ⟩
    · refine ⟨p * c, Q, by ring, fun h => ?_, hQ⟩
      rcases Finset.mem_union.1 (vars_mul p c h) with h | h
      · exact hv h
      · exact hc h

end Cylindrical

end
