import Mathlib
import Cylindrical.Proofs.Poly.Canonical
import Cylindrical.Proofs.Poly.Leading

/-!
# Products of canonical forms

A polynomial over the integers that is not divisible by a prime number stays so in products, since
prime numbers are prime polynomials (`CoprimeCoefficients.mul`).  So a product of canonical forms has
coprime integer coefficients and a positive leading one again, and these two tell it apart from its
multiples (`eq_of_associated`).
-/

noncomputable section

open MvPolynomial

namespace Cylindrical

variable {P Q : MvPolynomial ℕ ℚ} {c : ℚ}

/-! ## Coprime integer coefficients -/

/-- The coefficients are integers that have no prime factor in common. -/
def CoprimeCoefficients (P : MvPolynomial ℕ ℚ) : Prop :=
  ∃ R : MvPolynomial ℕ ℤ, map (Int.castRingHom ℚ) R = P ∧ ∀ n : ℤ, Prime n → ¬C n ∣ R

namespace CoprimeCoefficients

theorem one : CoprimeCoefficients 1 :=
  ⟨1, map_one _, fun _ hn h => ((prime_C_iff ℕ).2 hn).not_isUnit (isUnit_of_dvd_one h)⟩

/-- Gauss's lemma. -/
theorem mul (hP : CoprimeCoefficients P) (hQ : CoprimeCoefficients Q) :
    CoprimeCoefficients (P * Q) := by
  obtain ⟨R, rfl, hR⟩ := hP
  obtain ⟨S, rfl, hS⟩ := hQ
  refine ⟨R * S, map_mul _ R S, fun n hn h => ?_⟩
  exact (((prime_C_iff ℕ).2 hn).dvd_or_dvd h).elim (hR n hn) (hS n hn)

theorem pow (hP : CoprimeCoefficients P) (k : ℕ) : CoprimeCoefficients (P ^ k) := by
  induction k with
  | zero => exact pow_zero P ▸ one
  | succ k ih => exact pow_succ P k ▸ ih.mul hP

theorem X (v : ℕ) : CoprimeCoefficients (X v) := by
  refine ⟨MvPolynomial.X v, map_X _ v, fun n hn h => hn.not_isUnit (isUnit_of_dvd_one ?_)⟩
  have hcoeff := (C_dvd_iff_dvd_coeff n _).1 h (Finsupp.single v 1)
  rwa [coeff_X, if_pos rfl] at hcoeff

/-- When no prime number divides `R`, the prime factors of a multiple `C b * R` are those of `b`. -/
theorem natAbs_eq_one {a b : ℤ} {R S : MvPolynomial ℕ ℤ} (hab : IsCoprime a b)
    (hR : ∀ n : ℤ, Prime n → ¬C n ∣ R) (h : C b * R = C a * S) : a.natAbs = 1 := by
  by_contra ha
  obtain ⟨n, hn, hna⟩ := Int.exists_prime_and_dvd ha
  have hdvd : C n ∣ C b * R := h ▸ (map_dvd C hna).mul_right S
  rcases ((prime_C_iff ℕ).2 hn).dvd_or_dvd hdvd with hb | hdvd
  · have hnb := (C_dvd_iff_dvd_coeff n _).1 hb 0
    rw [coeff_C, if_pos rfl] at hnb
    exact hn.not_isUnit (hab.isUnit_of_dvd' hna hnb)
  · exact hR n hn hdvd

/-- Such polynomials are positive multiples of each other only if they are equal. -/
theorem eq_of_pos (hP : CoprimeCoefficients P) (hQ : CoprimeCoefficients Q) (hc : 0 < c)
    (h : P = C c * Q) : P = Q := by
  obtain ⟨R, rfl, hR⟩ := hP
  obtain ⟨S, rfl, hS⟩ := hQ
  have heq : C (c.den : ℤ) * R = C c.num * S := by
    refine map_injective (Int.castRingHom ℚ) Int.cast_injective ?_
    rw [map_mul, map_mul, map_C, map_C, h, ← mul_assoc, ← C_mul, eq_intCast, eq_intCast,
      Int.cast_natCast, Rat.den_mul_eq_num]
  have hcoprime : IsCoprime c.num (c.den : ℤ) := Int.isCoprime_iff_gcd_eq_one.2 c.reduced
  have hnum := natAbs_eq_one hcoprime hR heq
  have hden := natAbs_eq_one hcoprime.symm hS heq.symm
  have hone : c = 1 := by
    rw [← abs_of_pos hc, Rat.abs_def, hnum, ← Int.natAbs_natCast c.den, hden]
    rfl
  rw [h, hone, C_1, one_mul]

end CoprimeCoefficients

/-- With positive leading coefficients they are equal if they divide each other. -/
theorem eq_of_associated (hP : CoprimeCoefficients P) (hQ : CoprimeCoefficients Q)
    (hP' : LeadsPositive P) (hQ' : LeadsPositive Q) (h : Associated P Q) : P = Q := by
  obtain ⟨c, hc, heq⟩ := hP'.exists_pos_of_associated hQ' h
  exact hP.eq_of_pos hQ hc heq

/-! ## Canonical forms -/

namespace Poly

variable {p q : Poly}

theorem coprimeCoefficients_of_content (hp : p.toMv ≠ 0) (h : p.content = 1) :
    CoprimeCoefficients p.toMv := by
  have hz := isZero_eq_false_iff.2 hp
  have hint : ∀ m, ∃ n : ℤ, MvPolynomial.coeff m p.toMv = n := fun m => by
    by_cases hm : m ∈ p.toMv.support
    · obtain ⟨t, ht, rfl⟩ := mem_support_toMv.1 hm
      rw [coeff_toMv ht]
      exact ⟨_, ((Rat.den_eq_one_iff _).1 (den_coeff_of_content h ht)).symm⟩
    · exact ⟨0, by rw [MvPolynomial.notMem_support_iff.1 hm, Int.cast_zero]⟩
  obtain ⟨R, hR⟩ : p.toMv ∈ Set.range (map (Int.castRingHom ℚ)) := by
    refine mem_range_map_iff_coeffs_subset.2 fun c hc => ?_
    obtain ⟨m, -, rfl⟩ := mem_coeffs_iff.1 hc
    obtain ⟨n, hn⟩ := hint m
    exact ⟨n, hn.symm⟩
  refine ⟨R, hR, fun n hn hdvd => ?_⟩
  have hall : ∀ t ∈ p.terms, n.natAbs ∣ t.coeff.num.natAbs := fun t ht => by
    have hcoeff : ((MvPolynomial.coeff t.monomial.toFinsupp R : ℤ) : ℚ) = t.coeff := by
      rw [← coeff_toMv ht, ← hR, coeff_map, eq_intCast]
    rw [← hcoeff, Rat.num_intCast, Int.natAbs_dvd_natAbs]
    exact (C_dvd_iff_dvd_coeff n R).1 hdvd _
  have hone := Nat.dvd_one.1 (numerators_of_content hz h ▸ dvd_numerators_iff.2 hall)
  exact hn.not_isUnit (Int.isUnit_iff_natAbs_eq.2 hone)

/-- A polynomial in normal form. -/
structure IsCanonical (p : Poly) : Prop where
  order : p.order = .grLex
  ne_zero : p.toMv ≠ 0
  canonical : p.canonical = p

namespace IsCanonical

theorem of_canonical (ho : p.order = .grLex) (h0 : p.toMv ≠ 0) : IsCanonical p.canonical where
  order := order_canonical ho
  ne_zero := (associated_canonical p).ne_zero_iff.2 h0
  canonical := canonical_canonical p

theorem coprimeCoefficients (h : IsCanonical p) : CoprimeCoefficients p.toMv :=
  coprimeCoefficients_of_content h.ne_zero (h.canonical ▸ content_canonical p)

theorem leadsPositive (h : IsCanonical p) : LeadsPositive p.toMv :=
  h.canonical ▸ leadsPositive_canonical h.order h.ne_zero

end IsCanonical

/-- Coprime integer coefficients and a positive leading one make a normal form. -/
theorem isCanonical_of (ho : p.order = .grLex) (hp : CoprimeCoefficients p.toMv)
    (hp' : LeadsPositive p.toMv) : IsCanonical p := by
  have h0 := hp'.ne_zero
  have hcanonical := IsCanonical.of_canonical ho h0
  refine ⟨ho, h0, eq_of_toMv_eq (hcanonical.order.trans ho.symm) ?_⟩
  exact eq_of_associated hcanonical.coprimeCoefficients hp hcanonical.leadsPositive hp'
    (associated_canonical p)

/-- An exact quotient of normal forms is one. -/
theorem IsCanonical.quotient (hp : IsCanonical p) (hq : IsCanonical q) {r : Poly}
    (ho : r.order = .grLex) (h : p.toMv = r.toMv * q.toMv) : IsCanonical r := by
  have hr0 : r.toMv ≠ 0 := left_ne_zero_of_mul (h ▸ hp.ne_zero)
  have hr := IsCanonical.of_canonical ho hr0
  have hassoc : Associated (r.canonical.toMv * q.toMv) (r.toMv * q.toMv) :=
    (associated_canonical r).mul_right _
  rw [← h] at hassoc
  have heq := eq_of_associated (hr.coprimeCoefficients.mul hq.coprimeCoefficients)
    hp.coprimeCoefficients (hr.leadsPositive.mul hq.leadsPositive) hp.leadsPositive hassoc
  rw [h] at heq
  exact ⟨ho, hr0, eq_of_toMv_eq (hr.order.trans ho.symm) (mul_right_cancel₀ hq.ne_zero heq)⟩

end Poly

end Cylindrical

end
