import Mathlib
import Cylindrical.Proofs.Poly.CanonicalGcd
import Cylindrical.Proofs.Poly.GaussLemma

/-!
# Canonical forms

In every monomial order a polynomial is a number times its canonical form, so polynomials have one
canonical form exactly if they are multiples of each other.  By Gauss's lemma products of canonical forms
are canonical, since leading coefficients multiply (`leadingCoeff_mul`): the canonical form of a product is
the product of the canonical forms (`canonical_mul`).
-/

noncomputable section

open MvPolynomial

namespace Cylindrical

namespace Poly

variable {p q : Poly}

theorem order_mul_of_ne_zero (hp : p.toMv ≠ 0) (hq : q.toMv ≠ 0) : (p * q).order = p.order := by
  change (Poly.mul p q).order = p.order
  rw [Poly.mul, isZero_eq_false_iff.2 hp, isZero_eq_false_iff.2 hq]
  rfl

theorem order_scale_of_ne_zero {c : ℚ} (hc : c ≠ 0) (p : Poly) : (p.scale c).order = p.order := by
  rw [scale, dif_neg hc]

theorem toMv_canonical_ne_zero (hp : p.toMv ≠ 0) : p.canonical.toMv ≠ 0 :=
  (associated_canonical p).ne_zero_iff.2 hp

/-! ## Multiples -/

theorem eq_scale_iff {c : ℚ} (hc : c ≠ 0) (ho : p.order = q.order) :
    q = p.scale c ↔ q.toMv = C c * p.toMv := by
  constructor
  · rintro rfl
    exact toMv_scale c p
  · intro h
    exact eq_of_toMv_eq (ho.symm.trans (order_scale_of_ne_zero hc p).symm)
      (h.trans (toMv_scale c p).symm)

theorem exists_eq_scale_of_associated (ho : p.order = q.order) (h : Associated p.toMv q.toMv) :
    ∃ c : ℚ, c ≠ 0 ∧ q = p.scale c := by
  obtain ⟨u, hu⟩ := h
  obtain ⟨c, hc, hcu⟩ := MvPolynomial.isUnit_iff_eq_C_of_isReduced.1 u.isUnit
  rw [hcu, mul_comm] at hu
  exact ⟨c, hc.ne_zero, (eq_scale_iff hc.ne_zero ho).2 hu.symm⟩

/-- Coprime integer coefficients and a positive leading one tell a polynomial apart from its
multiples, in every order. -/
theorem eq_of_leadingCoeff_pos (ho : p.order = q.order) (hp : CoprimeCoefficients p.toMv)
    (hq : CoprimeCoefficients q.toMv) (hp' : 0 < p.leadingCoeff) (hq' : 0 < q.leadingCoeff)
    (h : Associated p.toMv q.toMv) : p = q := by
  obtain ⟨c, hc, hscale⟩ := exists_eq_scale_of_associated ho h
  have hpos : 0 < c := by
    rw [hscale, leadingCoeff_scale hc] at hq'
    exact (mul_pos_iff_of_pos_right hp').1 hq'
  exact eq_of_toMv_eq ho (hq.eq_of_pos hp hpos ((eq_scale_iff hc ho).1 hscale)).symm

theorem eq_scale_canonicalFactor (p : Poly) : p = p.canonical.scale p.canonicalFactor :=
  (eq_scale_iff (canonicalFactor_ne_zero p) (order_canonical_eq p)).2 (toMv_canonical p)

theorem canonical_eq_iff (ho : p.order = q.order) :
    p.canonical = q.canonical ↔ ∃ c : ℚ, c ≠ 0 ∧ q = p.scale c := by
  constructor
  · intro h
    have hq : Associated p.canonical.toMv q.toMv := by
      rw [h]
      exact associated_canonical q
    exact exists_eq_scale_of_associated ho ((associated_canonical p).symm.trans hq)
  · rintro ⟨c, hc, hq⟩
    refine canonical_eq_of_associated ho ?_
    rw [(eq_scale_iff hc ho).1 hq]
    exact (associated_unit_mul_right _ _ ((isUnit_iff_ne_zero.2 hc).map C))

/-! ## Products -/

/-- The leading coefficient of a product of polynomials in one order. -/
theorem leadingCoeff_mul (ho : p.order = q.order) (hp : p.toMv ≠ 0) (hq : q.toMv ≠ 0) :
    (p * q).leadingCoeff = p.leadingCoeff * q.leadingCoeff := by
  obtain ⟨m, hm⟩ := exists_leads hp
  obtain ⟨n, hn⟩ := exists_leads hq
  have hpq : (p * q).toMv ≠ 0 := by
    rw [toMv_mul]
    exact mul_ne_zero hp hq
  obtain ⟨k, hk⟩ := exists_leads hpq
  rw [order_mul_of_ne_zero hp hq, toMv_mul] at hk
  exact (hk.unique (hm.mul (ho ▸ hn))).2

theorem canonical_mul (ho : p.order = q.order) (hp : p.toMv ≠ 0) (hq : q.toMv ≠ 0) :
    (p * q).canonical = p.canonical * q.canonical := by
  have hpq : (p * q).toMv ≠ 0 := by
    rw [toMv_mul]
    exact mul_ne_zero hp hq
  have hp' := toMv_canonical_ne_zero hp
  have hq' := toMv_canonical_ne_zero hq
  have ho' : p.canonical.order = q.canonical.order := by
    rw [order_canonical_eq, order_canonical_eq, ho]
  have hpq' : (p * q).canonical.order = (p.canonical * q.canonical).order := by
    rw [order_mul_of_ne_zero hp' hq', order_canonical_eq, order_canonical_eq,
      order_mul_of_ne_zero hp hq]
  have hassoc : Associated (p * q).canonical.toMv (p.canonical * q.canonical).toMv := by
    refine (associated_canonical (p * q)).trans ?_
    rw [toMv_mul, toMv_mul]
    exact ((associated_canonical p).mul_mul (associated_canonical q)).symm
  have hcoprime : CoprimeCoefficients (p.canonical * q.canonical).toMv := by
    rw [toMv_mul]
    exact (coprimeCoefficients_of_content hp' (content_canonical p)).mul
      (coprimeCoefficients_of_content hq' (content_canonical q))
  have hpos : 0 < (p.canonical * q.canonical).leadingCoeff := by
    rw [leadingCoeff_mul ho' hp' hq']
    exact mul_pos (leadingCoeff_canonical_pos hp) (leadingCoeff_canonical_pos hq)
  exact eq_of_leadingCoeff_pos hpq'
    (coprimeCoefficients_of_content (toMv_canonical_ne_zero hpq) (content_canonical (p * q)))
    hcoprime (leadingCoeff_canonical_pos hpq) hpos hassoc

/-- The polynomial `2/3 * x - 2/3 * y`, which in lexicographic order leads with a negative term. -/
def negativeLead : Poly := ((.ofPower 0 1 - .ofPower 1 1 : Poly).scale (2 / 3)).withOrder .lex

/-- The polynomial `-1/2 * x - 1/2` in lexicographic order. -/
def negativeSum : Poly := ((.ofPower 0 1 + .const 1 : Poly).scale (-1 / 2)).withOrder .lex

end Poly

end Cylindrical

end
