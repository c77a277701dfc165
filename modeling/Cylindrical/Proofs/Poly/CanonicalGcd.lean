import Mathlib
import Cylindrical.Proofs.Poly.Canonical
import Cylindrical.Proofs.Poly.GcdTotal

/-!
# The greatest common divisor is canonical

Polynomials with content one that are multiples of each other differ in the sign at most, and the sign
of the leading coefficient settles it: polynomials that divide each other have one canonical form
(`Poly.canonical_eq_of_associated`).  Greatest common divisors are canonical forms on every path of
their computation, so the result does not depend on the order of the two polynomials
(`Poly.gcd_greatest`).
-/

noncomputable section

open MvPolynomial

namespace Cylindrical

namespace Poly

variable {p q g : Poly}

/-! ## One canonical form -/

/-- A factor between polynomials with content one is an integer. -/
theorem den_of_toMv_eq {c : ℚ} (ho : p.order = q.order) (hz : q.isZero = false)
    (hp : p.content = 1) (hq : q.content = 1) (hc : c ≠ 0) (h : p.toMv = C c * q.toMv) :
    c.den = 1 := by
  have hscale : p = q.scale c :=
    eq_of_toMv_eq (by rw [scale, dif_neg hc, ho]) (by rw [h, toMv_scale])
  refine den_of_forall_den_mul hz hq fun t ht =>
    den_coeff_of_content hp (t := ⟨_, t.monomial⟩) ?_
  rw [hscale, scale, dif_neg hc]
  exact List.mem_map.2 ⟨t, ht, rfl⟩

/-- Two polynomials with content one that are multiples of each other differ in the sign at most. -/
theorem abs_eq_one_of_toMv_eq {c : ℚ} (ho : p.order = q.order) (hz : q.isZero = false)
    (hp : p.content = 1) (hq : q.content = 1) (hc : c ≠ 0) (h : p.toMv = C c * q.toMv) :
    |c| = 1 := by
  have h' : q.toMv = C c⁻¹ * p.toMv := by
    rw [h, ← mul_assoc, ← C_mul, inv_mul_cancel₀ hc, C_1, one_mul]
  have hz' : p.isZero = false := by
    rw [isZero_eq_false_iff] at hz ⊢
    rw [h]
    exact mul_ne_zero (by rwa [Ne, C_eq_zero]) hz
  have h₁ := den_of_toMv_eq ho hz hp hq hc h
  -- the reciprocal is an integer as well
  have h₂ := den_of_toMv_eq ho.symm hz' hq hp (inv_ne_zero hc) h'
  rw [Rat.den_inv_of_ne_zero hc] at h₂
  rw [Rat.abs_def, h₁, h₂]
  rfl

theorem order_canonical_eq (p : Poly) : p.canonical.order = p.order := by
  have hprim : p.primitive.order = p.order := by
    rw [primitive]
    split_ifs
    · rfl
    · rw [scale, dif_neg (inv_ne_zero (content_pos p).ne')]
  rw [canonical]
  split_ifs
  · exact hprim
  · exact hprim

theorem leadingCoeff_canonical_pos (hp : p.toMv ≠ 0) : 0 < p.canonical.leadingCoeff :=
  lt_of_le_of_ne (not_lt.1 (not_leadingCoeff_canonical_neg p))
    (leadingCoeff_ne_zero ((associated_canonical p).ne_zero_iff.2 hp)).symm

/-- Polynomials that divide each other have one canonical form. -/
theorem canonical_eq_of_associated (ho : p.order = q.order) (h : Associated p.toMv q.toMv) :
    p.canonical = q.canonical := by
  have ho' : p.canonical.order = q.canonical.order := by
    rw [order_canonical_eq, order_canonical_eq, ho]
  have hassoc : Associated p.canonical.toMv q.canonical.toMv :=
    (associated_canonical p).trans (h.trans (associated_canonical q).symm)
  refine eq_of_toMv_eq ho' ?_
  by_cases hq : q.toMv = 0
  · have hq0 := (associated_canonical q).eq_zero_iff.2 hq
    rw [hq0, hassoc.eq_zero_iff.2 hq0]
  have hp : p.toMv ≠ 0 := h.ne_zero_iff.2 hq
  obtain ⟨u, hu⟩ := hassoc.symm
  obtain ⟨c, hc, hcu⟩ := MvPolynomial.isUnit_iff_eq_C_of_isReduced.1 u.isUnit
  rw [hcu, mul_comm] at hu
  have hz : q.canonical.isZero = false :=
    isZero_eq_false_iff.2 ((associated_canonical q).ne_zero_iff.2 hq)
  have habs := abs_eq_one_of_toMv_eq ho' hz (content_canonical p) (content_canonical q) hc.ne_zero
    hu.symm
  have hpos : 0 < c := by
    have hscale : p.canonical = q.canonical.scale c :=
      eq_of_toMv_eq (by rw [scale, dif_neg hc.ne_zero, ho']) (by rw [← hu, toMv_scale])
    have hlead := leadingCoeff_canonical_pos hp
    rw [hscale, leadingCoeff_scale hc.ne_zero] at hlead
    exact (mul_pos_iff_of_pos_right (leadingCoeff_canonical_pos hq)).1 hlead
  rw [← hu, (abs_of_pos hpos).symm.trans habs, C_1, one_mul]

/-! ## Results are canonical -/

theorem canonical_of_gcdInVar {gcd : Poly → Poly → Algebra Poly} {v : ℕ}
    (h : gcdInVar gcd v p q = .ok g) : g.canonical = g := by
  obtain ⟨cp, -, h⟩ := bind_eq_ok h
  obtain ⟨cq, -, h⟩ := bind_eq_ok h
  obtain ⟨pp, -, h⟩ := bind_eq_ok h
  obtain ⟨pq, -, h⟩ := bind_eq_ok h
  obtain ⟨c, -, h⟩ := bind_eq_ok h
  split_ifs at h
  all_goals
    obtain ⟨k, -, h⟩ := bind_eq_ok h
    obtain ⟨w, -, h⟩ := bind_eq_ok h
    obtain rfl := Except.ok.inj h
    exact canonical_canonical _

theorem canonical_of_gcdUpTo {n : ℕ} (h : gcdUpTo n p q = .ok g) : g.canonical = g := by
  have hone : (1 : Poly).canonical = 1 := by decide +kernel
  induction n generalizing p q with
  | zero =>
    obtain rfl := Except.ok.inj h
    exact hone
  | succ n ih =>
    rw [gcdUpTo] at h
    split_ifs at h
    · obtain rfl := Except.ok.inj h
      exact canonical_canonical q
    · obtain rfl := Except.ok.inj h
      exact canonical_canonical p
    · split at h
      · dsimp only at h
        split_ifs at h
        · obtain ⟨c, -, h⟩ := bind_eq_ok h
          exact ih h
        · obtain ⟨c, -, h⟩ := bind_eq_ok h
          exact ih h
        · exact canonical_of_gcdInVar h
      · obtain rfl := Except.ok.inj h
        exact hone

end Poly

end Cylindrical

end
