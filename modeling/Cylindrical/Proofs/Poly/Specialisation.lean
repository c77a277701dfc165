import Mathlib
import Cylindrical.Proofs.Poly.SubresultantRows

/-!
# Numbers put in for other variables

Numbers for variables other than `v` go into the entries of the subresultant matrix.  Where a
polynomial keeps its degree in `v` the matrix keeps its shape; where one of them drops, the
determinant is that of the smaller matrix times a power of the leading coefficient of the other.
-/

noncomputable section

open MvPolynomial

namespace Cylindrical

/-- The polynomial with numbers in place of some variables. -/
def specialise (a : ℕ → Option ℚ) : MvPolynomial ℕ ℚ →ₐ[ℚ] MvPolynomial ℕ ℚ :=
  aeval fun w => (a w).elim (X w) C

variable {a : ℕ → Option ℚ} {v j : ℕ}

/-- Numbers for other variables go into the coefficients. -/
theorem openVar_specialise (hv : a v = none) (P : MvPolynomial ℕ ℚ) :
    openVar v (specialise a P) =
      (openVar v P).map (specialise a : MvPolynomial ℕ ℚ →+* MvPolynomial ℕ ℚ) := by
  have h : (openVar v).comp (specialise a) = (Polynomial.mapAlgHom (specialise a)).comp (openVar v) := by
    refine algHom_ext fun w => ?_
    rw [AlgHom.comp_apply, AlgHom.comp_apply, specialise, aeval_X, Polynomial.coe_mapAlgHom,
      openVar, aeval_X]
    by_cases hw : w = v
    · subst hw
      simp [hv]
    · cases hr : a w <;> simp [hw, hr]
  exact DFunLike.congr_fun h P

/-- A polynomial as one in `v`, with the variable put in again. -/
theorem eval_openVar (v : ℕ) (P : MvPolynomial ℕ ℚ) : (openVar v P).eval (X v) = P := by
  obtain ⟨p, -, rfl⟩ := exists_toMv_eq P
  refine (Poly.eval_fiber v X (X v) p).trans ?_
  rw [Function.update_eq_self, Poly.value_X]

namespace Poly

variable {p q p' q' : Poly}

theorem specialise_pscDet (hv : a v = none) (hp' : p'.toMv = specialise a p.toMv)
    (hq' : q'.toMv = specialise a q.toMv) (m n : ℕ) :
    specialise a (pscDet (openVar v p.toMv) (openVar v q.toMv) m n j) =
      pscDet (openVar v p'.toMv) (openVar v q'.toMv) m n j := by
  rw [hp', hq', openVar_specialise hv, openVar_specialise hv]
  exact (pscDet_map _).symm

/-- The degree in `v` does not grow. -/
theorem degreeOf_specialise_le (hv : a v = none) (hp' : p'.toMv = specialise a p.toMv) :
    p'.degreeOf v ≤ p.degreeOf v := by
  rw [← natDegree_openVar, ← natDegree_openVar, hp', openVar_specialise hv]
  exact Polynomial.natDegree_map_le

/-! ## Degrees that drop -/

section

variable (hv : a v = none) (hp : p.toMv ≠ 0) (hq : q.toMv ≠ 0)
  (hp' : p'.toMv = specialise a p.toMv) (hq' : q'.toMv = specialise a q.toMv)

include hv hp hq hp' hq'

/-- Only the degree of the first polynomial drops. -/
theorem exists_specialise_left (hp0 : p'.toMv ≠ 0) (hq0 : q'.toMv ≠ 0)
    (hn : q'.degreeOf v = q.degreeOf v) (hj : j ≤ min (p'.degreeOf v) (q.degreeOf v)) :
    ∃ d d', subresultantCoeff v j p q = .ok d ∧ subresultantCoeff v j p' q' = .ok d' ∧
      specialise a d.toMv =
        (-1) ^ ((q.degreeOf v - j) * (p.degreeOf v - p'.degreeOf v)) *
          (q'.leadingCoeffOf v).toMv ^ (p.degreeOf v - p'.degreeOf v) * d'.toMv := by
  have hle := degreeOf_specialise_le hv hp'
  obtain ⟨b, hb⟩ := Nat.exists_eq_add_of_le' (hj.trans (min_le_left _ _))
  obtain ⟨c, hc⟩ := Nat.exists_eq_add_of_le' (hj.trans (min_le_right _ _))
  obtain ⟨e, he⟩ := Nat.exists_eq_add_of_le hle
  obtain ⟨d, hd, hdet⟩ := returns_subresultantCoeff (a := c) (b := b + e) hp hq (by omega) hc
  obtain ⟨d', hd', hdet'⟩ := returns_subresultantCoeff hp0 hq0 hb (hn.trans hc)
  refine ⟨d, d', hd, hd', ?_⟩
  rw [hdet, specialise_pscDet hv hp' hq', pscDet_add_right (by rw [natDegree_openVar]; omega)
    (by rw [natDegree_openVar]; omega), coeff_openVar, ← hdet', leadingCoeffOf, hn, hc,
    show c + j - j = c by omega, show p.degreeOf v - p'.degreeOf v = e by omega]

/-- Only the degree of the second polynomial drops. -/
theorem exists_specialise_right (hp0 : p'.toMv ≠ 0) (hq0 : q'.toMv ≠ 0)
    (hm : p'.degreeOf v = p.degreeOf v) (hj : j ≤ min (p.degreeOf v) (q'.degreeOf v)) :
    ∃ d d', subresultantCoeff v j p q = .ok d ∧ subresultantCoeff v j p' q' = .ok d' ∧
      specialise a d.toMv =
        (p'.leadingCoeffOf v).toMv ^ (q.degreeOf v - q'.degreeOf v) * d'.toMv := by
  have hle := degreeOf_specialise_le hv hq'
  obtain ⟨b, hb⟩ := Nat.exists_eq_add_of_le' (hj.trans (min_le_left _ _))
  obtain ⟨c, hc⟩ := Nat.exists_eq_add_of_le' (hj.trans (min_le_right _ _))
  obtain ⟨e, he⟩ := Nat.exists_eq_add_of_le hle
  obtain ⟨d, hd, hdet⟩ := returns_subresultantCoeff (a := c + e) (b := b) hp hq hb (by omega)
  obtain ⟨d', hd', hdet'⟩ := returns_subresultantCoeff hp0 hq0 (hm.trans hb) hc
  refine ⟨d, d', hd, hd', ?_⟩
  rw [hdet, specialise_pscDet hv hp' hq', pscDet_add_left (by rw [natDegree_openVar]; omega)
    (by rw [natDegree_openVar]; omega), coeff_openVar, ← hdet', leadingCoeffOf, hm, hb,
    show q.degreeOf v - q'.degreeOf v = e by omega]

end

/-! ## Common roots -/

/-- The resultant is a combination of the two polynomials. -/
theorem exists_resultant_eq {r : Poly} (hp : 0 < p.degreeOf v) (hq : 0 < q.degreeOf v)
    (h : resultant v p q = .ok r) :
    ∃ U W : Polynomial (MvPolynomial ℕ ℚ),
      Polynomial.C r.toMv = U * openVar v p.toMv + W * openVar v q.toMv := by
  have hr := (returns_subresultantCoeff (j := 0) (ne_zero_of_degreeOf_pos hp)
    (ne_zero_of_degreeOf_pos hq) rfl rfl).of_ok h
  obtain ⟨U, W, -, -, hS⟩ := exists_subresultantPoly_eq (k := 0) (P := openVar v p.toMv)
    (Q := openVar v q.toMv) (natDegree_openVar v p).le (natDegree_openVar v q).le
    (Nat.add_pos_left hq _)
  refine ⟨U, W, ?_⟩
  rw [← hS, hr, subresultantPoly, Finset.sum_range_one, subresultantEntry_self, pow_zero, mul_one]

section

variable {r : Poly} (hv : a v = none) (hp : 0 < p.degreeOf v) (hq : 0 < q.degreeOf v)
  (hp' : p'.toMv = specialise a p.toMv) (hq' : q'.toMv = specialise a q.toMv)
  (hr : resultant v p q = .ok r)

include hv hp hq hp' hq' hr

/-- A common root of the specialised polynomials, in any ring, is a zero of the resultant. -/
theorem map_specialise_resultant {B : Type*} [CommRing B] (f : MvPolynomial ℕ ℚ →+* B) (y : B)
    (hpy : (openVar v p'.toMv).eval₂ f y = 0) (hqy : (openVar v q'.toMv).eval₂ f y = 0) :
    f (specialise a r.toMv) = 0 := by
  obtain ⟨U, W, hUW⟩ := exists_resultant_eq hp hq hr
  have hmap := congrArg (Polynomial.map (specialise a : MvPolynomial ℕ ℚ →+* MvPolynomial ℕ ℚ)) hUW
  rw [Polynomial.map_C, Polynomial.map_add, Polynomial.map_mul, Polynomial.map_mul,
    ← openVar_specialise hv, ← openVar_specialise hv, ← hp', ← hq'] at hmap
  have heval := congrArg (Polynomial.eval₂ f y) hmap
  rwa [Polynomial.eval₂_C, Polynomial.eval₂_add, Polynomial.eval₂_mul, Polynomial.eval₂_mul, hpy,
    hqy, mul_zero, mul_zero, add_zero] at heval

end

end Poly

end Cylindrical

end
