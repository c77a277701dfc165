import Mathlib
import Cylindrical.Proofs.Poly.CanonicalGcd
import Cylindrical.Proofs.Poly.Factorization
import Cylindrical.Proofs.Poly.SubresultantRows

/-!
# Subresultants and the greatest common divisor

Over the polynomials in the other variables, the first principal subresultant coefficient that does
not vanish is at the degree of the greatest common divisor, and the subresultant there is the
greatest common divisor up to a factor without the variable.  The remainder sequence and the
determinants so find the same primitive polynomial (`Poly.subresultants_detect_gcd`).
-/

noncomputable section

open MvPolynomial

namespace Cylindrical

/-! ## One variable over the others -/

/-- A polynomial as one in `v` over the polynomials in the other variables. -/
def isolateVar (v : ℕ) : MvPolynomial ℕ ℚ ≃ₐ[ℚ] Polynomial (MvPolynomial {w // w ≠ v} ℚ) :=
  (renameEquiv ℚ (Equiv.optionSubtypeNe v).symm).trans (optionEquivLeft ℚ _)

/-- The inclusion of the polynomials in the other variables. -/
def includeOthers (v : ℕ) : MvPolynomial {w // w ≠ v} ℚ →+* MvPolynomial ℕ ℚ :=
  (rename Subtype.val : MvPolynomial {w // w ≠ v} ℚ →ₐ[ℚ] MvPolynomial ℕ ℚ)

variable {v : ℕ} {P Q : MvPolynomial ℕ ℚ}

theorem natDegree_isolateVar (v : ℕ) (P : MvPolynomial ℕ ℚ) :
    (isolateVar v P).natDegree = degreeOf v P := (degreeOf_eq_natDegree v P).symm

theorem includeOthers_injective (v : ℕ) : Function.Injective (includeOthers v) :=
  rename_injective _ Subtype.val_injective

theorem map_isolateVar (v : ℕ) (P : MvPolynomial ℕ ℚ) :
    (isolateVar v P).map (includeOthers v) = openVar v P := by
  have h : (Polynomial.mapAlgHom (rename Subtype.val)).comp (isolateVar v).toAlgHom = openVar v := by
    refine algHom_ext fun w => ?_
    by_cases hw : w = v
    · subst hw
      simp [isolateVar, openVar]
    · simp [isolateVar, openVar, hw]
  exact DFunLike.congr_fun h P

theorem isRelPrime_isolateVar (h : IsRelPrime P Q) :
    IsRelPrime (isolateVar v P) (isolateVar v Q) := fun D hP hQ => by
  have hdvd : ∀ {R : MvPolynomial ℕ ℚ}, D ∣ isolateVar v R → (isolateVar v).symm D ∣ R := fun hR => by
    simpa using map_dvd (isolateVar v).symm hR
  simpa using (h (hdvd hP) (hdvd hQ)).map (isolateVar v)

namespace Poly

variable {j k a b : ℕ} {p q g : Poly}

theorem natDegree_isolateVar_toMv (v : ℕ) (p : Poly) :
    (isolateVar v p.toMv).natDegree = p.degreeOf v := by
  rw [natDegree_isolateVar, degreeOf_eq]

/-! ## What is computed, over the polynomials in the other variables -/

section

variable (hp0 : p.toMv ≠ 0) (hq0 : q.toMv ≠ 0)

include hp0 hq0

theorem returns_subresultantCoeff_isolateVar (hp : p.degreeOf v = b + j)
    (hq : q.degreeOf v = a + j) : Returns (subresultantCoeff v j p q) fun d =>
      d.toMv = includeOthers v (pscDet (isolateVar v p.toMv) (isolateVar v q.toMv) a b j) :=
  (returns_subresultantCoeff hp0 hq0 hp hq).mono fun d hd => by
    rw [hd, ← map_isolateVar, ← map_isolateVar, pscDet_map]

theorem returns_subresultant_isolateVar (ha : 0 < a) (hb : 0 < b) (hp : p.degreeOf v = b + k)
    (hq : q.degreeOf v = a + k) : Returns (subresultant v k p q) fun s => s.order = .grLex ∧
      isolateVar v s.toMv =
        subresultantPoly (isolateVar v p.toMv) (isolateVar v q.toMv) a b k := by
  refine (returns_subresultant hp0 hq0 ha hb hp hq).mono fun s hs => ⟨hs.1, ?_⟩
  refine Polynomial.map_injective _ (includeOthers_injective v) ?_
  rw [map_isolateVar, hs.2, ← map_isolateVar, ← map_isolateVar, subresultantPoly_map]

end

/-! ## The greatest common divisor -/

/-- Two polynomials over their greatest common divisor are coprime. -/
theorem IsGcd.exists_cofactors (h : IsGcd g p q) (hp0 : p.toMv ≠ 0) :
    ∃ P Q, isolateVar v p.toMv = isolateVar v g.toMv * P ∧
      isolateVar v q.toMv = isolateVar v g.toMv * Q ∧ IsRelPrime P Q := by
  obtain ⟨P, hP⟩ := h.dvd_left
  obtain ⟨Q, hQ⟩ := h.dvd_right
  refine ⟨isolateVar v P, isolateVar v Q, by rw [hP, map_mul], by rw [hQ, map_mul],
    isRelPrime_isolateVar fun d hdP hdQ => ?_⟩
  have hdvd : g.toMv * d ∣ g.toMv :=
    (h _).2 ⟨hP ▸ mul_dvd_mul_left _ hdP, hQ ▸ mul_dvd_mul_left _ hdQ⟩
  refine isUnit_of_dvd_one ((mul_dvd_mul_iff_left (h.ne_zero_of_left hp0)).1 ?_)
  rwa [mul_one]

theorem IsGcd.degreeOf_le (h : IsGcd g p q) (hp0 : p.toMv ≠ 0) : g.degreeOf v ≤ p.degreeOf v := by
  rw [← natDegree_isolateVar_toMv, ← natDegree_isolateVar_toMv]
  exact Polynomial.natDegree_le_of_dvd (map_dvd _ h.dvd_left) (by simpa using hp0)

section

variable (hp0 : p.toMv ≠ 0) (hq0 : q.toMv ≠ 0) (hgcd : IsGcd g p q)

include hp0 hq0 hgcd

/-- The first coefficient that does not vanish is at the degree of the greatest common divisor. -/
theorem isLeast_subresultantCoeff :
    IsLeast {j | ∃ d, subresultantCoeff v j p q = .ok d ∧ d.isZero = false} (g.degreeOf v) := by
  have hle := hgcd.degreeOf_le (v := v) hp0
  have hle' := hgcd.symm.degreeOf_le (v := v) hq0
  have hP0 : isolateVar v p.toMv ≠ 0 := by simpa using hp0
  constructor
  · obtain ⟨b, hb⟩ := Nat.exists_eq_add_of_le' hle
    obtain ⟨a, ha⟩ := Nat.exists_eq_add_of_le' hle'
    obtain ⟨d, hd, hdet⟩ := returns_subresultantCoeff_isolateVar hp0 hq0 hb ha
    rw [← natDegree_isolateVar_toMv] at ha hb
    obtain ⟨P, Q, hP, hQ, hrel⟩ := hgcd.exists_cofactors (v := v) hp0
    rw [hP] at hP0 hb hdet
    rw [hQ] at ha hdet
    have hdet0 := pscDet_ne_zero hb ha hP0 hrel (natDegree_isolateVar_toMv v g)
    refine ⟨d, hd, isZero_eq_false_iff.2 ?_⟩
    rwa [hdet, Ne, map_eq_zero_iff _ (includeOthers_injective v)]
  · rintro j ⟨d, hd, hd0⟩
    by_contra hj
    have hj := not_le.1 hj
    obtain ⟨b, hb⟩ := Nat.exists_eq_add_of_le' (hj.le.trans hle)
    obtain ⟨a, ha⟩ := Nat.exists_eq_add_of_le' (hj.le.trans hle')
    have hdet := (returns_subresultantCoeff_isolateVar hp0 hq0 hb ha).of_ok hd
    rw [← natDegree_isolateVar_toMv] at ha hb hj
    rw [pscDet_eq_zero_of_lt hb ha hP0 (map_dvd _ hgcd.dvd_left) (map_dvd _ hgcd.dvd_right) hj,
      map_zero] at hdet
    exact isZero_eq_false_iff.1 hd0 hdet

/-- The subresultant at that degree is the greatest common divisor times a factor without the
variable. -/
theorem exists_subresultant_eq_mul {s : Poly} (hs : subresultant v (g.degreeOf v) p q = .ok s)
    (hp : g.degreeOf v < p.degreeOf v) (hq : g.degreeOf v < q.degreeOf v) :
    ∃ c, c ≠ 0 ∧ v ∉ c.vars ∧ s.toMv = g.toMv * c := by
  have hP0 : isolateVar v p.toMv ≠ 0 := by simpa using hp0
  obtain ⟨b, hb⟩ := Nat.exists_eq_add_of_le' hp.le
  obtain ⟨a, ha⟩ := Nat.exists_eq_add_of_le' hq.le
  have hS := ((returns_subresultant_isolateVar hp0 hq0 (by omega) (by omega) hb ha).of_ok hs).2
  have hab : 0 < a + b := by omega
  rw [← natDegree_isolateVar_toMv] at ha hb
  obtain ⟨P, Q, hP, hQ, hrel⟩ := hgcd.exists_cofactors (v := v) hp0
  rw [hP] at hP0 hb hS
  rw [hQ] at ha hS
  obtain ⟨t, ht0, ht⟩ :=
    exists_subresultantPoly_eq_mul hb ha hP0 hrel (natDegree_isolateVar_toMv v g) hab
  refine ⟨(isolateVar v).symm (Polynomial.C t), by simpa using ht0, ?_, ?_⟩
  · rw [mem_vars_iff_degreeOf_ne_zero, not_not, ← natDegree_isolateVar, AlgEquiv.apply_symm_apply,
      Polynomial.natDegree_C]
  · refine (isolateVar v).injective ?_
    rw [hS, ht, map_mul, AlgEquiv.apply_symm_apply]

end

/-! ## Combinations -/

theorem degreeOf_lt_of_isolateVar {n : ℕ} {u : Poly}
    {U : Polynomial (MvPolynomial {w // w ≠ v} ℚ)} (hu : u.toMv = (isolateVar v).symm U)
    (hn : 0 < n) (hU : U.degree < n) : u.degreeOf v < n := by
  rw [← natDegree_isolateVar_toMv, hu, AlgEquiv.apply_symm_apply]
  by_cases hU0 : U = 0
  · rwa [hU0, Polynomial.natDegree_zero]
  · exact (Polynomial.natDegree_lt_iff_degree_lt hU0).2 hU

/-- A subresultant is a combination of the two polynomials with factors of low degree. -/
theorem exists_subresultant_eq_add {s : Poly} (hs : subresultant v k p q = .ok s)
    (hp : k < p.degreeOf v) (hq : k < q.degreeOf v) :
    s.degreeOf v ≤ k ∧ ∃ u w : Poly, s.toMv = (u * p + w * q).toMv ∧
      u.degreeOf v < q.degreeOf v - k ∧ w.degreeOf v < p.degreeOf v - k := by
  have hp0 := ne_zero_of_degreeOf_pos (Nat.zero_lt_of_lt hp)
  have hq0 := ne_zero_of_degreeOf_pos (Nat.zero_lt_of_lt hq)
  obtain ⟨b, hb⟩ := Nat.exists_eq_add_of_le' hp.le
  obtain ⟨a, ha⟩ := Nat.exists_eq_add_of_le' hq.le
  rw [ha, hb, Nat.add_sub_cancel, Nat.add_sub_cancel]
  have hS := ((returns_subresultant_isolateVar hp0 hq0 (by omega) (by omega) hb ha).of_ok hs).2
  constructor
  · rw [← natDegree_isolateVar_toMv, hS]
    exact natDegree_subresultantPoly_le _ _ a b k
  · have ha0 : 0 < a := by omega
    have hb0 : 0 < b := by omega
    rw [← natDegree_isolateVar_toMv] at ha hb
    obtain ⟨U, W, hU, hW, hUW⟩ := exists_subresultantPoly_eq hb.le ha.le (by omega)
    obtain ⟨u, -, hu⟩ := exists_toMv_eq ((isolateVar v).symm U)
    obtain ⟨w, -, hw⟩ := exists_toMv_eq ((isolateVar v).symm W)
    refine ⟨u, w, (isolateVar v).injective ?_, degreeOf_lt_of_isolateVar hu ha0 hU,
      degreeOf_lt_of_isolateVar hw hb0 hW⟩
    rw [hS, hUW, toMv_add, toMv_mul, toMv_mul, hu, hw, map_add, map_mul, map_mul,
      AlgEquiv.apply_symm_apply, AlgEquiv.apply_symm_apply]

/-! ## Primitive parts -/

/-- Polynomials that differ in a factor without the variable have one primitive part. -/
theorem exists_primitivePartIn_of_eq_mul {s : Poly} {c : MvPolynomial ℕ ℚ}
    (hso : s.order = .grLex) (hgo : g.order = .grLex) (hg0 : g.toMv ≠ 0) (hc0 : c ≠ 0)
    (hc : v ∉ c.vars) (h : s.toMv = g.toMv * c) :
    ∃ t, s.primitivePartIn v = .ok t ∧ g.primitivePartIn v = .ok t := by
  classical
  obtain ⟨t, ht, hto, htc, htp, d, hd0, hd, hst⟩ :=
    returns_primitivePartIn (v := v) hso (h ▸ mul_ne_zero hg0 hc0)
  obtain ⟨t', ht', hto', htc', htp', e, he0, he, hgt⟩ := returns_primitivePartIn (v := v) hgo hg0
  have hassoc : Associated t.toMv t'.toMv := by
    have heq : d * t.toMv = e * c * t'.toMv := by
      rw [← hst, h, hgt]
      ring
    have hec : v ∉ (e * c).vars := fun hv => (Finset.mem_union.1 (vars_mul _ _ hv)).elim he hc
    exact associated_of_dvd_dvd (htp.dvd_of_dvd_mul (mul_ne_zero he0 hc0) hec ⟨d, by rw [← heq, mul_comm]⟩)
      (htp'.dvd_of_dvd_mul hd0 hd ⟨e * c, by rw [heq, mul_comm]⟩)
  refine ⟨t, ht, ?_⟩
  rw [ht', ← htc, ← htc', canonical_eq_of_associated (hto.trans hto'.symm) hassoc]

end Poly

end Cylindrical

end
