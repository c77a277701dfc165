import Mathlib
import Cylindrical.Poly.Division
import Cylindrical.Proofs.Poly.Value

/-!
# Exact division and pseudo-division

A quotient that is found is one (`toMv_of_divExact?`).  A pseudo-remainder is the dividend times a
power of the leading coefficient, up to a multiple of the divisor, and has a smaller degree than the
divisor.
-/

noncomputable section

open MvPolynomial

namespace Cylindrical

/-! ## Exact division -/

theorem sumOf_of_divideTerms? {o : MonomialOrder} {lead : Term} {d : List Term} {steps : ℕ}
    {ts qs : List Term} (h : divideTerms? o lead d steps ts = some qs) :
    sumOf ts = sumOf qs * sumOf d := by
  fun_induction divideTerms? o lead d steps ts generalizing qs with
  | case1 => simp_all
  | case2 => simp at h
  | case3 => simp at h
  | case4 steps t ts m _ q rest =>
    rename_i ih
    obtain ⟨rs, hrs, rfl⟩ := Option.map_eq_some_iff.1 h
    have hrest : sumOf rest = sumOf (t :: ts) - q.toMv * sumOf d := by
      have hneg : (⟨-q.coeff, m⟩ : Term).toMv = -q.toMv := by
        simp [Term.toMv, q]
      rw [sumOf_addTerms, sumOf_mulTerm, hneg, neg_mul, ← sub_eq_add_neg]
    rw [sumOf_cons q, add_mul, ← ih hrs, hrest]
    ring

namespace Poly

theorem toMv_of_divExact? {p d q : Poly} (h : p.divExact? d = some q) :
    d.toMv ≠ 0 ∧ p.toMv = q.toMv * d.toMv := by
  rw [divExact?] at h
  split_ifs at h with hz
  · obtain rfl := Option.some.inj h
    simp only [Bool.and_eq_true, Bool.not_eq_true'] at hz
    exact ⟨isZero_eq_false_iff.1 hz.2, by simp [toMv_eq_zero_of_isZero hz.1]⟩
  · have hd : d.toMv = sumOf (d.withOrder p.order).terms := (toMv_withOrder _ d).symm
    cases hts : (d.withOrder p.order).terms with
    | nil => simp [hts] at h
    | cons lead ds =>
      have hlead := (d.withOrder p.order).valid.nonzero lead (hts ▸ .head _)
      have hd0 : d.toMv ≠ 0 := by
        rw [← toMv_withOrder p.order, ← isZero_eq_false_iff, isZero, hts]
        rfl
      refine ⟨hd0, ?_⟩
      rw [hts] at h hd
      simp only at h
      split_ifs at h with hu
      · obtain rfl := Option.some.inj h
        simp only [Bool.and_eq_true, List.isEmpty_iff] at hu
        rw [hd, hu.1, sumOf_cons, sumOf_nil, add_zero, Term.toMv, (Monomial.isUnit_iff _).1 hu.2,
          toMv_scale, mul_comm, ← mul_assoc, monomial_zero', ← C_mul, mul_inv_cancel₀ hlead, C_1,
          one_mul]
      · obtain ⟨qs, hqs, rfl⟩ := Option.map_eq_some_iff.1 h
        rw [toMv_ofTerms, hd]
        exact sumOf_of_divideTerms? hqs

theorem toMv_of_exactQuotient {p d q : Poly} (h : p.exactQuotient d = .ok q) :
    d.toMv ≠ 0 ∧ p.toMv = q.toMv * d.toMv := by
  rw [exactQuotient] at h
  split at h
  · rename_i r hr
    obtain rfl := Except.ok.inj h
    exact toMv_of_divExact? hr
  · cases h

/-! ## Pseudo-division -/

theorem degreeOf_of_notMem_vars {v : ℕ} {P : MvPolynomial ℕ ℚ} (h : v ∉ P.vars) :
    P.degreeOf v = 0 := by
  rw [mem_vars_iff_degreeOf_ne_zero] at h
  simpa using h

/-- The leading powers of `v` cancel. -/
theorem degreeOf_cancel_lt {v : ℕ} {r d : Poly} (hd : 0 < d.degreeOf v)
    (hle : d.degreeOf v ≤ r.degreeOf v) :
    MvPolynomial.degreeOf v (r.toMv * (d.leadingCoeffOf v).toMv -
      (r.leadingCoeffOf v).toMv * d.toMv * X v ^ (r.degreeOf v - d.degreeOf v)) < r.degreeOf v := by
  have hr := toMv_reductum_add v r
  have hs := toMv_reductum_add v d
  have hr' := degreeOf_reductum_lt (hd.trans_le hle)
  have hs' := degreeOf_reductum_lt hd
  have hX : (X v : MvPolynomial ℕ ℚ) ^ d.degreeOf v * X v ^ (r.degreeOf v - d.degreeOf v) =
      X v ^ r.degreeOf v := by
    rw [← pow_add]
    congr 1
    omega
  have hc : ∀ p : Poly, MvPolynomial.degreeOf v (p.leadingCoeffOf v).toMv = 0 := fun p =>
    degreeOf_of_notMem_vars (notMem_vars_leadingCoeffOf v p)
  have heq : r.toMv * (d.leadingCoeffOf v).toMv -
      (r.leadingCoeffOf v).toMv * d.toMv * X v ^ (r.degreeOf v - d.degreeOf v) =
      (r.reductum v).toMv * (d.leadingCoeffOf v).toMv -
      (r.leadingCoeffOf v).toMv *
        ((d.reductum v).toMv * X v ^ (r.degreeOf v - d.degreeOf v)) := by
    conv_lhs => rw [hr, hs]
    linear_combination (-(r.leadingCoeffOf v).toMv * (d.leadingCoeffOf v).toMv) * hX
  rw [heq]
  refine (degreeOf_sub_le _ _ _).trans_lt (max_lt ?_ ?_)
  · refine (degreeOf_mul_le _ _ _).trans_lt ?_
    rwa [hc, add_zero, ← degreeOf_eq]
  · refine (degreeOf_mul_le _ _ _).trans_lt ?_
    rw [hc, zero_add]
    refine (degreeOf_mul_le _ _ _).trans_lt ?_
    rw [degreeOf_X_self_pow, ← degreeOf_eq]
    omega

theorem toMv_pseudoReduce (v : ℕ) (d lc : Poly) (n steps : ℕ) (r : Poly) :
    ∃ q : MvPolynomial ℕ ℚ,
      (pseudoReduce v d lc n steps r).toMv = lc.toMv ^ steps * r.toMv - q * d.toMv := by
  induction steps generalizing r with
  | zero => exact ⟨0, by simp [pseudoReduce]⟩
  | succ steps ih =>
    rw [pseudoReduce]
    split_ifs
    · exact ⟨0, by simp [mul_comm]⟩
    · obtain ⟨q, hq⟩ := ih
        (r * lc - (r.leadingCoeffOf v * d).mulMonomial (.ofPower v (r.degreeOf v - n)))
      refine ⟨q + lc.toMv ^ steps * ((r.leadingCoeffOf v).toMv *
        MvPolynomial.monomial (Monomial.ofPower v (r.degreeOf v - n)).toFinsupp 1), ?_⟩
      rw [hq, toMv_sub, toMv_mul, toMv_mulMonomial, toMv_mul]
      ring

theorem degreeOf_pseudoReduce_lt {v : ℕ} {d : Poly} (hd : 0 < d.degreeOf v) {steps : ℕ} {r : Poly}
    (hr : r.degreeOf v < d.degreeOf v + steps) :
    (pseudoReduce v d (d.leadingCoeffOf v) (d.degreeOf v) steps r).degreeOf v < d.degreeOf v := by
  induction steps generalizing r with
  | zero => exact hr
  | succ steps ih =>
    rw [pseudoReduce]
    split_ifs with hlt
    · simp only [Bool.or_eq_true, decide_eq_true_eq] at hlt
      rcases hlt with hz | hlt
      · rw [degreeOf_eq, toMv_mul, toMv_eq_zero_of_isZero hz, zero_mul, MvPolynomial.degreeOf_zero]
        exact hd
      · rw [degreeOf_eq, toMv_mul, toMv_pow]
        refine (degreeOf_mul_le _ _ _).trans_lt ?_
        have hp := degreeOf_pow_le v (d.leadingCoeffOf v).toMv (steps + 1)
        rw [degreeOf_of_notMem_vars (notMem_vars_leadingCoeffOf v d), mul_zero] at hp
        rw [← degreeOf_eq]
        omega
    · simp only [Bool.or_eq_true, decide_eq_true_eq, not_or, not_lt] at hlt
      refine ih ?_
      have := degreeOf_cancel_lt hd hlt.2
      rw [degreeOf_eq, toMv_sub, toMv_mul, toMv_mulMonomial, toMv_mul, Monomial.toFinsupp_ofPower,
        ← X_pow_eq_monomial, mul_comm (MvPolynomial.X v ^ _)]
      omega

theorem vars_pseudoReduce_subset {v : ℕ} {d lc : Poly} {n steps : ℕ} {r : Poly} {s : Finset ℕ}
    (hd : d.toMv.vars ⊆ s) (hlc : lc.toMv.vars ⊆ s) (hr : r.toMv.vars ⊆ s) (hv : v ∈ s) :
    (pseudoReduce v d lc n steps r).toMv.vars ⊆ s := by
  classical
  induction steps generalizing r with
  | zero => exact hr
  | succ steps ih =>
    rw [pseudoReduce]
    split_ifs
    · rw [toMv_mul, toMv_pow]
      exact (vars_mul _ _).trans (Finset.union_subset hr ((vars_pow _ _).trans hlc))
    · refine ih ?_
      rw [toMv_sub, toMv_mul, toMv_mulMonomial, toMv_mul, Monomial.toFinsupp_ofPower,
        ← X_pow_eq_monomial]
      have hc := (vars_coeff_subset v (r.degreeOf v) r).trans hr
      have hX : (X v ^ (r.degreeOf v - n) : MvPolynomial ℕ ℚ).vars ⊆ s :=
        (vars_pow _ _).trans (by simpa using hv)
      exact (vars_sub_subset (p := _) (q := _)).trans (Finset.union_subset
        ((vars_mul _ _).trans (Finset.union_subset hr hlc))
        ((vars_mul _ _).trans (Finset.union_subset hX
          ((vars_mul _ _).trans (Finset.union_subset hc hd)))))

/-- What a pseudo-remainder is, for a divisor that contains the variable. -/
theorem pseudoRemainder_spec {v : ℕ} {p d r : Poly} (hd : 0 < d.degreeOf v)
    (h : p.pseudoRemainder v d = .ok r) :
    (∃ (k : ℕ) (q : MvPolynomial ℕ ℚ),
      r.toMv = (d.leadingCoeffOf v).toMv ^ k * p.toMv - q * d.toMv) ∧
      r.degreeOf v < d.degreeOf v ∧ r.toMv.vars ⊆ p.toMv.vars ∪ d.toMv.vars := by
  classical
  rw [pseudoRemainder] at h
  simp only at h
  split_ifs at h with hz hs
  · obtain rfl := Except.ok.inj h
    simp only [Bool.or_eq_true, decide_eq_true_eq] at hs
    refine ⟨⟨0, 0, by simp⟩, ?_, Finset.subset_union_left⟩
    rcases hs with hs | hs
    · rwa [degreeOf_eq, toMv_eq_zero_of_isZero hs, MvPolynomial.degreeOf_zero]
    · exact hs
  · obtain rfl := Except.ok.inj h
    refine ⟨⟨_, toMv_pseudoReduce _ _ _ _ _ _⟩, degreeOf_pseudoReduce_lt hd (by omega),
      vars_pseudoReduce_subset Finset.subset_union_right
        ((vars_coeff_subset _ _ _).trans Finset.subset_union_right) Finset.subset_union_left ?_⟩
    refine Finset.mem_union_right _ ?_
    by_contra hv
    rw [degreeOf_eq_zero_iff.2 hv] at hd
    exact hd.false

end Poly

end Cylindrical

end
