import Mathlib
import Cylindrical.Proofs.Poly.Value

/-!
# Substitution

Putting in numbers, putting in polynomials and renaming variables, as evaluation of the polynomial
at another point.  Numbers are put in by powers with exponents of 32 bits, so `value_evalAt` needs
an exponent below `2 ^ 31`.  A substitution does not raise the degree in a variable that it does not
bring in.
-/

noncomputable section

open MvPolynomial

namespace Cylindrical

namespace Poly

variable {A : Type*} [CommRing A] [RationalAlgebra A]

/-! ## Numbers for variables -/

theorem toMv_without_mul (v : ℕ) (t : Term) :
    t.toMv = (⟨t.coeff, t.monomial.without v⟩ : Term).toMv * X v ^ t.monomial.degreeOf v := by
  rw [Term.toMv, Term.toMv, X_pow_eq_monomial, monomial_mul, mul_one,
    Monomial.toFinsupp_without, add_comm, ← Monomial.toFinsupp_eq_single_add_erase]

theorem notMem_vars_erase (v : ℕ) (m : ℕ →₀ ℕ) (c : ℚ) : v ∉ (monomial (m.erase v) c).vars := by
  rw [MvPolynomial.mem_vars_iff_mem_support]
  rintro ⟨k, hk, hv⟩
  rw [Finset.mem_singleton.1 (support_monomial_subset hk)] at hv
  simp at hv

theorem notMem_vars_without (v : ℕ) (c : ℚ) (m : Monomial) :
    v ∉ (⟨c, m.without v⟩ : Term).toMv.vars := by
  rw [Term.toMv, Monomial.toFinsupp_without]
  exact notMem_vars_erase v _ c

/-- The value of `p` with a number put in for `v`. -/
theorem value_evalAt {v : ℕ} {p : Poly} (h : p.degreeOf v < Nat.pow 2 31) (r : ℚ) (x : ℕ → A) :
    (p.evalAt v r).value x = p.value (Function.update x v (algebraMap ℚ A r)) := by
  rw [evalAt]
  split_ifs with hv
  · rw [value, value, toMv_ofTerms, toMv]
    have hdeg := degreeOf_le_iff.1 (le_refl (p.degreeOf v))
    generalize p.terms = ts at hdeg
    induction ts with
    | nil => simp
    | cons t ts ih =>
      have ht := hdeg t (.head _)
      have hsplit : aeval (Function.update x v (algebraMap ℚ A r)) t.toMv =
          aeval x (⟨t.coeff, t.monomial.without v⟩ : Term).toMv *
            algebraMap ℚ A r ^ t.monomial.degreeOf v := by
        rw [toMv_without_mul v t, map_mul, map_pow, aeval_X, Function.update_self]
        congr 1
        refine eval₂Hom_congr' rfl (fun w hw _ => ?_) rfl
        rw [Function.update_of_ne]
        rintro rfl
        exact notMem_vars_without _ _ _ hw
      have hscale : (⟨t.coeff * signedPow r (t.monomial.degreeOf v), t.monomial.without v⟩ :
          Term).toMv = C (r ^ t.monomial.degreeOf v) *
            (⟨t.coeff, t.monomial.without v⟩ : Term).toMv := by
        rw [Term.toMv, Term.toMv, C_mul_monomial, mul_comm, signedPow_of_lt r (by omega)]
        rfl
      rw [List.map_cons, sumOf_cons, sumOf_cons, map_add, map_add,
        ih fun s hs => hdeg s (.tail _ hs), hsplit, hscale, map_mul, aeval_C, map_pow, mul_comm]
  · rw [value_update_of_notMem]
    exact containsVar_eq_false_iff.1 (by simpa using hv)

theorem toMv_evalAt {v : ℕ} {p : Poly} (h : p.degreeOf v < Nat.pow 2 31) (r : ℚ) :
    (p.evalAt v r).toMv = aeval (Function.update X v (C r)) p.toMv := by
  rw [← value_X, value_evalAt h, value]
  rfl

theorem exists_of_mem_support_evalAt {v : ℕ} {r : ℚ} {p : Poly} {m : ℕ →₀ ℕ}
    (h : m ∈ (p.evalAt v r).toMv.support) : ∃ n ∈ p.toMv.support, m = n.erase v := by
  rw [evalAt] at h
  split_ifs at h with hv
  · rw [toMv_ofTerms] at h
    obtain ⟨s, hs, rfl⟩ := exists_of_mem_support_sumOf h
    obtain ⟨t, ht, rfl⟩ := List.mem_map.1 hs
    exact ⟨_, mem_support_toMv.2 ⟨t, ht, rfl⟩, Monomial.toFinsupp_without _ _⟩
  · refine ⟨m, h, (Finsupp.erase_of_notMem_support fun hm => ?_).symm⟩
    exact (containsVar_eq_false_iff.1 (by simpa using hv))
      ((MvPolynomial.mem_vars_iff_mem_support v).2 ⟨m, h, hm⟩)

theorem vars_evalAt_subset (v : ℕ) (r : ℚ) (p : Poly) :
    (p.evalAt v r).toMv.vars ⊆ p.toMv.vars.erase v := by
  intro w hw
  obtain ⟨m, hm, hw⟩ := (MvPolynomial.mem_vars_iff_mem_support w).1 hw
  obtain ⟨n, hn, rfl⟩ := exists_of_mem_support_evalAt hm
  rw [Finsupp.support_erase, Finset.mem_erase] at hw
  exact Finset.mem_erase.2 ⟨hw.1, (MvPolynomial.mem_vars_iff_mem_support w).2 ⟨n, hn, hw.2⟩⟩

theorem degreeOf_evalAt_le (v w : ℕ) (r : ℚ) (p : Poly) :
    (p.evalAt v r).degreeOf w ≤ p.degreeOf w := by
  rw [degreeOf_eq, degreeOf_eq, MvPolynomial.degreeOf_le_iff]
  intro m hm
  obtain ⟨n, hn, rfl⟩ := exists_of_mem_support_evalAt hm
  refine le_trans ?_ (MvPolynomial.monomial_le_degreeOf w hn)
  rw [Finsupp.erase_apply]
  split_ifs <;> simp

/-! ## Polynomials for variables -/

theorem toMv_horner (q : Poly) (cs : List Poly) :
    (cs.foldr (fun c acc => acc * q + c) 0).toMv =
      ∑ k ∈ Finset.range cs.length, (cs.getD k 0).toMv * q.toMv ^ k := by
  induction cs with
  | nil => simp
  | cons c cs ih =>
    rw [List.foldr_cons, toMv_add, toMv_mul, ih, List.length_cons, Finset.sum_range_succ',
      Finset.sum_mul]
    simp [pow_succ, mul_assoc]

theorem toMv_substitute (v : ℕ) (p q : Poly) :
    (p.substitute v q).toMv = aeval (Function.update X v q.toMv) p.toMv := by
  rw [substitute]
  split_ifs with hv
  · rw [toMv_horner]
    conv_rhs => rw [toMv_eq_sum_coeff v p]
    rw [map_sum, coeffs, List.length_map, List.length_range]
    refine Finset.sum_congr rfl fun k hk => ?_
    rw [map_mul, map_pow, aeval_X, Function.update_self, List.getD_eq_getElem?_getD,
      List.getElem?_map, List.getElem?_range (Finset.mem_range.1 hk)]
    congr 1
    refine ((value_coeff_update v k X q.toMv p).trans (value_X _)).symm
  · have hv := containsVar_eq_false_iff.1 (by simpa using hv)
    exact ((value_update_of_notMem hv q.toMv).trans (value_X p)).symm

theorem value_substitute (v : ℕ) (p q : Poly) (x : ℕ → A) :
    (p.substitute v q).value x = p.value (Function.update x v (q.value x)) := by
  rw [value, toMv_substitute, value]
  have h := map_value (x := Function.update X v q.toMv) (aeval x : MvPolynomial ℕ ℚ →ₐ[ℚ] A) p
  refine h.trans (congrArg (fun y => aeval y p.toMv) (funext fun w => ?_))
  by_cases hw : w = v
  · subst hw
    simp [value]
  · simp [hw]

theorem vars_aeval_update_subset (v : ℕ) (P Q : MvPolynomial ℕ ℚ) :
    (aeval (Function.update X v Q) P).vars ⊆ P.vars.erase v ∪ Q.vars := by
  classical
  refine (vars_bind₁ (Function.update X v Q) P).trans ?_
  intro w hw
  obtain ⟨u, hu, hw⟩ := Finset.mem_biUnion.1 hw
  by_cases huv : u = v
  · subst huv
    exact Finset.mem_union_right _ (by simpa using hw)
  · rw [Function.update_of_ne huv, vars_X, Finset.mem_singleton] at hw
    exact Finset.mem_union_left _ (Finset.mem_erase.2 ⟨hw ▸ huv, hw ▸ hu⟩)

theorem vars_substitute_subset (v : ℕ) (p q : Poly) :
    (p.substitute v q).toMv.vars ⊆ p.toMv.vars.erase v ∪ q.toMv.vars := by
  rw [toMv_substitute]
  exact vars_aeval_update_subset v p.toMv q.toMv

theorem degreeOf_substitute_le {v w : ℕ} (p : Poly) {q : Poly} (hw : w ∉ q.toMv.vars) :
    (p.substitute v q).degreeOf w ≤ p.degreeOf w := by
  rw [substitute]
  split_ifs with hv
  · rw [degreeOf_eq, toMv_horner]
    refine (MvPolynomial.degreeOf_sum_le _ _ _).trans (Finset.sup_le fun k hk => ?_)
    rw [coeffs, List.length_map, List.length_range, Finset.mem_range] at hk
    refine (MvPolynomial.degreeOf_mul_le _ _ _).trans ?_
    have hq : MvPolynomial.degreeOf w (q.toMv ^ k) = 0 :=
      Nat.le_zero.1 ((MvPolynomial.degreeOf_pow_le _ _ _).trans (by
        rw [← degreeOf_eq, degreeOf_eq_zero_iff.2 hw, mul_zero]))
    have hc : (p.coeffs v).getD k 0 = p.coeff v k := by
      rw [coeffs, List.getD_eq_getElem?_getD, List.getElem?_map, List.getElem?_range hk]
      rfl
    rw [hq, hc, add_zero, ← degreeOf_eq]
    exact degreeOf_coeff_le v k w p
  · exact le_rfl

/-- Two substitutions commute if neither brings in the variable of the other. -/
theorem toMv_substitute_comm {v w : ℕ} (hvw : v ≠ w) (p : Poly) {q r : Poly}
    (hq : w ∉ q.toMv.vars) (hr : v ∉ r.toMv.vars) :
    ((p.substitute v q).substitute w r).toMv = ((p.substitute w r).substitute v q).toMv := by
  rw [← value_X, ← value_X, value_substitute, value_substitute, value_substitute, value_substitute,
    value_update_of_notMem hq, value_update_of_notMem hr, Function.update_comm hvw]

/-! ## Numbers with any exponents -/

/-- Putting a number in for a variable, with its powers read as `signedPow`, as a linear map. -/
def putIn (v : ℕ) (r : ℚ) : MvPolynomial ℕ ℚ →ₗ[ℚ] MvPolynomial ℕ ℚ :=
  (basisMonomials ℕ ℚ).constr ℚ fun m => monomial (m.erase v) (signedPow r (m v))

theorem putIn_monomial (v : ℕ) (r : ℚ) (m : ℕ →₀ ℕ) (c : ℚ) :
    putIn v r (monomial m c) = monomial (m.erase v) (signedPow r (m v) * c) := by
  have h : monomial m c = c • basisMonomials ℕ ℚ m := by
    rw [coe_basisMonomials, smul_monomial, smul_eq_mul, mul_one]
  rw [h, map_smul, putIn, Module.Basis.constr_basis, smul_monomial, smul_eq_mul, mul_comm]

@[simp] theorem signedPow_zero (r : ℚ) : signedPow r 0 = 1 := by
  rw [signedPow_of_lt r (Nat.pow_pos (by omega))]
  exact pow_zero r

theorem putIn_of_notMem {v : ℕ} (r : ℚ) {P : MvPolynomial ℕ ℚ} (h : v ∉ P.vars) :
    putIn v r P = P := by
  conv_rhs => rw [← P.support_sum_monomial_coeff]
  conv_lhs => rw [← P.support_sum_monomial_coeff]
  rw [map_sum]
  refine Finset.sum_congr rfl fun m hm => ?_
  have hv : v ∉ m.support := fun hv => h ((MvPolynomial.mem_vars_iff_mem_support v).2 ⟨m, hm, hv⟩)
  rw [putIn_monomial, Finsupp.erase_of_notMem_support hv, Finsupp.notMem_support_iff.1 hv,
    signedPow_zero, one_mul]

theorem putIn_mul_X_pow {v : ℕ} (r : ℚ) {P : MvPolynomial ℕ ℚ} (h : v ∉ P.vars) (k : ℕ) :
    putIn v r (P * X v ^ k) = C (signedPow r k) * P := by
  conv_rhs => rw [← P.support_sum_monomial_coeff]
  conv_lhs => rw [← P.support_sum_monomial_coeff]
  rw [Finset.sum_mul, Finset.mul_sum, map_sum]
  refine Finset.sum_congr rfl fun m hm => ?_
  have hv : v ∉ m.support := fun hv => h ((MvPolynomial.mem_vars_iff_mem_support v).2 ⟨m, hm, hv⟩)
  rw [X_pow_eq_monomial, monomial_mul, mul_one, putIn_monomial, C_mul_monomial, Finsupp.erase_add,
    Finsupp.erase_single, add_zero, Finsupp.erase_of_notMem_support hv, Finsupp.add_apply,
    Finsupp.notMem_support_iff.1 hv, Finsupp.single_eq_same, zero_add]

theorem toMv_evalAt_eq_putIn (v : ℕ) (r : ℚ) (p : Poly) : (p.evalAt v r).toMv = putIn v r p.toMv := by
  rw [evalAt]
  split_ifs with hv
  · rw [toMv_ofTerms, toMv]
    induction p.terms with
    | nil => simp
    | cons t ts ih =>
      rw [List.map_cons, sumOf_cons, sumOf_cons, map_add, ih, Term.toMv, Term.toMv, putIn_monomial,
        Monomial.toFinsupp_without, Monomial.toFinsupp_apply, mul_comm]
  · exact (putIn_of_notMem r (containsVar_eq_false_iff.1 (by simpa using hv))).symm

/-- A number and a polynomial that does not bring in its variable may be put in in either order. -/
theorem toMv_evalAt_substitute {v w : ℕ} (hvw : v ≠ w) (p : Poly) {q : Poly} (hq : w ∉ q.toMv.vars)
    (r : ℚ) : ((p.substitute v q).evalAt w r).toMv = ((p.evalAt w r).substitute v q).toMv := by
  rw [toMv_evalAt_eq_putIn, toMv_substitute, toMv_substitute, toMv_evalAt_eq_putIn]
  generalize p.toMv = P
  induction P using MvPolynomial.induction_on' with
  | add P Q hP hQ => rw [map_add, map_add, map_add, map_add, hP, hQ]
  | monomial m c =>
    set P := aeval (Function.update X v q.toMv) (monomial (m.erase w) c) with hP
    have hmem : w ∉ P.vars := fun hw => by
      rcases Finset.mem_union.1 (vars_aeval_update_subset v _ _ hw) with hw | hw
      · exact notMem_vars_erase w m c (Finset.mem_of_mem_erase hw)
      · exact hq hw
    have hsplit : aeval (Function.update X v q.toMv) (monomial m c) = P * X w ^ m w := by
      have hm : monomial m c = monomial (m.erase w) c * X w ^ m w := by
        rw [X_pow_eq_monomial, monomial_mul, mul_one, add_comm, Finsupp.single_add_erase]
      rw [hm, map_mul, map_pow, aeval_X, Function.update_of_ne hvw.symm, hP]
    rw [hsplit, putIn_mul_X_pow r hmem, putIn_monomial, ← C_mul_monomial, map_mul, ← hP]
    simp

/-! ## New names for variables -/

theorem toMv_rename (f : ℕ → ℕ) (p : Poly) : (p.rename f).toMv = MvPolynomial.rename f p.toMv := by
  rw [rename, toMv_ofTerms, toMv]
  induction p.terms with
  | nil => simp
  | cons t ts ih =>
    rw [List.map_cons, sumOf_cons, ih, sumOf_cons, map_add, Term.toMv, Term.toMv,
      rename_monomial, Monomial.toFinsupp_rename]

@[simp] theorem value_rename (f : ℕ → ℕ) (p : Poly) (x : ℕ → A) :
    (p.rename f).value x = p.value fun v => x (f v) := by
  rw [value, toMv_rename, aeval_rename]
  rfl

end Poly

end Cylindrical

end
