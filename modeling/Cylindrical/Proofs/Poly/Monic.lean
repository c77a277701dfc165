import Mathlib
import Cylindrical.Proofs.Poly.Division
import Cylindrical.Proofs.Poly.Primitive

/-!
# Monic polynomials in a variable

A polynomial is monic of degree `n` in `v` when it differs from `v ^ n` by something of a smaller degree
in `v`.  This is kept when multiples of a polynomial in other variables are subtracted as leading terms
in one of them.  All monomial orders compare the powers of one variable by their exponents, so the first
term of a polynomial in one variable is that of its degree, and the monic form is monic in the variable.
What a monic polynomial leaves of another one when it divides it is monic too.
-/

noncomputable section

open MvPolynomial

namespace Cylindrical

namespace Poly

/-- The polynomial is `v ^ n` and something of a smaller degree in `v`. -/
def MonicIn (v n : ℕ) (p : Poly) : Prop := (p - ofPower v n).degreeOf v < n

instance (v n : ℕ) (p : Poly) : Decidable (p.MonicIn v n) :=
  inferInstanceAs (Decidable ((p - .ofPower v n).degreeOf v < n))

namespace MonicIn

variable {v w m n : ℕ} {p q d : Poly}

theorem toMv_eq (p : Poly) (v n : ℕ) : p.toMv = X v ^ n + (p - ofPower v n).toMv := by
  rw [toMv_sub, toMv_ofPower]
  ring

theorem degreeOf_eq (h : MonicIn v n p) : p.degreeOf v = n := by
  have hX : (X v ^ n : MvPolynomial ℕ ℚ).degreeOf v = n := degreeOf_X_self_pow v n
  rw [MonicIn, Poly.degreeOf_eq] at h
  rw [Poly.degreeOf_eq, toMv_eq p v n, degreeOf_add_eq_of_degreeOf_lt (by rwa [hX]), hX]

theorem pos (h : MonicIn v n p) : 0 < n := by
  rw [MonicIn] at h
  omega

theorem congr (h : MonicIn v n p) (hq : q.toMv = p.toMv) : MonicIn v n q := by
  rw [MonicIn, Poly.degreeOf_eq, toMv_sub, hq, ← toMv_sub, ← Poly.degreeOf_eq]
  exact h

/-- Something of a smaller degree added. -/
theorem of_degreeOf_sub_lt (h : MonicIn v n p)
    (hq : MvPolynomial.degreeOf v (q.toMv - p.toMv) < n) : MonicIn v n q := by
  rw [MonicIn, Poly.degreeOf_eq] at h ⊢
  have heq : (q - ofPower v n).toMv = (q.toMv - p.toMv) + (p - ofPower v n).toMv := by
    rw [toMv_sub, toMv_sub]
    ring
  rw [heq]
  exact (degreeOf_add_le _ _ _).trans_lt (max_lt hq h)

theorem of_leadingCoeffOf (hn : p.degreeOf v = n) (h0 : n ≠ 0)
    (h : (p.leadingCoeffOf v).toMv = 1) : MonicIn v n p := by
  have hr := toMv_reductum_add v p
  rw [h, one_mul, hn] at hr
  rw [MonicIn, Poly.degreeOf_eq, toMv_sub, toMv_ofPower, hr, add_sub_cancel_left,
    ← Poly.degreeOf_eq, ← hn]
  exact degreeOf_reductum_lt (by omega)

/-- A polynomial with a constant leading coefficient, divided by it. -/
theorem scale (hlead : (p.leadingCoeffOf v).isConstant = true) (h0 : p.degreeOf v ≠ 0) :
    MonicIn v (p.degreeOf v) (p.scale (1 / (p.leadingCoeffOf v).constantValue)) := by
  have hc := constantValue_ne_zero hlead
  have hnum : (p.leadingCoeffOf v).isNumber = true := by rw [isNumber, hlead, Bool.or_true]
  have hr := toMv_reductum_add v p
  rw [toMv_of_isNumber hnum] at hr
  have heq : (p.scale (1 / (p.leadingCoeffOf v).constantValue) - Poly.ofPower v (p.degreeOf v)).toMv
      = C (1 / (p.leadingCoeffOf v).constantValue) * (p.reductum v).toMv := by
    have hone : (C (1 / (p.leadingCoeffOf v).constantValue) : MvPolynomial ℕ ℚ) *
        C (p.leadingCoeffOf v).constantValue = 1 := by
      rw [← C_mul, one_div, inv_mul_cancel₀ hc, C_1]
    rw [toMv_sub, toMv_scale, toMv_ofPower]
    conv_lhs => rw [hr]
    linear_combination X v ^ p.degreeOf v * hone
  rw [MonicIn, Poly.degreeOf_eq, heq]
  refine (degreeOf_C_mul_le _ _ _).trans_lt ?_
  rw [← Poly.degreeOf_eq]
  exact degreeOf_reductum_lt (by omega)

theorem leadingCoeffOf_eq (h : MonicIn v n p) : (p.leadingCoeffOf v).toMv = 1 := by
  rw [leadingCoeffOf, h.degreeOf_eq, ← coeff_openVar, toMv_eq p v n, map_add, map_pow,
    Polynomial.coeff_add, coeff_openVar, coeff_eq_zero_of_degreeOf_lt h, add_zero]
  simp [openVar]

theorem ofPower (h : 0 < n) : MonicIn v n (Poly.ofPower v n) := by
  rw [MonicIn, Poly.degreeOf_eq, toMv_sub, sub_self, MvPolynomial.degreeOf_zero]
  exact h

/-- The coefficients of positive powers of another variable have a smaller degree. -/
theorem degreeOf_coeff_lt (h : MonicIn v n p) (hw : w ≠ v) {k : ℕ} (hk : k ≠ 0) :
    (p.coeff w k).degreeOf v < n := by
  have heq : (p.coeff w k).toMv = ((p - Poly.ofPower v n).coeff w k).toMv := by
    have hX : openVar w (X v ^ n : MvPolynomial ℕ ℚ) = Polynomial.C (X v ^ n) :=
      openVar_of_notMem fun hm => by
        have := vars_pow _ _ hm
        simp at this
        exact hw this
    rw [← coeff_openVar, ← coeff_openVar]
    conv_lhs => rw [toMv_eq p v n, map_add, hX, Polynomial.coeff_add, Polynomial.coeff_C,
      if_neg hk, zero_add]
  rw [Poly.degreeOf_eq, heq, ← Poly.degreeOf_eq]
  exact (degreeOf_coeff_le w k v _).trans_lt h

/-- At a point in the other variables a monic polynomial remains. -/
theorem monic_fiber {A : Type*} [CommRing A] [RationalAlgebra A] [Nontrivial A]
    (h : MonicIn v n p) (x : ℕ → A) : (p.fiber v x).Monic ∧ (p.fiber v x).natDegree = n := by
  have hlead := h.leadingCoeffOf_eq
  rw [leadingCoeffOf, h.degreeOf_eq] at hlead
  have hcoeff : (p.fiber v x).coeff n = 1 := by rw [coeff_fiber, value, hlead, map_one]
  have hle := natDegree_fiber_le v x p
  rw [h.degreeOf_eq] at hle
  exact ⟨Polynomial.monic_of_natDegree_le_of_coeff_eq_one n hle hcoeff,
    Polynomial.natDegree_eq_of_le_of_coeff_ne_zero hle (by rw [hcoeff]; exact one_ne_zero)⟩

end MonicIn

end Poly

/-! ## Monic forms of polynomials in one variable -/

namespace Monomial

variable {v : ℕ}

theorem eq_ofPower {a : Monomial} (h : ∀ w, w ≠ v → a.degreeOf w = 0) :
    a = ofPower v (a.degreeOf v) := by
  rw [← toFinsupp_inj, toFinsupp_ofPower]
  ext w
  rw [toFinsupp_apply, Finsupp.single_apply]
  split_ifs with hw
  · rw [hw]
  · exact h w (Ne.symm hw)

theorem ofPower_of_pos {e : ℕ} (h : 0 < e) :
    ofPower v e = ⟨[(v, e)], .cons .nil (by simp) h, e, rfl⟩ := dif_pos h

theorem compare_ofPower (o : MonomialOrder) {j k : ℕ} (h : j < k) :
    o.compare (ofPower v j) (ofPower v k) = .lt := by
  have hlt := Nat.compare_eq_lt.2 h
  rw [ofPower_of_pos (Nat.zero_lt_of_lt h)]
  rcases Nat.eq_zero_or_pos j with rfl | hj
  · -- the unit monomial has no powers
    show o.compare 1 _ = .lt
    cases o
    · rfl
    · exact congrArg (Ordering.then · .lt) hlt
    · exact congrArg (Ordering.then · .gt) hlt
  · rw [ofPower_of_pos hj]
    cases o <;> simp [MonomialOrder.compare, lexCompare, comparePower, hlt]

end Monomial

namespace Poly

variable {v : ℕ} {p : Poly}

section

variable (hp : ∀ w ∈ p.toMv.vars, w = v)

include hp

theorem eq_ofPower_of_mem_terms {t : Term} (ht : t ∈ p.terms) :
    t.monomial = .ofPower v (t.monomial.degreeOf v) :=
  Monomial.eq_ofPower fun w hw => by
    by_contra h0
    refine hw (hp w ((mem_vars_iff_mem_support w).2 ⟨_, mem_support_toMv.2 ⟨t, ht, rfl⟩, ?_⟩))
    rwa [Finsupp.mem_support_iff, Monomial.toFinsupp_apply]

/-- The first term of a polynomial in one variable has its degree. -/
theorem degreeOf_eq_of_terms {t : Term} {ts : List Term} (ht : p.terms = t :: ts) :
    p.degreeOf v = t.monomial.degreeOf v := by
  have hmem : t ∈ p.terms := ht ▸ .head _
  refine le_antisymm (degreeOf_le_iff.2 fun u hu => ?_) (degreeOf_le_iff.1 le_rfl t hmem)
  by_contra hlt
  have hgt := Monomial.compare_ofPower (v := v) p.order (not_le.1 hlt)
  rw [← eq_ofPower_of_mem_terms hp hu, ← eq_ofPower_of_mem_terms hp hmem] at hgt
  rw [ht] at hu
  rcases List.mem_cons.1 hu with rfl | hu
  · exact hlt le_rfl
  · have hlt' := (ht ▸ p.valid : TermList p.order (t :: ts)).lt_head u hu
    rw [← MonomialOrder.compare_eq_gt_iff, hgt] at hlt'
    cases hlt'

theorem toMv_leadingCoeffOf (hdeg : 0 < p.degreeOf v) :
    (p.leadingCoeffOf v).toMv = C p.leadingCoeff := by
  have hvars : (p.leadingCoeffOf v).toMv.vars = ∅ := Finset.eq_empty_iff_forall_notMem.2 fun w hw => by
    obtain rfl := hp w (vars_coeff_subset v _ p hw)
    exact notMem_vars_leadingCoeffOf w p hw
  have hnum := toMv_of_isNumber (isNumber_iff_vars.2 hvars)
  cases ht : p.terms with
  | nil =>
    exact absurd (toMv_eq_zero_of_isZero (by rw [isZero, ht]; rfl)) (ne_zero_of_degreeOf_pos hdeg)
  | cons t ts =>
    have hmem : t ∈ p.terms := ht ▸ .head _
    have hmono : t.monomial.toFinsupp = Finsupp.single v (p.degreeOf v) := by
      rw [eq_ofPower_of_mem_terms hp hmem, Monomial.toFinsupp_ofPower, degreeOf_eq_of_terms hp ht]
    have hrest : MvPolynomial.coeff (Finsupp.single v (p.degreeOf v)) (p.reductum v).toMv = 0 := by
      refine MvPolynomial.notMem_support_iff.1 fun hs => ?_
      have hle := MvPolynomial.monomial_le_degreeOf v hs
      rw [Finsupp.single_eq_same, ← degreeOf_eq] at hle
      exact hle.not_gt (degreeOf_reductum_lt hdeg)
    -- the coefficient of the first monomial, in the polynomial and in its leading power of `v`
    have hcoeff := coeff_toMv hmem
    rw [hmono, toMv_reductum_add v p, MvPolynomial.coeff_add, hrest, add_zero, hnum,
      MvPolynomial.coeff_C_mul, MvPolynomial.coeff_X_pow, if_pos rfl, mul_one] at hcoeff
    rw [hnum, hcoeff, leadingCoeff, ht]

/-- The monic form of a polynomial in one variable is monic in it. -/
theorem monicIn_monic (hdeg : 0 < p.degreeOf v) : p.monic.MonicIn v (p.degreeOf v) := by
  have h0 := ne_zero_of_degreeOf_pos hdeg
  have hlead := toMv_leadingCoeffOf hp hdeg
  have hscale := MonicIn.scale (isConstant_iff.2 ⟨_, leadingCoeff_ne_zero h0, hlead⟩) hdeg.ne'
  rw [constantValue_eq hlead, one_div] at hscale
  rwa [monic, isZero_eq_false_iff.2 h0]

end

/-- What is left of a monic polynomial by a monic divisor of a smaller degree is monic. -/
theorem MonicIn.cofactor {g h : Poly} {m n : ℕ} (hp : p.MonicIn v m) (hg : g.MonicIn v n)
    (hmul : p.toMv = h.toMv * g.toMv) (hlt : n < m) : h.MonicIn v (m - n) := by
  have hp0 := ne_zero_of_degreeOf_pos (hp.degreeOf_eq ▸ hp.pos)
  have hdeg : m = h.degreeOf v + n := by
    rw [← hp.degreeOf_eq, Poly.degreeOf_eq v p, hmul, degreeOf_mul_eq (left_ne_zero_of_mul (hmul ▸ hp0))
      (right_ne_zero_of_mul (hmul ▸ hp0)), ← Poly.degreeOf_eq, ← Poly.degreeOf_eq, hg.degreeOf_eq]
  refine .of_leadingCoeffOf (by omega) (by omega) ?_
  have hle : ∀ q : Poly, (openVar v q.toMv).natDegree ≤ q.degreeOf v := fun q => natDegree_fiber_le v X q
  have hcoeff := Polynomial.coeff_mul_add_eq_of_natDegree_le (hle h) (hle g)
  rw [← map_mul, ← hmul, hg.degreeOf_eq, ← hdeg, coeff_openVar, coeff_openVar, coeff_openVar] at hcoeff
  have hleadp := hp.leadingCoeffOf_eq
  have hleadg := hg.leadingCoeffOf_eq
  rw [leadingCoeffOf, hp.degreeOf_eq] at hleadp
  rw [leadingCoeffOf, hg.degreeOf_eq] at hleadg
  rw [leadingCoeffOf, ← hleadp, hcoeff, hleadg, mul_one]

end Poly

end Cylindrical

end
