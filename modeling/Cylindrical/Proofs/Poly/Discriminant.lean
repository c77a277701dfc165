import Mathlib
import Cylindrical.Proofs.Poly.Resultant
import Cylindrical.Proofs.Poly.SubresultantGcd

/-!
# Discriminants

The resultant of a polynomial and its derivative is the leading coefficient times the discriminant,
with the sign of the reversal of as many elements as the degree says.  The discriminant is therefore
found, vanishes exactly at a repeated factor, and is the product of the squared differences of the
roots (`Poly.discriminant_spec`).
-/

noncomputable section

open MvPolynomial

namespace Cylindrical

/-! ## Derivatives of fibers -/

section

variable {A : Type*} [CommRing A] [RationalAlgebra A]

/-- The derivative in the open variable. -/
theorem aeval_openAt_pderiv (v : ℕ) (x : ℕ → A) (P : MvPolynomial ℕ ℚ) :
    aeval (Poly.openAt v x) (pderiv v P) = (aeval (Poly.openAt v x) P).derivative := by
  induction P using MvPolynomial.induction_on with
  | C c =>
    rw [pderiv_C, map_zero, aeval_C, IsScalarTower.algebraMap_apply ℚ A (Polynomial A),
      Polynomial.algebraMap_eq, Polynomial.derivative_C]
  | add P Q hP hQ => rw [map_add, map_add, map_add, map_add, hP, hQ]
  | mul_X P w hP =>
    rw [pderiv_mul, map_add, map_mul, map_mul, map_mul, hP, aeval_X, Polynomial.derivative_mul]
    congr 2
    by_cases hw : w = v
    · subst hw
      simp
    · simp [hw]

namespace Poly

variable {v : ℕ} {p : Poly}

theorem fiber_derivative (v : ℕ) (x : ℕ → A) (p : Poly) :
    (p.derivative v).fiber v x = (p.fiber v x).derivative := by
  rw [fiber, fiber, value, value, toMv_derivative, aeval_openAt_pderiv]

theorem openVar_derivative (v : ℕ) (p : Poly) :
    openVar v (p.derivative v).toMv = (openVar v p.toMv).derivative := fiber_derivative v X p

theorem leadingCoeff_openVar (v : ℕ) (p : Poly) :
    (openVar v p.toMv).leadingCoeff = (p.leadingCoeffOf v).toMv := by
  rw [Polynomial.leadingCoeff, natDegree_openVar, coeff_openVar, leadingCoeffOf]

theorem degreeOf_derivative (v : ℕ) (p : Poly) :
    (p.derivative v).degreeOf v = p.degreeOf v - 1 := by
  rw [← natDegree_openVar, openVar_derivative, Polynomial.natDegree_derivative, natDegree_openVar]

/-- The values of the other variables go into the coefficients. -/
theorem map_openVar (v : ℕ) (x : ℕ → A) (p : Poly) :
    (openVar v p.toMv).map (aeval x : MvPolynomial ℕ ℚ →ₐ[ℚ] A) = p.fiber v x := by
  ext k
  rw [Polynomial.coeff_map, coeff_openVar, coeff_fiber]
  rfl

end Poly

end

/-! ## Repeated factors -/

section

variable {v : ℕ} {P Q : MvPolynomial ℕ ℚ}

/-- A polynomial of positive degree has a prime factor of positive degree. -/
theorem exists_prime_dvd_of_degreeOf (h : 0 < degreeOf v Q) :
    ∃ q, Prime q ∧ v ∈ q.vars ∧ q ∣ Q := by
  induction Q using WfDvdMonoid.induction_on_irreducible with
  | zero => simp at h
  | unit u hu =>
    obtain ⟨c, -, rfl⟩ := MvPolynomial.isUnit_iff_eq_C_of_isReduced.1 hu
    simp at h
  | mul Q q hQ hq ih =>
    by_cases hv : v ∈ q.vars
    · exact ⟨q, hq.prime, hv, dvd_mul_right q Q⟩
    · rw [degreeOf_mul_eq hq.ne_zero hQ] at h
      rw [mem_vars_iff_degreeOf_ne_zero, not_not] at hv
      obtain ⟨r, hr, hrv, hrQ⟩ := ih (by omega)
      exact ⟨r, hr, hrv, hrQ.mul_left q⟩

/-- The repeated factors are those that a polynomial shares with its derivative. -/
theorem exists_sq_dvd_iff (hP : P ≠ 0) : (∃ Q, 0 < degreeOf v Q ∧ Q ^ 2 ∣ P) ↔
    ∃ Q, 0 < degreeOf v Q ∧ Q ∣ P ∧ Q ∣ pderiv v P := by
  constructor
  · rintro ⟨Q, hQ, R, rfl⟩
    refine ⟨Q, hQ, ⟨Q * R, by ring⟩, ?_⟩
    rw [pderiv_mul, pderiv_pow]
    exact ⟨2 * pderiv v Q * R + Q * pderiv v R, by ring⟩
  · rintro ⟨Q, hQ, hQP, hQP'⟩
    obtain ⟨q, hq, hqv, hqQ⟩ := exists_prime_dvd_of_degreeOf hQ
    obtain ⟨k, u, hk, rfl, hu⟩ := exists_eq_pow_mul hq hP (hqQ.trans hQP)
    have hk1 : k ≠ 1 := by
      rintro rfl
      refine not_pow_dvd_pderiv hq hqv hu one_ne_zero ?_
      rw [pow_one]
      simpa using hqQ.trans hQP'
    refine ⟨q, Nat.pos_of_ne_zero (mem_vars_iff_degreeOf_ne_zero.1 hqv), ?_⟩
    exact (pow_dvd_pow q (by omega)).mul_right u

end

namespace Poly

variable {v : ℕ} {p q r d : Poly}

/-! ## The discriminant that is found -/

/-- The resultant that is found. -/
theorem returns_resultant (hp : 0 < p.degreeOf v) (hq : 0 < q.degreeOf v) :
    Returns (resultant v p q) fun r => r.toMv =
      Polynomial.resultant (openVar v p.toMv) (openVar v q.toMv) (p.degreeOf v) (q.degreeOf v) := by
  refine (returns_subresultantCoeff (a := q.degreeOf v) (b := p.degreeOf v) (j := 0)
    (ne_zero_of_degreeOf_pos hp) (ne_zero_of_degreeOf_pos hq) rfl rfl).mono fun r hr => ?_
  rw [hr, pscDet_zero_eq_resultant (natDegree_openVar v p).le (natDegree_openVar v q).le]

/-- The resultant with the derivative. -/
theorem returns_resultant_derivative (hm : 2 ≤ p.degreeOf v) :
    Returns (resultant v p (p.derivative v)) fun r => r.toMv =
      Polynomial.resultant (openVar v p.toMv) (openVar v p.toMv).derivative (p.degreeOf v)
        (p.degreeOf v - 1) := by
  have hd := degreeOf_derivative v p
  have h := returns_resultant (p := p) (q := p.derivative v) (v := v) (by omega) (by omega)
  rwa [openVar_derivative, hd] at h

/-- The sign of the reversal of a number of elements. -/
def reversalSign (m : ℕ) : MvPolynomial ℕ ℚ := (-1) ^ (m * (m - 1) / 2)

theorem reversalSign_mul_self (m : ℕ) : reversalSign m * reversalSign m = 1 := by
  rw [reversalSign, ← pow_add, ← two_mul, pow_mul, neg_one_sq, one_pow]

/-- The discriminant is found, with the sign and without the leading coefficient. -/
theorem returns_discriminant (hm : 2 ≤ p.degreeOf v) :
    Returns (p.discriminant v) fun d => d.toMv = (openVar v p.toMv).discr := by
  obtain ⟨r, hr, hres⟩ := returns_resultant_derivative hm
  have hdegree := natDegree_openVar v p
  have hl0 := leadingCoeffOf_ne_zero (v := v) (ne_zero_of_degreeOf_pos (v := v) (p := p) (by omega))
  have hdiscr : r.toMv = (p.leadingCoeffOf v).toMv *
      (reversalSign (p.degreeOf v) * (openVar v p.toMv).discr) := by
    have hpos : 0 < (openVar v p.toMv).natDegree := by omega
    have := Polynomial.resultant_deriv (Polynomial.natDegree_pos_iff_degree_pos.1 hpos)
    rw [hdegree, leadingCoeff_openVar] at this
    rw [hres, this, reversalSign]
    ring
  obtain ⟨e, he⟩ := exists_divExact? (p := r) hl0 ⟨_, hdiscr⟩
  have hquot : e.toMv = reversalSign (p.degreeOf v) * (openVar v p.toMv).discr := by
    refine mul_left_cancel₀ hl0 ?_
    rw [← hdiscr, (toMv_of_divExact? he).2, mul_comm]
  have hsign : (if p.degreeOf v * (p.degreeOf v - 1) / 2 % 2 = 1 then -e else e).toMv =
      (openVar v p.toMv).discr := by
    split_ifs with hodd
    · rw [toMv_neg, hquot, reversalSign, (Nat.odd_iff.2 hodd).neg_one_pow, neg_one_mul, neg_neg]
    · rw [hquot, reversalSign, (Nat.even_iff.2 (by omega)).neg_one_pow, one_mul]
  refine ⟨_, ?_, hsign⟩
  rw [discriminant, if_neg (by omega), hr]
  simp only [bind, Except.bind, he]
  rfl

/-- The resultant with the derivative and the discriminant. -/
theorem exists_discriminant (hm : 2 ≤ p.degreeOf v) : ∃ r d,
    resultant v p (p.derivative v) = .ok r ∧ p.discriminant v = .ok d ∧
      r.toMv = reversalSign (p.degreeOf v) * (p.leadingCoeffOf v).toMv * d.toMv := by
  obtain ⟨r, hr, hres⟩ := returns_resultant_derivative hm
  obtain ⟨d, hd, hdisc⟩ := returns_discriminant hm
  have hpos : 0 < (openVar v p.toMv).natDegree := by
    rw [natDegree_openVar]
    omega
  have hderiv := Polynomial.resultant_deriv (Polynomial.natDegree_pos_iff_degree_pos.1 hpos)
  rw [leadingCoeff_openVar, natDegree_openVar, ← hdisc, ← hres] at hderiv
  exact ⟨r, d, hr, hd, hderiv⟩

/-- The greatest common divisor with the derivative contains the variable exactly where a factor is
repeated. -/
theorem IsGcd.degreeOf_pos_iff {g : Poly} (h : IsGcd g p (p.derivative v)) (hp0 : p.toMv ≠ 0) :
    0 < g.degreeOf v ↔ ∃ q : Poly, 0 < q.degreeOf v ∧ q.toMv ^ 2 ∣ p.toMv := by
  have hcommon : 0 < g.degreeOf v ↔ ∃ Q, 0 < MvPolynomial.degreeOf v Q ∧ Q ∣ p.toMv ∧
      Q ∣ pderiv v p.toMv := by
    rw [← toMv_derivative]
    constructor
    · intro hg
      exact ⟨g.toMv, by rwa [← degreeOf_eq], h.dvd_left, h.dvd_right⟩
    · rintro ⟨Q, hQ, hQp, hQp'⟩
      obtain ⟨U, hU⟩ := (h Q).2 ⟨hQp, hQp'⟩
      have hg0 := h.ne_zero_of_left hp0
      rw [hU] at hg0
      rw [degreeOf_eq, hU, degreeOf_mul_eq (left_ne_zero_of_mul hg0) (right_ne_zero_of_mul hg0)]
      omega
  rw [hcommon, ← exists_sq_dvd_iff hp0]
  constructor
  · rintro ⟨Q, hQ, hdvd⟩
    obtain ⟨q, -, rfl⟩ := exists_toMv_eq Q
    exact ⟨q, by rwa [degreeOf_eq], hdvd⟩
  · rintro ⟨q, hq, hdvd⟩
    exact ⟨q.toMv, by rwa [← degreeOf_eq], hdvd⟩

/-- The discriminant vanishes exactly where a factor is repeated. -/
theorem discriminant_eq_zero_iff (hm : 2 ≤ p.degreeOf v) (h : p.discriminant v = .ok d) :
    d.toMv = 0 ↔ ∃ q : Poly, 0 < q.degreeOf v ∧ q.toMv ^ 2 ∣ p.toMv := by
  obtain ⟨r, d', hr, hd, hrd⟩ := exists_discriminant hm
  obtain rfl := Except.ok.inj (h.symm.trans hd)
  have hp0 := ne_zero_of_degreeOf_pos (p := p) (v := v) (by omega)
  have hp0' := ne_zero_of_degreeOf_pos (p := p.derivative v) (v := v)
    (by rw [degreeOf_derivative]; omega)
  obtain ⟨g, -, -, hgcd⟩ := returns_gcd_of_ne_zero hp0 hp0'
  have hleast := isLeast_subresultantCoeff (v := v) hp0 hp0' hgcd
  have hunit : reversalSign (p.degreeOf v) ≠ 0 :=
    left_ne_zero_of_mul (b := reversalSign (p.degreeOf v)) (by simp [reversalSign_mul_self])
  calc d.toMv = 0 ↔ r.toMv = 0 := by
        rw [hrd, mul_eq_zero, or_iff_right (mul_ne_zero hunit (leadingCoeffOf_ne_zero hp0))]
    _ ↔ 0 < g.degreeOf v := by
        rw [← not_iff_not, not_lt, Nat.le_zero]
        constructor
        · intro hr0
          exact Nat.le_zero.1 (hleast.2 ⟨r, hr, isZero_eq_false_iff.2 hr0⟩)
        · intro hg0
          obtain ⟨s, hs, hs0⟩ := hg0 ▸ hleast.1
          obtain rfl := Except.ok.inj (hr.symm.trans hs)
          exact isZero_eq_false_iff.1 hs0
    _ ↔ _ := hgcd.degreeOf_pos_iff hp0

/-! ## The roots over a point -/

section

variable {K : Type*} [Field K] [RationalAlgebra K]

/-- Over a point a resultant is that of the fibers. -/
theorem value_resultant (hp : 0 < p.degreeOf v) (hq : 0 < q.degreeOf v)
    (h : resultant v p q = .ok r) (x : ℕ → K) :
    r.value x =
      Polynomial.resultant (p.fiber v x) (q.fiber v x) (p.degreeOf v) (q.degreeOf v) := by
  rw [value, (returns_resultant hp hq).of_ok h, ← map_openVar, ← map_openVar,
    Polynomial.resultant_map_map]
  rfl

theorem value_resultant_derivative (hm : 2 ≤ p.degreeOf v)
    (h : resultant v p (p.derivative v) = .ok r) (x : ℕ → K) :
    r.value x = Polynomial.resultant (p.fiber v x) (p.fiber v x).derivative (p.degreeOf v)
      (p.degreeOf v - 1) := by
  have hd := degreeOf_derivative v p
  rw [value_resultant (by omega) (by omega) h, fiber_derivative, hd]

/-- Where the fiber has as many roots as the degree says, the discriminant is the product of their
squared differences, with a power of the leading coefficient. -/
theorem value_discriminant_of_roots (hm : 2 ≤ p.degreeOf v) (h : p.discriminant v = .ok d)
    {x : ℕ → K} {s : Fin (p.degreeOf v) → K}
    (hs : (p.fiber v x).roots = Finset.univ.val.map s) :
    d.value x = (p.leadingCoeffOf v).value x ^ (2 * p.degreeOf v - 2) *
      ∏ i, ∏ j ∈ Finset.Ioi i, (s i - s j) ^ 2 := by
  obtain ⟨r, d', hr, hd, hrd⟩ := exists_discriminant hm
  obtain rfl := Except.ok.inj (h.symm.trans hd)
  have hcard : (p.fiber v x).roots.card = p.degreeOf v := by
    rw [hs, Multiset.card_map, Finset.card_val, Finset.card_univ, Fintype.card_fin]
  have hdegree : (p.fiber v x).natDegree = p.degreeOf v :=
    le_antisymm (natDegree_fiber_le v x p) (hcard ▸ Polynomial.card_roots' _)
  have hlead : (p.fiber v x).leadingCoeff = (p.leadingCoeffOf v).value x := by
    rw [Polynomial.leadingCoeff, hdegree, coeff_fiber, leadingCoeffOf]
  have hfiber : p.fiber v x ≠ 0 := fun h0 => by
    rw [h0, Polynomial.natDegree_zero] at hdegree
    omega
  have hl0 : (p.leadingCoeffOf v).value x ≠ 0 := hlead ▸ Polynomial.leadingCoeff_ne_zero.2 hfiber
  have hsign : ((-1) ^ (p.degreeOf v * (p.degreeOf v - 1) / 2) : K) ≠ 0 :=
    pow_ne_zero _ (neg_ne_zero.2 one_ne_zero)
  have hroots := resultant_derivative_of_roots (by omega) hdegree hs
  rw [hlead, ← value_resultant_derivative hm hr, value, hrd, map_mul, map_mul, reversalSign,
    map_pow, map_neg, map_one] at hroots
  exact mul_left_cancel₀ (mul_ne_zero hsign hl0) hroots

/-- The degree in `v` is kept where the leading coefficient does not vanish. -/
theorem natDegree_fiber_eq {x : ℕ → K} (h : (p.leadingCoeffOf v).value x ≠ 0) :
    (p.fiber v x).natDegree = p.degreeOf v := by
  refine le_antisymm (natDegree_fiber_le v x p) (Polynomial.le_natDegree_of_ne_zero ?_)
  rwa [coeff_fiber]

/-- The leading coefficient of a polynomial in one variable is a number. -/
theorem value_leadingCoeffOf_ne_zero (hp : p.toMv.vars ⊆ {v}) (hp0 : p.toMv ≠ 0) (x : ℕ → K) :
    (p.leadingCoeffOf v).value x ≠ 0 := by
  have hnumber : (p.leadingCoeffOf v).isNumber = true := by
    rw [isNumber_iff_vars, Finset.eq_empty_iff_forall_notMem]
    intro w hw
    obtain rfl := Finset.mem_singleton.1 (hp (vars_coeff_subset v _ p hw))
    exact notMem_vars_leadingCoeffOf w p hw
  have hl0 := leadingCoeffOf_ne_zero (v := v) hp0
  rw [toMv_of_isNumber hnumber, Ne, map_eq_zero_iff C (C_injective ℕ ℚ)] at hl0
  rw [value_of_isNumber x hnumber, Ne, map_eq_zero]
  exact hl0

end

end Poly

end Cylindrical

end
