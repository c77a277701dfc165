import Mathlib
import Cylindrical.Poly.Factorization
import Cylindrical.Proofs.Poly.GcdTotal

/-!
# Square-free decomposition

The decomposition of a polynomial `p` that is primitive in `v` goes through the multiplicities.  At
multiplicity `i` it holds the product `b` of the prime factors of multiplicity at least `i`, and what
remains of `p` after division by all smaller multiplicities is `b ^ i * s`.  The logarithmic
derivative of `s` is `d / b`, so the primes of `b` that divide `d` are those that do not divide `s`
(`LevelSet.prime_dvd_left`).
-/

noncomputable section

open MvPolynomial

namespace Cylindrical

/-! ## Derivatives -/

theorem Term.toMv_derivative (v : ℕ) (t : Term) :
    (⟨t.coeff * (t.monomial.degreeOf v : ℕ), (t.monomial.div? (.ofPower v 1)).getD 1⟩ : Term).toMv =
      pderiv v t.toMv := by
  rw [Term.toMv, Term.toMv, pderiv_monomial, Monomial.toFinsupp_apply]
  by_cases h : t.monomial.degreeOf v = 0
  · rw [h, Nat.cast_zero, mul_zero, map_zero, map_zero]
  · obtain ⟨m, hm⟩ := Option.isSome_iff_exists.1 (Monomial.div?_ofPower_isSome h)
    rw [hm, Option.getD_some, Monomial.toFinsupp_div? hm, Monomial.toFinsupp_ofPower,
      add_tsub_cancel_right]

namespace Poly

@[simp] theorem toMv_derivative (v : ℕ) (p : Poly) : (p.derivative v).toMv = pderiv v p.toMv := by
  rw [derivative, toMv_ofTerms, toMv]
  induction p.terms with
  | nil => simp
  | cons t ts ih => rw [List.map_cons, sumOf_cons, ih, sumOf_cons, map_add, Term.toMv_derivative]

end Poly

section

variable {v : ℕ} {P Q q u : MvPolynomial ℕ ℚ}

theorem pderiv_ne_zero (h : v ∈ P.vars) : pderiv v P ≠ 0 := by
  obtain ⟨m, hm, hmv⟩ := (MvPolynomial.mem_vars_iff_mem_support v).1 h
  have hle : Finsupp.single v 1 ≤ m := by
    rw [Finsupp.single_le_iff]
    exact Nat.one_le_iff_ne_zero.2 (Finsupp.mem_support_iff.1 hmv)
  intro h0
  have hcoeff := congrArg (coeff (m - Finsupp.single v 1)) h0
  rw [coeff_pderiv, tsub_add_cancel_of_le hle, coeff_zero] at hcoeff
  rcases mul_eq_zero.1 hcoeff with hc | hc
  · exact MvPolynomial.mem_support_iff.1 hm hc
  · exact absurd hc (by positivity)

theorem degreeOf_pderiv_lt (h : v ∈ P.vars) :
    MvPolynomial.degreeOf v (pderiv v P) < MvPolynomial.degreeOf v P := by
  have hpos : 0 < MvPolynomial.degreeOf v P :=
    Nat.pos_of_ne_zero (mem_vars_iff_degreeOf_ne_zero.1 h)
  rw [MvPolynomial.degreeOf_lt_iff hpos]
  intro m hm
  rw [MvPolynomial.mem_support_iff, coeff_pderiv] at hm
  have := MvPolynomial.monomial_le_degreeOf v
    (MvPolynomial.mem_support_iff.2 (left_ne_zero_of_mul hm))
  rw [Finsupp.add_apply, Finsupp.single_eq_same] at this
  omega

/-- A polynomial that contains the variable does not divide its derivative. -/
theorem not_dvd_pderiv (h : v ∈ P.vars) : ¬P ∣ pderiv v P := by
  rintro ⟨R, hR⟩
  have h0 := pderiv_ne_zero h
  rw [hR] at h0
  have hle := degreeOf_mul_eq (n := v) (left_ne_zero_of_mul h0) (right_ne_zero_of_mul h0)
  rw [← hR] at hle
  have := degreeOf_pderiv_lt h
  omega

/-- The derivative has a prime factor that contains the variable one time less. -/
theorem not_pow_dvd_pderiv (hq : Prime q) (hv : v ∈ q.vars) (hu : ¬q ∣ u) {k : ℕ} (hk : k ≠ 0) :
    ¬q ^ k ∣ pderiv v (q ^ k * u) := by
  obtain ⟨k, rfl⟩ := Nat.exists_eq_succ_of_ne_zero hk
  intro h
  have hprod : pderiv v (q ^ (k + 1) * u) =
      q ^ k * (((k + 1 : ℕ) : MvPolynomial ℕ ℚ) * pderiv v q * u + q * pderiv v u) := by
    rw [pderiv_mul, pderiv_pow, Nat.add_sub_cancel]
    ring
  rw [hprod, pow_succ] at h
  have hdvd := (dvd_add_left (dvd_mul_right q _)).1
    ((mul_dvd_mul_iff_left (pow_ne_zero k hq.ne_zero)).1 h)
  rcases hq.dvd_or_dvd hdvd with hdvd | hdvd
  · rcases hq.dvd_or_dvd hdvd with hdvd | hdvd
    · refine hq.not_isUnit (isUnit_of_dvd_unit hdvd ?_)
      rw [← map_natCast C]
      exact (isUnit_iff_ne_zero.2 (Nat.cast_ne_zero.2 k.succ_ne_zero)).map C
    · exact not_dvd_pderiv hv hdvd
  · exact hu hdvd

/-- A prime factor with its full power. -/
theorem exists_eq_pow_mul (hq : Prime q) (hP : P ≠ 0) (h : q ∣ P) :
    ∃ k u, k ≠ 0 ∧ P = q ^ k * u ∧ ¬q ∣ u := by
  obtain ⟨k, u, hu, rfl⟩ := WfDvdMonoid.max_power_factor hP hq.irreducible
  refine ⟨k, u, ?_, rfl, hu⟩
  rintro rfl
  rw [pow_zero, one_mul] at h
  exact hu h

end

/-! ## Multiplicities -/

/-- The product `b` of the primes of multiplicity at least `i` in a polynomial `b ^ i * s`, and what
`d` tells about them. -/
structure LevelSet (v : ℕ) (b d s : MvPolynomial ℕ ℚ) : Prop where
  primitive : PrimitiveIn v b
  squarefree : Squarefree b
  ne_zero : s ≠ 0
  prime_dvd : ∀ q, Prime q → q ∣ s → q ∣ b
  derivative : b * pderiv v s = d * s

namespace LevelSet

variable {v : ℕ} {b d s a b' c q : MvPolynomial ℕ ℚ}

theorem base_ne_zero (h : LevelSet v b d s) : b ≠ 0 := h.squarefree.ne_zero

theorem mem_vars_of_prime (h : LevelSet v b d s) (hq : Prime q) (hb : q ∣ b) : v ∈ q.vars :=
  by_contra fun hv => hq.not_isUnit (h.primitive q hq.ne_zero hv hb dvd_rfl)

/-- The primes that divide `b` and `d` do not divide `s`. -/
theorem prime_not_dvd (h : LevelSet v b d s) (hq : Prime q) (hb : q ∣ b) (hd : q ∣ d) :
    ¬q ∣ s := by
  intro hs
  have hv := h.mem_vars_of_prime hq hb
  obtain ⟨k, t, hk, rfl, ht⟩ := exists_eq_pow_mul hq h.ne_zero hs
  obtain ⟨w, rfl⟩ := hb
  obtain ⟨e, rfl⟩ := hd
  have hw : ¬q ∣ w := fun ⟨z, hz⟩ =>
    hq.not_isUnit (h.squarefree q ⟨z, by rw [hz, mul_assoc]⟩)
  have heq : w * pderiv v (q ^ k * t) = q ^ k * (e * t) := by
    refine mul_left_cancel₀ hq.ne_zero ?_
    linear_combination h.derivative
  exact not_pow_dvd_pderiv hq hv ht hk
    (hq.pow_dvd_of_dvd_mul_left k hw (heq ▸ dvd_mul_right _ _))

/-- The first level: the greatest common divisor with the derivative has every prime one time less. -/
theorem start {p g : MvPolynomial ℕ ℚ} (hp : PrimitiveIn v p) (hp0 : p ≠ 0)
    (hg : ∀ e, e ∣ g ↔ e ∣ p ∧ e ∣ pderiv v p) (hb : p = b * g) (hc : pderiv v p = c * g) :
    LevelSet v b (c - pderiv v b) g where
  primitive := hp.of_dvd ⟨g, hb⟩
  squarefree := by
    rw [squarefree_iff_irreducible_sq_not_dvd_of_ne_zero (left_ne_zero_of_mul (hb ▸ hp0))]
    intro q hq hqq
    have hq := hq.prime
    have hqp : q ∣ p := (dvd_of_mul_left_dvd hqq).trans ⟨g, hb⟩
    obtain ⟨k, u, hk, hpu, hu⟩ := exists_eq_pow_mul hq hp0 hqp
    obtain ⟨k, rfl⟩ := Nat.exists_eq_succ_of_ne_zero hk
    have hgk : q ^ k ∣ g := by
      refine (hg _).2 ⟨hpu ▸ (pow_dvd_pow q k.le_succ).mul_right u, ?_⟩
      rw [hpu, pderiv_mul, pderiv_pow, Nat.succ_sub_one]
      exact dvd_add (((dvd_mul_left _ _).mul_right _).mul_right _)
        ((pow_dvd_pow q k.le_succ).mul_right _)
    obtain ⟨w, rfl⟩ := hqq
    obtain ⟨t, rfl⟩ := hgk
    refine hu ⟨w * t, mul_left_cancel₀ (pow_ne_zero (k + 1) hq.ne_zero) ?_⟩
    rw [← hpu, hb]
    ring
  ne_zero := right_ne_zero_of_mul (hb ▸ hp0)
  prime_dvd q hq hqg := by
    by_contra hqb
    have hv : v ∈ q.vars := by_contra fun hv =>
      hq.not_isUnit (hp q hq.ne_zero hv (hqg.trans ⟨b, hb.trans (mul_comm _ _)⟩) dvd_rfl)
    obtain ⟨k, t, hk, rfl, ht⟩ :=
      exists_eq_pow_mul hq (right_ne_zero_of_mul (hb ▸ hp0)) hqg
    refine not_pow_dvd_pderiv hq hv (u := b * t) (fun h => ?_) hk ?_
    · exact (hq.dvd_or_dvd h).elim hqb ht
    · rw [show q ^ k * (b * t) = p by rw [hb]; ring, hc]
      exact (dvd_mul_right _ _).mul_left c
  derivative := by
    have h := hc
    rw [hb, pderiv_mul] at h
    linear_combination h

/-- A polynomial that has no factor in common with its derivative is the base of the first level. -/
theorem squarefree_of_isUnit {p g : MvPolynomial ℕ ℚ} (hp : PrimitiveIn v p) (hp0 : p ≠ 0)
    (hg : ∀ e, e ∣ g ↔ e ∣ p ∧ e ∣ pderiv v p) (hu : IsUnit g) : Squarefree p := by
  obtain ⟨u, hu⟩ := hu
  have hcancel : ∀ P : MvPolynomial ℕ ℚ, P = P * ↑u⁻¹ * g := fun P => by
    rw [mul_assoc, ← hu, Units.inv_mul, mul_one]
  exact (start hp hp0 hg (hcancel _) (hcancel _)).squarefree.squarefree_of_dvd (dvd_mul_right _ _)

/-- The next level: its primes are those of `b` that divide `s`. -/
theorem next (h : LevelSet v b d s) (ha : ∀ e, e ∣ a ↔ e ∣ b ∧ e ∣ d) (hb : b = b' * a)
    (hd : d = c * a) : ∃ t, s = b' * t ∧ LevelSet v b' (c - pderiv v b') t := by
  have hab : a ≠ 0 := right_ne_zero_of_mul (hb ▸ h.base_ne_zero)
  have hrel : IsRelPrime b' c := fun e heb hec => by
    have hdvd : e * a ∣ a := (ha _).2 ⟨hb ▸ mul_dvd_mul_right heb a, hd ▸ mul_dvd_mul_right hec a⟩
    exact isUnit_of_dvd_one ((mul_dvd_mul_iff_right hab).1 (by rwa [one_mul]))
  have heq : b' * pderiv v s = c * s := by
    refine mul_right_cancel₀ hab ?_
    have hder := h.derivative
    rw [hb, hd] at hder
    linear_combination hder
  obtain ⟨t, ht⟩ := hrel.dvd_of_dvd_mul_left (heq ▸ dvd_mul_right _ _)
  refine ⟨t, ht, h.primitive.of_dvd ⟨a, hb⟩, h.squarefree.squarefree_of_dvd ⟨a, hb⟩,
    right_ne_zero_of_mul (ht ▸ h.ne_zero), fun q hq hqt => ?_, ?_⟩
  · have hqs : q ∣ s := ht ▸ hqt.mul_left b'
    have hqb := h.prime_dvd q hq hqs
    rw [hb] at hqb
    refine (hq.dvd_or_dvd hqb).resolve_right fun hqa => ?_
    obtain ⟨hb, hd⟩ := (ha q).1 hqa
    exact h.prime_not_dvd hq hb hd hqs
  · have hb0 : b' ≠ 0 := left_ne_zero_of_mul (hb ▸ h.base_ne_zero)
    refine mul_left_cancel₀ hb0 ?_
    rw [ht, pderiv_mul] at heq
    linear_combination heq

/-- Without the variable nothing is left. -/
theorem isUnit_of_notMem (h : LevelSet v b d s) (hv : v ∉ b.vars) : IsUnit b ∧ IsUnit s := by
  have hu : IsUnit b := h.primitive.isUnit_of_notMem h.base_ne_zero hv
  refine ⟨hu, ?_⟩
  by_contra hs
  obtain ⟨q, hq, hqs⟩ := WfDvdMonoid.exists_irreducible_factor hs h.ne_zero
  exact hq.not_isUnit (isUnit_of_dvd_unit (h.prime_dvd q hq.prime hqs) hu)

end LevelSet

namespace Poly

/-! ## Factors with multiplicities -/

/-- A factor in normal form, in some variables. -/
structure CanonicalIn (s : Finset ℕ) (f : Poly) : Prop extends GradedIn s f where
  positive : LeadsPositive f.toMv

variable {s : Finset ℕ} {v : ℕ} {p q : Poly}

theorem GradedIn.canonicalIn (h : GradedIn s p) (hp : p.toMv ≠ 0) : CanonicalIn s p.canonical where
  order := order_canonical h.order
  vars := by
    rw [vars_eq_of_associated (associated_canonical p)]
    exact h.vars
  positive := leadsPositive_canonical h.order hp

theorem CanonicalIn.mono {t : Finset ℕ} (h : CanonicalIn s p) (hst : s ⊆ t) : CanonicalIn t p :=
  ⟨⟨h.order, h.vars.trans hst⟩, h.positive⟩

/-- The product of powers. -/
def powerProduct (fs : List (Poly × ℕ)) : MvPolynomial ℕ ℚ := (fs.map fun f => f.1.toMv ^ f.2).prod

@[simp] theorem powerProduct_nil : powerProduct [] = 1 := rfl

@[simp] theorem powerProduct_cons (f : Poly × ℕ) (fs : List (Poly × ℕ)) :
    powerProduct (f :: fs) = f.1.toMv ^ f.2 * powerProduct fs := by
  rw [powerProduct, List.map_cons, List.prod_cons, powerProduct]

/-- The powers of factors in normal form make up a polynomial, up to a constant. -/
structure IsFactorization (s : Finset ℕ) (P : MvPolynomial ℕ ℚ) (fs : List (Poly × ℕ)) : Prop where
  canonical : ∀ f ∈ fs, CanonicalIn s f.1
  multiplicity : ∀ f ∈ fs, f.2 ≠ 0
  associated : Associated P (powerProduct fs)

theorem order_sub (ho : p.order = .grLex) (q : Poly) : (p - q).order = .grLex := ho

theorem order_derivative (ho : p.order = .grLex) : (p.derivative v).order = .grLex := ho

theorem order_exactQuotient {d : Poly} (ho : p.order = .grLex) (h : p.exactQuotient d = .ok q) :
    q.order = .grLex := by
  obtain ⟨hd, hq⟩ := toMv_of_exactQuotient h
  obtain ⟨r, hr, hro⟩ := exists_exactQuotient ho hd ⟨q.toMv, hq.trans (mul_comm _ _)⟩
  rw [h] at hr
  rwa [Except.ok.inj hr]

theorem order_gcd {g : Poly} (hp : p.order = .grLex) (hq : q.order = .grLex)
    (h : p.gcd q = .ok g) : g.order = .grLex := ((returns_gcd hp hq).of_ok h).1

theorem isFactorization_nil {P : MvPolynomial ℕ ℚ} (h : IsUnit P) : IsFactorization s P [] :=
  ⟨nofun, nofun, associated_one_iff_isUnit.2 h⟩

/-- The steps of the decomposition at a level with the polynomial `b ^ i * S`. -/
theorem isFactorization_squareFreeSteps {steps i : ℕ} {b d : Poly} {S : MvPolynomial ℕ ℚ}
    {fs : List (Poly × ℕ)} (hi : i ≠ 0) (hb : GradedIn s b) (hd : d.order = .grLex)
    (hl : LevelSet v b.toMv d.toMv S)
    (hsteps : v ∈ b.toMv.vars → MvPolynomial.degreeOf v S < steps)
    (h : squareFreeSteps v steps i b d = .ok fs) :
    IsFactorization s (b.toMv ^ i * S) fs := by
  induction steps generalizing i b d S fs with
  | zero =>
    obtain rfl := Except.ok.inj h
    have hunit := hl.isUnit_of_notMem fun hv => Nat.not_lt_zero _ (hsteps hv)
    exact isFactorization_nil ((hunit.1.pow i).mul hunit.2)
  | succ steps ih =>
    rw [squareFreeSteps] at h
    split_ifs at h with hv
    · obtain ⟨a, ha, h⟩ := bind_eq_ok h
      obtain ⟨b', hb', h⟩ := bind_eq_ok h
      obtain ⟨c, hc, h⟩ := bind_eq_ok h
      obtain ⟨later, hlater, h⟩ := bind_eq_ok h
      have hv := containsVar_iff.1 hv
      have hbb := (toMv_of_exactQuotient hb').2
      have hdc := (toMv_of_exactQuotient hc).2
      obtain ⟨t, rfl, hnext⟩ := hl.next (isGcd_gcd ha) hbb hdc
      have hb0 := hl.base_ne_zero
      have ha0 : a.toMv ≠ 0 := right_ne_zero_of_mul (hbb ▸ hb0)
      have hab : a.toMv ∣ b.toMv := ⟨_, hbb.trans (mul_comm _ _)⟩
      have has : GradedIn s a := ⟨order_gcd hb.order hd ha,
        (vars_subset_of_dvd hb0 hab).trans hb.vars⟩
      have hrest : IsFactorization s (b'.toMv ^ (i + 1) * t) later := by
        refine ih i.succ_ne_zero ⟨order_exactQuotient hb.order hb',
          (vars_subset_of_dvd hb0 ⟨_, hbb⟩).trans hb.vars⟩
          (order_sub (order_exactQuotient hd hc) _) ?_ (fun hv' => ?_) hlater
        · rw [toMv_sub, toMv_derivative]
          exact hnext
        · have hdeg := hsteps hv
          rw [degreeOf_mul_eq hnext.base_ne_zero hnext.ne_zero] at hdeg
          have := mem_vars_iff_degreeOf_ne_zero.1 hv'
          omega
      have hsplit : b.toMv ^ i * (b'.toMv * t) = a.toMv ^ i * (b'.toMv ^ (i + 1) * t) := by
        rw [hbb]
        ring
      rw [hsplit]
      split_ifs at h with hav
      · obtain rfl := Except.ok.inj h
        refine ⟨List.forall_mem_cons.2 ⟨has.canonicalIn ha0, hrest.canonical⟩,
          List.forall_mem_cons.2 ⟨hi, hrest.multiplicity⟩, ?_⟩
        rw [powerProduct_cons]
        exact ((associated_canonical a).symm.pow_pow).mul_mul hrest.associated
      · obtain rfl := Except.ok.inj h
        refine ⟨hrest.canonical, hrest.multiplicity, ?_⟩
        have hunit : IsUnit a.toMv := (hl.primitive.of_dvd hab).isUnit_of_notMem ha0
          fun hav' => hav (containsVar_iff.2 hav')
        exact (associated_unit_mul_left _ _ (hunit.pow i)).trans hrest.associated
    · obtain rfl := Except.ok.inj h
      have hunit := hl.isUnit_of_notMem fun hv' => hv (containsVar_iff.2 hv')
      exact isFactorization_nil ((hunit.1.pow i).mul hunit.2)

theorem isFactorization_squareFreeFactors {fs : List (Poly × ℕ)} (hp : GradedIn s p)
    (hp0 : p.toMv ≠ 0) (hprim : PrimitiveIn v p.toMv) (h : squareFreeFactors v p = .ok fs) :
    IsFactorization s p.toMv fs := by
  rw [squareFreeFactors] at h
  split_ifs at h with hv
  · obtain ⟨g, hg, h⟩ := bind_eq_ok h
    have hgcd := isGcd_gcd hg
    split_ifs at h
    · obtain rfl := Except.ok.inj h
      refine ⟨List.forall_mem_singleton.2 (hp.canonicalIn hp0),
        List.forall_mem_singleton.2 one_ne_zero, ?_⟩
      rw [powerProduct_cons, powerProduct_nil, pow_one, mul_one]
      exact (associated_canonical p).symm
    · obtain ⟨b, hb, h⟩ := bind_eq_ok h
      obtain ⟨c, hc, h⟩ := bind_eq_ok h
      have hpb := (toMv_of_exactQuotient hb).2
      have hpc := (toMv_of_exactQuotient hc).2
      rw [toMv_derivative] at hpc
      have hl : LevelSet v b.toMv (c.toMv - pderiv v b.toMv) g.toMv :=
        .start hprim hp0 (fun e => by rw [hgcd e, toMv_derivative]) hpb hpc
      have hbs : GradedIn s b := ⟨order_exactQuotient hp.order hb,
        (vars_subset_of_dvd hp0 ⟨_, hpb⟩).trans hp.vars⟩
      have hlast := isFactorization_squareFreeSteps one_ne_zero hbs
        (order_sub (order_exactQuotient (order_derivative hp.order) hc) _)
        (by rwa [toMv_sub, toMv_derivative]) (fun hbv => ?_) h
      · rwa [pow_one, ← hpb] at hlast
      · have := mem_vars_iff_degreeOf_ne_zero.1 hbv
        rw [degreeOf_eq, hpb, degreeOf_mul_eq hl.base_ne_zero hl.ne_zero]
        omega
  · obtain rfl := Except.ok.inj h
    exact isFactorization_nil
      (hprim.isUnit_of_notMem hp0 (containsVar_eq_false_iff.1 (by simpa using hv)))

end Poly

end Cylindrical

end
