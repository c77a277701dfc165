import Mathlib
import Cylindrical.Proofs.Poly.CoprimeBasis
import Cylindrical.Proofs.Poly.Factorization
import Cylindrical.Proofs.Poly.GaussLemma
import Cylindrical.Proofs.Poly.RationalRoots

/-!
# Splitting off linear factors

The linear polynomials of different roots are coprime, so all of them can be divided out one after the
other.  A square-free polynomial has each root once, and what is left has none of those that were
found: a factor of higher degree with small extreme coefficients has no rational root
(`returns_splitLinear`).
-/

noncomputable section

open MvPolynomial

namespace Cylindrical

namespace Poly

variable {v : ℕ} {p q r : Poly} {x y : ℚ} {cs : List ℚ}

/-! ## Polynomials in one variable -/

theorem coeff_single_aeval (v k : ℕ) (P : Polynomial ℚ) :
    MvPolynomial.coeff (Finsupp.single v k) (Polynomial.aeval (X v : MvPolynomial ℕ ℚ) P) =
      P.coeff k := by
  induction P using Polynomial.induction_on' with
  | add P Q hP hQ => rw [map_add, MvPolynomial.coeff_add, hP, hQ, Polynomial.coeff_add]
  | monomial n c =>
    rw [Polynomial.aeval_monomial, MvPolynomial.algebraMap_eq, MvPolynomial.coeff_C_mul, coeff_X_pow,
      Polynomial.coeff_monomial]
    by_cases h : n = k
    · rw [if_pos (by rw [h]), if_pos h, mul_one]
    · rw [if_neg fun hs => h (Finsupp.single_injective v hs), if_neg h, mul_zero]

theorem length_univariate? (h : p.univariate? v = some cs) : cs.length = p.degreeOf v + 1 := by
  rw [univariate?] at h
  split_ifs at h
  obtain rfl := Option.some.inj h
  rw [List.length_map, coeffs, List.length_map, List.length_range]

theorem getElem_univariate? (h : p.univariate? v = some cs) {k : ℕ} (hk : k < cs.length) :
    cs[k] = MvPolynomial.coeff (Finsupp.single v k) p.toMv := by
  rw [toMv_of_univariate? h, coeff_single_aeval, Univariate.coeff_toPolynomial,
    List.getD_eq_getElem _ _ hk]

/-- The coefficients of a canonical form are integers, and the last one is not zero. -/
theorem den_of_univariate? (hp : IsCanonical p) (h : p.univariate? v = some cs) :
    ∀ c ∈ cs, c.den = 1 := by
  intro c hc
  obtain ⟨k, hk, rfl⟩ := List.mem_iff_getElem.1 hc
  rw [getElem_univariate? h hk]
  by_cases hm : Finsupp.single v k ∈ p.toMv.support
  · obtain ⟨t, ht, htk⟩ := mem_support_toMv.1 hm
    rw [← htk, coeff_toMv ht]
    exact den_coeff_of_content (hp.canonical ▸ content_canonical p) ht
  · rw [MvPolynomial.notMem_support_iff.1 hm]
    rfl

theorem exists_getLast?_univariate? (hp0 : p.toMv ≠ 0) (h : p.univariate? v = some cs) :
    ∃ b, b ≠ 0 ∧ cs.getLast? = some b := by
  have hlead := toMv_coeff_of_univariate? h (p.degreeOf v)
  refine ⟨(p.leadingCoeffOf v).constantValue, fun h0 => ?_, ?_⟩
  · rw [leadingCoeffOf] at h0
    rw [h0, C_0] at hlead
    exact leadingCoeffOf_ne_zero hp0 hlead
  · rw [univariate?] at h
    split_ifs at h
    obtain rfl := Option.some.inj h
    rw [coeffs, List.range_succ, List.map_append, List.map_append, List.map_singleton,
      List.map_singleton, List.getLast?_concat, leadingCoeffOf]

/-! ## Values -/

/-- The value of a polynomial where all variables are the same number. -/
def valueAt (x : ℚ) : MvPolynomial ℕ ℚ →ₐ[ℚ] ℚ := aeval fun _ => x

theorem valueAt_aeval (x : ℚ) (v : ℕ) (P : Polynomial ℚ) :
    valueAt x (Polynomial.aeval (X v : MvPolynomial ℕ ℚ) P) = P.eval x := by
  rw [← Polynomial.aeval_algHom_apply, valueAt, aeval_X, Polynomial.coe_aeval_eq_eval]

theorem eval_univariate? (h : p.univariate? v = some cs) (x : ℚ) :
    Univariate.eval cs x = valueAt x p.toMv := by
  rw [toMv_of_univariate? h, valueAt_aeval, Univariate.eval_toPolynomial]

theorem valueAt_eq_zero_of_dvd {P Q : MvPolynomial ℕ ℚ} (h : P ∣ Q) (hP : valueAt x P = 0) :
    valueAt x Q = 0 := by
  obtain ⟨R, rfl⟩ := h
  rw [map_mul, hP, zero_mul]

/-- A root of a polynomial in one variable belongs to a linear factor. -/
theorem X_sub_C_dvd (hv : ∀ w ∈ p.toMv.vars, w = v) (hx : valueAt x p.toMv = 0) :
    X v - C x ∣ p.toMv := by
  obtain ⟨cs, hcs⟩ := exists_univariate? hv
  have hp := toMv_of_univariate? hcs
  rw [hp, valueAt_aeval] at hx
  rw [hp]
  simpa using map_dvd (Polynomial.aeval (X v : MvPolynomial ℕ ℚ)) (Polynomial.dvd_iff_isRoot.2 hx)

theorem X_dvd (hv : ∀ w ∈ p.toMv.vars, w = v) (hx : valueAt 0 p.toMv = 0) : X v ∣ p.toMv := by
  have h := X_sub_C_dvd hv hx
  rwa [C_0, sub_zero] at h

theorem toMv_linearFactor (v : ℕ) (x : ℚ) :
    (linearFactor v x).toMv = C (x.den : ℚ) * (X v - C x) := by
  have hx : (x.den : ℚ) * x = x.num := Rat.den_mul_eq_num x
  rw [linearFactor, toMv_univariate]
  simp only [Univariate.toPolynomial_cons, Univariate.toPolynomial_nil, zero_mul, zero_add, map_add,
    map_mul, Polynomial.aeval_C, Polynomial.aeval_X, MvPolynomial.algebraMap_eq]
  rw [mul_sub, ← C_mul, hx]
  push_cast
  rw [C_neg]
  ring

theorem associated_linearFactor (v : ℕ) (x : ℚ) :
    Associated (linearFactor v x).toMv (X v - C x) := by
  rw [toMv_linearFactor]
  refine associated_unit_mul_left _ _ ((isUnit_iff_ne_zero.2 ?_).map C)
  exact Nat.cast_ne_zero.2 x.den_ne_zero

theorem totalDegree_X_sub_C (v : ℕ) (x : ℚ) : (X v - C x : MvPolynomial ℕ ℚ).totalDegree ≤ 1 := by
  refine (totalDegree_sub _ _).trans (max_le ?_ ?_)
  · rw [totalDegree_X]
  · rw [totalDegree_C]
    exact Nat.zero_le 1

/-- The linear polynomials of different roots are coprime. -/
theorem isCoprime_X_sub_C (h : x ≠ y) : IsCoprime (X v - C x : MvPolynomial ℕ ℚ) (X v - C y) := by
  refine ⟨C (y - x)⁻¹, -C (y - x)⁻¹, ?_⟩
  have hxy : (y - x)⁻¹ * (y - x) = 1 := inv_mul_cancel₀ (sub_ne_zero.2 h.symm)
  calc C (y - x)⁻¹ * (X v - C x) + -C (y - x)⁻¹ * (X v - C y)
      = C ((y - x)⁻¹ * (y - x)) := by
        rw [C_mul, C_sub]
        ring
    _ = 1 := by rw [hxy, C_1]

theorem valueAt_X_sub_C (v : ℕ) (x : ℚ) : valueAt x (X v - C x) = 0 := by
  simp [valueAt]

theorem X_sub_C_ne_zero (v : ℕ) (x : ℚ) : (X v - C x : MvPolynomial ℕ ℚ) ≠ 0 := fun h => by
  have hvalue := congrArg (valueAt (x + 1)) h
  simp [valueAt] at hvalue

/-- The linear polynomial is not a unit, since it has a root. -/
theorem not_isUnit_X_sub_C (v : ℕ) (x : ℚ) : ¬IsUnit (X v - C x : MvPolynomial ℕ ℚ) := fun h => by
  have := h.map (valueAt x)
  rw [valueAt_X_sub_C] at this
  exact not_isUnit_zero this

/-! ## Roots that are split off -/

theorem returns_splitRoots {xs : List ℚ} (ho : p.order = .grLex) (hxs : xs.Nodup)
    (hdvd : ∀ x ∈ xs, X v - C x ∣ p.toMv) : Returns (splitRoots v p xs) fun r =>
      r.1 = xs.map (fun x => (linearFactor v x).canonical) ∧ r.2.order = .grLex := by
  induction xs generalizing p with
  | nil => exact .ok ⟨rfl, ho⟩
  | cons x xs ih =>
    obtain ⟨hx, hxs⟩ := List.nodup_cons.1 hxs
    obtain ⟨hxp, hdvd⟩ := List.forall_mem_cons.1 hdvd
    have hassoc := associated_linearFactor v x
    have h0 := hassoc.ne_zero_iff.2 (X_sub_C_ne_zero v x)
    obtain ⟨q, hq, hqo⟩ := exists_exactQuotient ho h0 (hassoc.dvd.trans hxp)
    have hmul := (toMv_of_exactQuotient hq).2
    rw [splitRoots, hq]
    refine (ih hqo hxs fun y hy => ?_).bind fun r hr => .ok ⟨?_, hr.2⟩
    · have hne : y ≠ x := fun h => hx (h ▸ hy)
      refine (isCoprime_X_sub_C hne).isRelPrime.dvd_of_dvd_mul_right ?_
      exact (hmul ▸ hdvd y hy).trans (hassoc.mul_left q.toMv).dvd
    · rw [hr.1, List.map_cons]

theorem dvd_product_of_mem {f : Poly} {fs : List Poly} (h : f ∈ fs) : f.toMv ∣ product fs :=
  List.dvd_prod (List.mem_map_of_mem h)

/-- What is left of a square-free polynomial has none of the roots that were split off. -/
theorem valueAt_ne_zero_of_splitRoots {xs : List ℚ} {fs : List Poly} (hsq : Squarefree p.toMv)
    (hv : ∀ w ∈ p.toMv.vars, w = v) (hfs : fs = xs.map fun x => (linearFactor v x).canonical)
    (hmul : Associated p.toMv (product fs * r.toMv)) (hx : x ∈ xs) : valueAt x r.toMv ≠ 0 := by
  intro hr
  have hrp : r.toMv ∣ p.toMv := (dvd_mul_left _ _).trans hmul.symm.dvd
  have hxr : X v - C x ∣ r.toMv :=
    X_sub_C_dvd (fun w hw => hv w (vars_subset_of_dvd hsq.ne_zero hrp hw)) hr
  have hxfs : X v - C x ∣ product fs := by
    refine ((associated_linearFactor v x).symm.trans (associated_canonical _).symm).dvd.trans ?_
    exact dvd_product_of_mem (hfs ▸ List.mem_map_of_mem hx)
  exact not_isUnit_X_sub_C v x (hsq _ ((mul_dvd_mul hxfs hxr).trans hmul.symm.dvd))

/-! ## Factors of higher degree -/

/-- If the polynomial is of degree two or more in a single variable, and its extreme coefficients are
within the limit, it has no rational root. -/
def RootFree (f : Poly) : Prop :=
  ∀ v cs, f.univariate? v = some cs → 3 ≤ cs.length → (∀ a ∈ cs.head?, |a| ≤ 2 ^ 40) →
    (∀ b ∈ cs.getLast?, |b| ≤ 2 ^ 40) → ∀ x, Univariate.eval cs x ≠ 0

theorem rootFree_of_totalDegree_le (h : p.totalDegree ≤ 1) : RootFree p := fun v cs hcs hlen => by
  have := length_univariate? hcs
  have := degreeOf_le_totalDegree v p
  omega

/-- A nonconstant normal form. -/
structure Splittable (f : Poly) : Prop extends IsCanonical f where
  isNumber : f.isNumber = false

theorem Splittable.not_isUnit {f : Poly} (h : Splittable f) : ¬IsUnit f.toMv := fun hu => by
  have hn := h.isNumber
  rw [(isUnit_iff_isNumber h.ne_zero).1 hu] at hn
  cases hn

theorem splittable_canonical (ho : p.order = .grLex) (h0 : p.toMv ≠ 0) (hv : v ∈ p.toMv.vars) :
    Splittable p.canonical where
  toIsCanonical := .of_canonical ho h0
  isNumber := by
    rw [Bool.eq_false_iff]
    intro hn
    rw [isNumber_iff_vars, vars_eq_of_associated (associated_canonical p)] at hn
    exact absurd (hn ▸ hv) (Finset.notMem_empty v)

/-- What splitting may end with: a nonconstant normal form without roots that the search can find. -/
structure FullySplit (f : Poly) : Prop extends Splittable f where
  rootFree : RootFree f

theorem FullySplit.linear {f : Poly} (hf : IsCanonical f) (h : Associated f.toMv (X v - C x)) :
    FullySplit f where
  toIsCanonical := hf
  isNumber := by
    rw [Bool.eq_false_iff]
    exact fun hn => not_isUnit_X_sub_C v x (h.isUnit ((isUnit_iff_isNumber hf.ne_zero).2 hn))
  rootFree := by
    refine rootFree_of_totalDegree_le ?_
    rw [totalDegree_eq]
    obtain ⟨u, hu⟩ := h.symm
    obtain ⟨c, -, hc⟩ := MvPolynomial.isUnit_iff_eq_C_of_isReduced.1 u.isUnit
    rw [← hu, hc]
    refine (totalDegree_mul _ _).trans ?_
    rw [totalDegree_C, add_zero]
    exact totalDegree_X_sub_C v x

/-- Only one variable has coefficients. -/
theorem eq_of_univariate? {w : ℕ} {ds : List ℚ} (hv : v ∈ p.toMv.vars)
    (hcs : p.univariate? v = some cs) (hds : p.univariate? w = some ds) : w = v ∧ ds = cs := by
  obtain rfl := mem_vars_of_univariate? hds hv
  exact ⟨rfl, Option.some.inj (hds.symm.trans hcs)⟩

/-- Nothing is promised about a polynomial with an extreme coefficient beyond the limit. -/
theorem rootFree_of_limit_lt {a b : ℚ} (hp : IsCanonical p) (hvp : v ∈ p.toMv.vars)
    (hcs : p.univariate? v = some cs) (ha : cs.head? = some a) (hb : cs.getLast? = some b)
    (h : divisorLimit < a.num.natAbs ∨ divisorLimit < b.num.natAbs) : RootFree p := by
  intro w ds hds _ hda hdb
  obtain ⟨rfl, rfl⟩ := eq_of_univariate? hvp hcs hds
  have hint := den_of_univariate? hp hcs
  rcases h with h | h
  · have hle := natAbs_num_le_divisorLimit (hint a (List.mem_of_mem_head? ha)) (hda a ha)
    exact absurd hle (not_le.2 h)
  · have hle := natAbs_num_le_divisorLimit (hint b (List.mem_of_getLast? hb)) (hdb b hb)
    exact absurd hle (not_le.2 h)

/-- What is left after the search is fully split: either the search was complete, or the extreme
coefficients are beyond the limit. -/
theorem fullySplit_rest {fs : List Poly} (hp : IsCanonical p) (hsq : Squarefree p.toMv)
    (h0 : valueAt 0 p.toMv ≠ 0) (hcs : p.univariate? v = some cs)
    (hrun : splitRoots v p (rationalRoots cs) = .ok (fs, r))
    (hfs : fs = (rationalRoots cs).map fun x => (linearFactor v x).canonical)
    (hro : r.order = .grLex) (hmul : Associated p.toMv (product fs * r.toMv))
    (hrv : v ∈ r.toMv.vars) : FullySplit r.canonical where
  toSplittable :=
    splittable_canonical hro (right_ne_zero_of_mul (hmul.ne_zero_iff.1 hp.ne_zero)) hrv
  rootFree := by
    obtain ⟨b, hb0, hb⟩ := exists_getLast?_univariate? hp.ne_zero hcs
    obtain ⟨a, as, rfl⟩ : ∃ a as, cs = a :: as :=
      List.exists_cons_of_ne_nil (List.ne_nil_of_mem (List.mem_of_getLast? hb))
    by_cases hlimit : a.num.natAbs ≤ divisorLimit ∧ b.num.natAbs ≤ divisorLimit
    · intro w ds hds _ _ _ x hx
      rw [eval_univariate? hds] at hx
      have hxr := valueAt_eq_zero_of_dvd (associated_canonical r).dvd hx
      have hxp := valueAt_eq_zero_of_dvd ((dvd_mul_left _ _).trans hmul.symm.dvd) hxr
      have ha0 : a ≠ 0 := by
        rw [← eval_univariate? hcs] at h0
        simpa [Univariate.eval] using h0
      rw [← eval_univariate? hcs] at hxp
      have hx := mem_rationalRoots (den_of_univariate? hp hcs) rfl hb ha0 hb0 hlimit.1 hlimit.2 hxp
      exact valueAt_ne_zero_of_splitRoots hsq (fun _ => mem_vars_of_univariate? hcs) hfs hmul hx hxr
    · rw [not_and_or, not_le, not_le] at hlimit
      -- nothing was split off
      rw [rationalRoots_eq_nil rfl hb hlimit] at hrun
      cases hrun
      rw [hp.canonical]
      exact rootFree_of_limit_lt hp hrv hcs rfl hb hlimit

/-- The end of the splitting, when some linear factors have been split off. -/
theorem returns_splitRest (zs : List Poly) (hzs : ∀ f ∈ zs, FullySplit f)
    (hp : IsCanonical p) (hsq : Squarefree p.toMv) (h0 : valueAt 0 p.toMv ≠ 0)
    (hv : ∀ w ∈ p.toMv.vars, w = v) :
    Returns (do
      let (fs, r) ← splitRoots v p (rationalRoots ((p.univariate? v).getD []))
      return if r.containsVar v then zs ++ fs ++ [r.canonical] else zs ++ fs)
      fun fs => ∀ f ∈ fs, FullySplit f := by
  obtain ⟨cs, hcs⟩ := exists_univariate? hv
  obtain ⟨hnodup, hroots⟩ := rationalRoots_spec cs
  rw [hcs, Option.getD_some]
  obtain ⟨⟨fs, r⟩, hrun, hfs, hro⟩ := returns_splitRoots (v := v) hp.order hnodup fun x hx =>
    X_sub_C_dvd hv ((eval_univariate? hcs x).symm.trans (hroots x hx))
  simp only at hfs hro
  obtain ⟨-, -, hmul⟩ := splitRoots_spec (s := p.toMv.vars) ⟨hp.order, subset_rfl⟩ hp.ne_zero hrun
  rw [hrun]
  refine .ok ?_
  have hlinear : ∀ f ∈ fs, FullySplit f := by
    intro f hf
    rw [hfs] at hf
    obtain ⟨x, -, rfl⟩ := List.mem_map.1 hf
    have hassoc := associated_linearFactor v x
    exact .linear (.of_canonical rfl (hassoc.ne_zero_iff.2 (X_sub_C_ne_zero v x)))
      ((associated_canonical _).trans hassoc)
  have hall : ∀ f ∈ zs ++ fs, FullySplit f := List.forall_mem_append.2 ⟨hzs, hlinear⟩
  split_ifs with hrv
  · exact List.forall_mem_append.2 ⟨hall, List.forall_mem_singleton.2
      (fullySplit_rest hp hsq h0 hcs hrun hfs hro hmul (containsVar_iff.1 hrv))⟩
  · exact hall

theorem isCanonical_var (v : ℕ) : IsCanonical (var v) :=
  isCanonical_of rfl (by rw [toMv_var]; exact .X v)
    (canonicalIn_var (Finset.mem_singleton_self v)).positive

/-- The variable is a factor of a polynomial with the root zero, and what is left has not got it. -/
theorem exists_exactQuotient_var (hp : IsCanonical p) (hsq : Squarefree p.toMv)
    (hv : ∀ w ∈ p.toMv.vars, w = v) (hx : valueAt 0 p.toMv = 0) :
    ∃ rest, p.exactQuotient (var v) = .ok rest ∧ IsCanonical rest ∧ Squarefree rest.toMv ∧
      (∀ w ∈ rest.toMv.vars, w = v) ∧ valueAt 0 rest.toMv ≠ 0 := by
  obtain ⟨rest, hrest, hro⟩ := exists_exactQuotient hp.order (isCanonical_var v).ne_zero
    ((toMv_var v).symm ▸ X_dvd hv hx)
  have hmul := (toMv_of_exactQuotient hrest).2
  have hdvd : rest.toMv ∣ p.toMv := ⟨_, hmul⟩
  have hvars : ∀ w ∈ rest.toMv.vars, w = v := fun w hw =>
    hv w (vars_subset_of_dvd hp.ne_zero hdvd hw)
  refine ⟨rest, hrest, hp.quotient (isCanonical_var v) hro hmul, hsq.squarefree_of_dvd hdvd, hvars,
    fun h0 => ?_⟩
  have hsquare : X v * X v ∣ p.toMv := by
    rw [hmul, toMv_var]
    exact mul_dvd_mul_right (X_dvd hvars h0) (X v)
  refine not_isUnit_X_sub_C v 0 ?_
  rw [C_0, sub_zero]
  exact hsq _ hsquare

/-- A square-free normal form is always split, into factors that have no further roots. -/
theorem returns_splitLinear (hp : Splittable p) (hsq : Squarefree p.toMv) :
    Returns p.splitLinear fun fs => ∀ f ∈ fs, FullySplit f := by
  rw [splitLinear]
  cases hv : p.mainVar? with
  | none =>
    exact absurd (mainVar?_eq_none_iff.1 hv) (Bool.eq_false_iff.1 hp.isNumber)
  | some v =>
    have hvp := mem_vars_of_mainVar? hv
    simp only [hp.canonical]
    cases hcs : p.univariate? v with
    | none =>
      refine .ok (List.forall_mem_singleton.2 ⟨hp, fun w ds hds => ?_⟩)
      obtain rfl := mem_vars_of_univariate? hds hvp
      rw [hcs] at hds
      cases hds
    | some cs =>
      have hvars : ∀ w ∈ p.toMv.vars, w = v := fun _ => mem_vars_of_univariate? hcs
      simp only
      by_cases hlen : cs.length ≤ 2
      · rw [if_pos hlen]
        refine .ok (List.forall_mem_singleton.2 ⟨hp, fun w ds hds hlen' => ?_⟩)
        obtain ⟨rfl, rfl⟩ := eq_of_univariate? hvp hcs hds
        omega
      rw [if_neg hlen]
      have hhead : (cs.head? == some 0) = true ↔ valueAt 0 p.toMv = 0 := by
        rw [← eval_univariate? hcs, beq_iff_eq]
        cases cs with
        | nil => exact absurd (Nat.zero_le 2) hlen
        | cons a as => simp [Univariate.eval]
      by_cases hzero : (cs.head? == some 0) = true
      · obtain ⟨rest, hrest, hcanonical, hsq, hv, h0⟩ :=
          exists_exactQuotient_var hp.toIsCanonical hsq hvars (hhead.1 hzero)
        simp only [hzero, if_true, hrest]
        have hvar : FullySplit (var v) :=
          .linear (x := 0) (isCanonical_var v) (by rw [toMv_var, C_0, sub_zero])
        exact returns_splitRest [var v] (List.forall_mem_singleton.2 hvar) hcanonical hsq h0 hv
      · have h0 : valueAt 0 p.toMv ≠ 0 := fun h => hzero (hhead.2 h)
        simp only [hzero, Bool.false_eq_true, if_false]
        exact returns_splitRest [] (List.forall_mem_nil _) hp.toIsCanonical hsq h0 hvars

end Poly

end Cylindrical

end
