import Mathlib
import Cylindrical.Stack.Section
import Cylindrical.Proofs.Poly.Discriminant
import Cylindrical.Proofs.Poly.Specialisation
import Cylindrical.Proofs.Projection.CoefficientScan
import Cylindrical.Proofs.Projection.WellFormed

/-!
# Conclusions from links

A resultant other than zero over a point excludes common roots there, whether degrees drop or not.
For a factor that keeps its degree, the discriminant and the resultant with the derivative differ by
the leading coefficient and exclude multiple roots, and for a quadratic their signs tell whether it
has real roots.  What is concluded from known signs of links is therefore true at every point where
these signs are (`shortcuts_sound`).
-/

noncomputable section

open scoped Polynomial

namespace Cylindrical

namespace Poly

variable {v : ℕ} {p q r d : Poly}

/-! ## Common and multiple roots over a point -/

section

variable {A : Type*} [CommRing A] [RationalAlgebra A]

/-- The resultant is a combination of the two polynomials over every point. -/
theorem exists_value_resultant_eq (hp : 0 < p.degreeOf v) (hq : 0 < q.degreeOf v)
    (h : resultant v p q = .ok r) (x : ℕ → A) :
    ∃ U W : A[X], Polynomial.C (r.value x) = U * p.fiber v x + W * q.fiber v x := by
  obtain ⟨U, W, hUW⟩ := exists_resultant_eq hp hq h
  let φ : MvPolynomial ℕ ℚ →ₐ[ℚ] A := MvPolynomial.aeval x
  refine ⟨U.map φ, W.map φ, ?_⟩
  rw [← map_openVar v x p, ← map_openVar v x q, ← Polynomial.map_mul, ← Polynomial.map_mul,
    ← Polynomial.map_add, ← hUW, Polynomial.map_C]
  rfl

end

variable {x : ℕ → ℝ}

theorem isCoprime_fiber_of_resultant (hp : 0 < p.degreeOf v) (hq : 0 < q.degreeOf v)
    (h : resultant v p q = .ok r) (hr : r.value x ≠ 0) :
    IsCoprime (p.fiber v x) (q.fiber v x) := by
  obtain ⟨U, W, hUW⟩ := exists_value_resultant_eq hp hq h x
  refine ⟨Polynomial.C (r.value x)⁻¹ * U, Polynomial.C (r.value x)⁻¹ * W, ?_⟩
  rw [mul_assoc, mul_assoc, ← mul_add, ← hUW, ← Polynomial.C_mul, inv_mul_cancel₀ hr,
    Polynomial.C_1]

/-- A resultant with the derivative that does not vanish excludes multiple roots. -/
theorem separable_fiber_of_resultant (hm : 2 ≤ p.degreeOf v)
    (h : resultant v p (p.derivative v) = .ok r) (hr : r.value x ≠ 0) :
    (p.fiber v x).Separable := by
  have hderivative : 0 < (p.derivative v).degreeOf v := by
    rw [degreeOf_derivative]
    omega
  have hcoprime := isCoprime_fiber_of_resultant (by omega) hderivative h hr
  rwa [fiber_derivative] at hcoprime

/-- So does a discriminant, where the leading coefficient does not vanish. -/
theorem separable_fiber_of_discriminant (hm : 2 ≤ p.degreeOf v) (h : p.discriminant v = .ok d)
    (hl : (p.leadingCoeffOf v).value x ≠ 0) (hd : d.value x ≠ 0) : (p.fiber v x).Separable := by
  obtain ⟨r, d', hr, hd', hrd⟩ := exists_discriminant hm
  obtain rfl := Except.ok.inj (h.symm.trans hd')
  refine separable_fiber_of_resultant hm hr ?_
  rw [value, hrd, map_mul, map_mul, reversalSign, map_pow, map_neg, map_one]
  exact mul_ne_zero (mul_ne_zero (pow_ne_zero _ (neg_ne_zero.2 one_ne_zero)) hl) hd

/-- Polynomials other than zero of degree below two have no multiple root. -/
theorem separable_of_natDegree_lt_two {P : ℝ[X]} (hP : P ≠ 0) (h : P.natDegree < 2) :
    P.Separable := by
  have hl := Polynomial.leadingCoeff_ne_zero.2 hP
  obtain h0 | h1 : P.natDegree = 0 ∨ P.natDegree = 1 := by omega
  · rw [Polynomial.leadingCoeff, h0] at hl
    rw [Polynomial.eq_C_of_natDegree_eq_zero h0, Polynomial.separable_C]
    exact hl.isUnit
  · rw [Polynomial.leadingCoeff, h1] at hl
    have hderivative : P.derivative = Polynomial.C (P.coeff 1) := by
      have hdegree : P.derivative.natDegree = 0 := by
        rw [Polynomial.natDegree_derivative, h1]
      rw [Polynomial.eq_C_of_natDegree_eq_zero hdegree, Polynomial.coeff_derivative]
      norm_num
    rw [Polynomial.separable_def, hderivative]
    refine ⟨0, Polynomial.C (P.coeff 1)⁻¹, ?_⟩
    rw [zero_mul, zero_add, ← Polynomial.C_mul, inv_mul_cancel₀ hl, Polynomial.C_1]

/-! ## Quadratics without real roots -/

/-- The discriminant of a quadratic. -/
theorem value_discriminant_of_degree_two (hm : p.degreeOf v = 2) (h : p.discriminant v = .ok d)
    (x : ℕ → ℝ) : d.value x =
      (p.fiber v x).coeff 1 ^ 2 - 4 * (p.fiber v x).coeff 2 * (p.fiber v x).coeff 0 := by
  have hdisc := (returns_discriminant hm.ge).of_ok h
  have hdegree : (openVar v p.toMv).degree = 2 :=
    (Polynomial.degree_eq_iff_natDegree_eq_of_pos two_pos).2 ((natDegree_openVar v p).trans hm)
  rw [Polynomial.discr_of_degree_eq_two hdegree, coeff_openVar, coeff_openVar, coeff_openVar]
    at hdisc
  rw [value, hdisc, coeff_fiber, coeff_fiber, coeff_fiber, map_sub, map_mul, map_mul, map_pow,
    map_ofNat]
  simp only [value]
  ring

/-- The resultant of a quadratic and its derivative is the discriminant times the negated leading
coefficient. -/
theorem value_resultant_of_degree_two (hm : p.degreeOf v = 2)
    (h : resultant v p (p.derivative v) = .ok r) (x : ℕ → ℝ) : r.value x = -(p.fiber v x).coeff 2 *
      ((p.fiber v x).coeff 1 ^ 2 - 4 * (p.fiber v x).coeff 2 * (p.fiber v x).coeff 0) := by
  obtain ⟨r', d, hr, hd, hrd⟩ := exists_discriminant hm.ge
  obtain rfl := Except.ok.inj (h.symm.trans hr)
  rw [← value_discriminant_of_degree_two hm hd, value, hrd, map_mul, map_mul, reversalSign, hm,
    map_pow, map_neg, map_one, leadingCoeffOf, hm, coeff_fiber]
  norm_num
  rfl

/-- A quadratic with negative discriminant has the sign of its leading coefficient. -/
theorem ofReal_eval_of_discriminant_neg {P : ℝ[X]} (hP : P.natDegree ≤ 2)
    (h : P.coeff 1 ^ 2 - 4 * P.coeff 2 * P.coeff 0 < 0) (y : ℝ) :
    Sign.ofReal (P.eval y) = .ofReal (P.coeff 2) := by
  have heval : P.eval y = P.coeff 0 + P.coeff 1 * y + P.coeff 2 * y ^ 2 := by
    rw [Polynomial.eval_eq_sum_range' (Nat.lt_succ_of_le hP)]
    simp [Finset.sum_range_succ]
  have hpos : 0 < P.coeff 2 * P.eval y := by
    rw [heval]
    nlinarith [sq_nonneg (2 * P.coeff 2 * y + P.coeff 1)]
  rcases pos_and_pos_or_neg_and_neg_of_mul_pos hpos with ⟨hl, hy⟩ | ⟨hl, hy⟩
  · rw [Sign.ofReal_of_pos hl, Sign.ofReal_of_pos hy]
  · rw [Sign.ofReal_of_neg hl, Sign.ofReal_of_neg hy]

end Poly

namespace Projection

open Cylindrical.Poly

variable {op : ProjectionOperator} {S : LinkSigns} {before : List ProjectionFactor}
  {f g : ProjectionFactor} {x : ℕ → ℝ} {sign : ℕ → Option Sign}

/-! ## Signs that are known at a point -/

/-- What is known of the signs of links is true at a point. -/
def TrueAt (S : LinkSigns) (x : ℕ → ℝ) (sign : ℕ → Option Sign) : Prop :=
  ∀ i s, sign i = some s → S i x = some s

/-- The sign of a link that is known is that of the derived polynomial. -/
theorem Means.ofReal_eq {y : Algebra Poly} {i : ℕ} {s : Sign} (h : Means S y i)
    (hsign : TrueAt S x sign) (hs : sign i = some s) :
    ∃ d, y = .ok d ∧ Sign.ofReal (d.value x) = s := by
  obtain ⟨d, hd, hmeans⟩ := h
  exact ⟨d, hd, Option.some.inj ((hmeans x).symm.trans (hsign i s hs))⟩

theorem exists_of_mayVanish_eq_false {s? : Option Sign}
    (h : ProjectionFactor.mayVanish s? = false) : ∃ s, s? = some s ∧ s ≠ .zero := by
  cases s? with
  | none => simp [ProjectionFactor.mayVanish] at h
  | some s => exact ⟨s, rfl, by simpa [ProjectionFactor.mayVanish] using h⟩

/-- The polynomial whose link tells about multiple roots. -/
def multipleRootPoly (op : ProjectionOperator) (f : ProjectionFactor) : Algebra Poly :=
  match op with
  | .mcCallum => f.poly.discriminant f.level
  | .hong => Poly.resultant f.level f.poly (f.poly.derivative f.level)

theorem ExactLinks.multipleRootLink? (h : ExactLinks op S before f) {i : ℕ} (hm : 2 ≤ f.degree)
    (hi : f.multipleRootLink? op = some i) : Means S (multipleRootPoly op f) i := by
  cases op with
  | mcCallum =>
    have hdisc := h.discriminant rfl
    rw [if_neg (by omega)] at hdisc
    obtain ⟨j, hj, hmeans⟩ := hdisc
    obtain rfl := Option.some.inj (hi.symm.trans hj)
    exact hmeans
  | hong =>
    have hself := h.self rfl
    obtain ⟨m, hm⟩ := Nat.exists_eq_add_of_le hm
    rw [ProjectionFactor.multipleRootLink?] at hi
    rw [show f.degree - 1 = m + 1 by omega, List.range_succ_eq_map] at hself
    cases hl : f.selfLinks with
    | nil => simp [hl] at hi
    | cons j js =>
      rw [hl] at hself hi
      obtain rfl := Option.some.inj hi
      exact (List.forall₂_cons.1 hself).1

/-! ## The three conclusions -/

theorem leadOf_eq_some_iff {P : ℝ[X]} {degree : ℕ} {lead : Sign} :
    leadOf P = some (degree, lead) ↔
      P ≠ 0 ∧ P.natDegree = degree ∧ Sign.ofReal P.leadingCoeff = lead := by
  rw [leadOf]
  split_ifs with h <;> simp [h]

section

variable {degree : ℕ} {lead : Sign} (h : ExactLinks op S before f) (hsign : TrueAt S x sign)
  (hlead : leadOf (f.poly.fiber f.level x) = some (degree, lead))

include h hsign hlead

/-- A factor that is concluded to have no real root has one sign everywhere. -/
theorem ExactLinks.rootlessSign? {s : Sign} (hs : f.rootlessSign? op sign degree lead = some s) :
    s ≠ .zero ∧ ∀ y, Sign.ofReal ((f.poly.fiber f.level x).eval y) = s := by
  obtain ⟨hP, rfl, rfl⟩ := leadOf_eq_some_iff.1 hlead
  set P := f.poly.fiber f.level x
  rw [ProjectionFactor.rootlessSign?] at hs
  split_ifs at hs with hdegrees
  simp only [Bool.or_eq_true, decide_eq_true_eq, not_or, not_not] at hdegrees
  obtain ⟨⟨hdegree, hformal⟩, hzero⟩ := hdegrees
  cases hlink : (f.multipleRootLink? op).bind sign with
  | none => simp [hlink] at hs
  | some σ =>
    obtain ⟨i, hi, hσ⟩ := Option.bind_eq_some_iff.1 hlink
    obtain ⟨d, hd, hdσ⟩ := (h.multipleRootLink? hformal.ge hi).ofReal_eq hsign hσ
    rw [hlink] at hs
    simp only [Option.ite_none_right_eq_some, Option.some.injEq] at hs
    obtain ⟨hrootless, rfl⟩ := hs
    have hl0 : P.coeff 2 ≠ 0 := by
      rw [← hdegree]
      exact Polynomial.leadingCoeff_ne_zero.2 hP
    refine ⟨hzero, fun y => ?_⟩
    rw [Polynomial.leadingCoeff, hdegree]
    refine ofReal_eval_of_discriminant_neg hdegree.le ?_ y
    cases op with
    | mcCallum =>
      rw [beq_iff_eq.1 hrootless, Sign.ofReal_eq_negative] at hdσ
      rwa [← value_discriminant_of_degree_two hformal hd]
    | hong =>
      rw [beq_iff_eq.1 hrootless, Polynomial.leadingCoeff, hdegree] at hdσ
      have hpos := Sign.mul_pos_of_ofReal_eq hl0 hdσ
      rw [value_resultant_of_degree_two hformal hd] at hpos
      have hsq : 0 < P.coeff 2 ^ 2 := by positivity
      nlinarith

/-- A factor that is concluded to have no multiple root has none, complex ones included. -/
theorem ExactLinks.mayHaveMultipleRoot (hm : f.mayHaveMultipleRoot op sign degree = false) :
    (f.poly.fiber f.level x).Separable := by
  obtain ⟨hP, rfl, rfl⟩ := leadOf_eq_some_iff.1 hlead
  rw [ProjectionFactor.mayHaveMultipleRoot] at hm
  split_ifs at hm with hlow hformal
  · exact separable_of_natDegree_lt_two hP hlow
  rw [not_not] at hformal
  rw [not_lt, hformal] at hlow
  obtain ⟨σ, hlink, hσ⟩ := exists_of_mayVanish_eq_false hm
  obtain ⟨i, hi, hσi⟩ := Option.bind_eq_some_iff.1 hlink
  obtain ⟨d, hd, hdσ⟩ := (h.multipleRootLink? hlow hi).ofReal_eq hsign hσi
  have hd0 : d.value x ≠ 0 := fun h0 => hσ (hdσ ▸ h0 ▸ Sign.ofReal_zero)
  cases op with
  | mcCallum =>
    refine separable_fiber_of_discriminant hlow hd ?_ hd0
    rw [leadingCoeffOf, ← coeff_fiber, ← ProjectionFactor.degree, ← hformal]
    exact Polynomial.leadingCoeff_ne_zero.2 hP
  | hong => exact separable_fiber_of_resultant hlow hd hd0

end

/-- The first index of a pair is that of the resultant. -/
theorem eq_zero_of_pairIndices {j : ℕ} {js : List ℕ} (h : pairIndices op f g = j :: js) :
    j = 0 := by
  cases op with
  | mcCallum => exact (List.cons.inj h).1.symm
  | hong =>
    rw [pairIndices] at h
    cases hn : min f.degree (g.poly.degreeOf f.level) with
    | zero => simp [hn] at h
    | succ n =>
      rw [hn, List.range_succ_eq_map] at h
      exact (List.cons.inj h).1.symm

/-- The entry of a factor before this one starts with the resultant. -/
theorem ExactLinks.resultantLink (h : ExactLinks op S before f) {e : ℕ × List ℕ} {i : ℕ}
    (he : e ∈ f.pairLinks) (hi : e.2.head? = some i) :
    ∃ q, before[e.1]? = some q ∧ Means S (Poly.resultant f.level f.poly q.poly) i := by
  obtain ⟨q, hq, hposition, hall⟩ : ∃ q ∈ before.zipIdx,
      PairExact S f (pairIndices op f q.1) q e := by
    obtain ⟨k, hk, rfl⟩ := List.getElem_of_mem he
    obtain ⟨hlength, hget⟩ := List.forall₂_iff_get.1 h.pairs
    exact ⟨_, List.getElem_mem (hlength ▸ hk), hget k (hlength ▸ hk) hk⟩
  refine ⟨q.1, hposition ▸ List.mem_zipIdx_iff_getElem?.1 hq, ?_⟩
  obtain ⟨is, his⟩ := List.head?_eq_some_iff.1 hi
  rw [his] at hall
  cases hjs : pairIndices op f q.1 with
  | nil => simp [hjs] at hall
  | cons j js =>
    rw [hjs] at hall
    obtain rfl := eq_zero_of_pairIndices hjs
    exact (List.forall₂_cons.1 hall).1

/-- A factor that is concluded to have no root in common with one before it has none, complex ones
included, also where degrees drop. -/
theorem ExactLinks.mayShareRoot (h : ExactLinks op S before f) (hsign : TrueAt S x sign)
    (hf : 0 < f.poly.degreeOf f.level) (hbefore : ∀ q ∈ before, 0 < q.poly.degreeOf f.level) {j : ℕ}
    (hj : f.mayShareRoot sign j = false) : ∃ q, before[j]? = some q ∧
      IsCoprime (f.poly.fiber f.level x) (q.poly.fiber f.level x) := by
  obtain ⟨σ, hlink, hσ⟩ := exists_of_mayVanish_eq_false hj
  obtain ⟨i, hi, hσi⟩ := Option.bind_eq_some_iff.1 hlink
  obtain ⟨e, hfind, hhead⟩ : ∃ e, f.pairLinks.find? (fun p => p.1 == j) = some e ∧
      e.2.head? = some i := by
    rw [Option.join_eq_some_iff] at hi
    exact Option.map_eq_some_iff.1 hi
  obtain ⟨q, hq, hmeans⟩ := h.resultantLink (List.mem_of_find?_eq_some hfind) hhead
  have hposition := List.find?_some hfind
  obtain rfl := beq_iff_eq.1 hposition
  obtain ⟨d, hd, hdσ⟩ := hmeans.ofReal_eq hsign hσi
  refine ⟨q, hq, isCoprime_fiber_of_resultant hf (hbefore q (List.mem_of_getElem? hq)) hd ?_⟩
  exact fun h0 => hσ (hdσ ▸ h0 ▸ Sign.ofReal_zero)

/-! ## The factors of a level -/

section

variable {truncate : Bool} {atoms : List Poly} {n : ℕ} {s t : State} {p : Projection}
  {links : List ℕ}

theorem degreeOf_pos_of_project (hatoms : ∀ a ∈ atoms, reservedVar ∉ a.vars)
    (h : project op truncate atoms n s = .ok (p, links) t) {level : ℕ} :
    ∀ f ∈ p.factors level, 0 < f.poly.degreeOf level := by
  obtain ⟨-, hclosed, -, -⟩ := project_spec h
  obtain ⟨u, hrun⟩ := ofAtoms_of_project h
  have hempty : ∀ l, (List.replicate n ([] : List Poly)).getD l [] = [] := fun l => by
    rw [List.getD_eq_getElem?_getD, List.getElem?_replicate]
    split_ifs <;> rfl
  obtain ⟨hwell, -⟩ := ofAtoms_wellFormed hempty (fun a ha hv => hatoms a ha (mem_vars_iff.2 hv))
    hclosed hrun level
  exact fun f hf => (hwell f hf).degree

/-- The factors of a level that are concluded to have no root in common. -/
theorem exists_isCoprime_of_mayShareRoot {fs : List ProjectionFactor} {level i j : ℕ}
    (hexact : LevelExact op S level fs) (hsign : TrueAt S x sign)
    (hdegree : ∀ f ∈ fs, 0 < f.poly.degreeOf level) (hf : fs[i]? = some f)
    (hj : f.mayShareRoot sign j = false) : ∃ g, fs[j]? = some g ∧
      IsCoprime (f.poly.fiber level x) (g.poly.fiber level x) := by
  obtain ⟨rfl, hlinks⟩ := hexact i f hf
  obtain ⟨g, hg, hcoprime⟩ := hlinks.mayShareRoot hsign (hdegree f (List.mem_of_getElem? hf))
    (fun q hq => hdegree q (List.mem_of_mem_take hq)) hj
  rw [List.getElem?_take] at hg
  split_ifs at hg
  exact ⟨g, hg, hcoprime⟩

/-- A root and a section that are concluded to differ belong to factors without a common root. -/
theorem exists_isCoprime_of_mayEqual {fs : List ProjectionFactor} {level : ℕ}
    (hexact : LevelExact op S level fs) {c : Cylinder} (hsign : TrueAt S x c.sign)
    (hdegree : ∀ f ∈ fs, 0 < f.poly.degreeOf level) (hc : c.factors = fs) {r : FactorRoot}
    {s : Section} (hr : s.has r.factor = false) (hequal : Section.mayEqual c r s = false)
    {o : ℕ × ℕ} (ho : o ∈ s.orders) : ∃ f g, fs[r.factor]? = some f ∧ fs[o.1]? = some g ∧
      IsCoprime (f.poly.fiber level x) (g.poly.fiber level x) := by
  rw [Section.mayEqual, hr, Bool.not_false, Bool.true_and, List.any_eq_false, hc] at hequal
  have hshare := Bool.eq_false_iff.2 (hequal o ho)
  rw [List.getD_eq_getElem?_getD] at hshare
  cases hmax : fs[max r.factor o.1]? with
  | none =>
    rw [hmax] at hshare
    exact absurd hshare Bool.true_eq_false.mp
  | some f =>
    rw [hmax, Option.getD_some] at hshare
    obtain ⟨g, hg, hcoprime⟩ :=
      exists_isCoprime_of_mayShareRoot hexact hsign hdegree hmax hshare
    rcases le_total r.factor o.1 with hle | hle
    · rw [max_eq_right hle] at hmax
      rw [min_eq_left hle] at hg
      exact ⟨g, f, hg, hmax, hcoprime.symm⟩
    · rw [max_eq_left hle] at hmax
      rw [min_eq_right hle] at hg
      exact ⟨f, g, hmax, hg, hcoprime⟩

end

end Projection

end Cylindrical

end
