import Mathlib
import Cylindrical.Proofs.Poly.CanonicalGcd
import Cylindrical.Proofs.Poly.CompleteFactorization

/-!
# Polynomials in one variable

All monomial orders agree on the powers of one variable, so polynomials in it that stand for the same
one have the same terms whatever their orders (`Alike.of_toMv`).  Each step of the factorization
follows the same step for the polynomial in another order, with results that are alike again
(`follows_factor`): what is known of factorizations in graded lexicographic order holds in all orders.
-/

noncomputable section

open MvPolynomial

namespace Cylindrical

/-! ## Powers of one variable -/

/-- In every order the larger of two powers is the one with the larger exponent. -/
theorem MonomialOrder.lt_of_exponentLT_single {o : MonomialOrder} {v i j : ℕ}
    (h : o.ExponentLT (Finsupp.single v i) (Finsupp.single v j)) : i < j := by
  have hother : ∀ {w k : ℕ}, w ≠ v → (Finsupp.single v k : ℕ →₀ ℕ) w = 0 :=
    fun hw => Finsupp.single_eq_of_ne hw
  cases o with
  | lex =>
    obtain ⟨w, hw, -⟩ := h
    by_cases hwv : w = v
    · subst hwv
      simpa using hw
    · rw [hother hwv, hother hwv] at hw
      omega
  | grLex =>
    rcases h with h | ⟨-, w, hw, -⟩
    · simpa [Finsupp.degree_single] using h
    · by_cases hwv : w = v
      · subst hwv
        simpa using hw
      · rw [hother hwv, hother hwv] at hw
        omega
  | gRevLex =>
    rcases h with h | ⟨hd, w, hw, -⟩
    · simpa [Finsupp.degree_single] using h
    · simp only [Finsupp.degree_single] at hd
      rw [hd] at hw
      omega

theorem vars_pderiv_subset (v : ℕ) (P : MvPolynomial ℕ ℚ) : (pderiv v P).vars ⊆ P.vars := by
  intro w hw
  obtain ⟨m, hm, hmw⟩ := (mem_vars_iff_mem_support w).1 hw
  rw [mem_support_iff, coeff_pderiv] at hm
  refine (mem_vars_iff_mem_support w).2 ⟨_, mem_support_iff.2 (left_ne_zero_of_mul hm), ?_⟩
  rw [Finsupp.mem_support_iff] at hmw ⊢
  rw [Finsupp.add_apply]
  omega

/-! ## Computations side by side -/

/-- Whenever the second computation returns, so does the first, with a result that is related. -/
def Follows {α β : Type} (R : α → β → Prop) (x : Algebra α) (y : Algebra β) : Prop :=
  ∀ b, y = .ok b → Returns x fun a => R a b

namespace Follows

variable {α β γ δ : Type} {R : α → β → Prop} {S : γ → δ → Prop} {x : Algebra α} {y : Algebra β}

theorem ok {a : α} {b : β} (h : R a b) : Follows R (.ok a) (.ok b) := fun _ hb =>
  ⟨a, rfl, Except.ok.inj hb ▸ h⟩

theorem bind {f : α → Algebra γ} {g : β → Algebra δ} (h : Follows R x y)
    (hf : ∀ a b, R a b → Follows S (f a) (g b)) : Follows S (x >>= f) (y >>= g) := by
  intro d hd
  obtain ⟨b, hb, hd⟩ := bind_eq_ok hd
  exact (h b hb).bind fun a hab => hf a b hab d hd

end Follows

namespace Poly

/-- Polynomials in `v` alone with the same terms, whatever their orders. -/
structure Alike (v : ℕ) (p q : Poly) : Prop where
  terms : p.terms = q.terms
  vars : ∀ w ∈ p.toMv.vars, w = v

variable {v : ℕ} {p q p' q' : Poly}

theorem toFinsupp_eq_single (hv : ∀ w ∈ p.toMv.vars, w = v) {t : Term} (ht : t ∈ p.terms) :
    t.monomial.toFinsupp = Finsupp.single v (t.monomial.degreeOf v) := by
  ext w
  rw [Finsupp.single_apply, Monomial.toFinsupp_apply]
  split_ifs with hw
  · rw [hw]
  · by_contra h0
    refine hw (hv w ((mem_vars_iff_mem_support w).2 ⟨_, mem_support_toMv.2 ⟨t, ht, rfl⟩, ?_⟩)).symm
    rwa [Finsupp.mem_support_iff, Monomial.toFinsupp_apply]

/-- The terms are in descending order of the exponent. -/
theorem pairwise_degreeOf (hv : ∀ w ∈ p.toMv.vars, w = v) :
    p.terms.Pairwise fun s t => t.monomial.degreeOf v < s.monomial.degreeOf v := by
  refine p.valid.descending.imp_of_mem fun hs ht hlt => ?_
  rw [MonomialOrder.compare_eq_lt_iff, toFinsupp_eq_single hv hs, toFinsupp_eq_single hv ht] at hlt
  exact MonomialOrder.lt_of_exponentLT_single hlt

namespace Alike

theorem of_toMv (hv : ∀ w ∈ p.toMv.vars, w = v) (h : p.toMv = q.toMv) : Alike v p q := by
  refine ⟨List.Perm.eq_of_pairwise (fun s t _ _ hst hts => ?_) (pairwise_degreeOf hv)
    (pairwise_degreeOf (h ▸ hv)) ((List.perm_ext_iff_of_nodup p.nodup_terms q.nodup_terms).2 fun t =>
      ⟨mem_terms_of_toMv_eq h, mem_terms_of_toMv_eq h.symm⟩), hv⟩
  exact absurd (hst.trans hts) (lt_irrefl _)

theorem refl (hv : ∀ w ∈ p.toMv.vars, w = v) : Alike v p p := ⟨rfl, hv⟩

section

variable (h : Alike v p q)

include h

theorem toMv : p.toMv = q.toMv := by
  rw [Poly.toMv, Poly.toMv, h.terms]

theorem isZero : p.isZero = q.isZero := by
  rw [Poly.isZero, Poly.isZero, h.terms]

theorem isNumber : p.isNumber = q.isNumber := by
  rw [Poly.isNumber, Poly.isNumber, isConstant, isConstant, h.isZero, h.terms]

theorem isOne : p.isOne = q.isOne := by
  rw [Poly.isOne, Poly.isOne, isConstant, isConstant, constantValue, constantValue, h.terms]

theorem containsVar (w : ℕ) : p.containsVar w = q.containsVar w := by
  rw [Poly.containsVar, Poly.containsVar, h.terms]

theorem degreeOf (w : ℕ) : p.degreeOf w = q.degreeOf w := by
  rw [Poly.degreeOf, Poly.degreeOf, h.terms]

theorem mainVar? : p.mainVar? = q.mainVar? := by
  rw [Poly.mainVar?, Poly.mainVar?, h.terms]

theorem length_vars : p.vars.length = q.vars.length := by
  rw [Poly.vars, Poly.vars, h.terms]

theorem sameTerms (h' : Alike v p' q') : p.sameTerms p' = q.sameTerms q' := by
  rw [Poly.sameTerms, Poly.sameTerms, h.terms, h'.terms]

theorem canonicalFactor : p.canonicalFactor = q.canonicalFactor := by
  rw [Poly.canonicalFactor, Poly.canonicalFactor, leadingCoeff, leadingCoeff, content, content,
    h.isZero, h.terms]

theorem canonical : Alike v p.canonical q.canonical := by
  refine of_toMv (fun w hw => h.vars w ?_) ?_
  · rwa [vars_eq_of_associated (associated_canonical p)] at hw
  · have hp := toMv_canonical p
    rw [h.toMv, toMv_canonical q, h.canonicalFactor] at hp
    exact (mul_left_cancel₀ (by rw [Ne, C_eq_zero]; exact canonicalFactor_ne_zero q) hp).symm

theorem of_dvd (hp0 : p.toMv ≠ 0) (hp : p'.toMv ∣ p.toMv) (heq : p'.toMv = q'.toMv) :
    Alike v p' q' :=
  of_toMv (fun w hw => h.vars w (vars_subset_of_dvd hp0 hp hw)) heq

theorem coeff (k : ℕ) : Alike v (p.coeff v k) (q.coeff v k) := by
  refine of_toMv (fun w hw => h.vars w (vars_coeff_subset v k p hw)) ?_
  rw [Poly.coeff, Poly.coeff, toMv_ofTerms, toMv_ofTerms, h.terms]

theorem univariate? : p.univariate? v = q.univariate? v := by
  have hcoeffs : (p.coeffs v).map (·.constantValue) = (q.coeffs v).map (·.constantValue) := by
    rw [coeffs, coeffs, List.map_map, List.map_map, h.degreeOf]
    refine List.map_congr_left fun k _ => ?_
    change (p.coeff v k).constantValue = (q.coeff v k).constantValue
    rw [constantValue, constantValue, (h.coeff k).terms]
  rw [Poly.univariate?, Poly.univariate?, hcoeffs, h.terms]

theorem derivative : Alike v (p.derivative v) (q.derivative v) := by
  refine of_toMv (fun w hw => h.vars w ?_) (by rw [toMv_derivative, toMv_derivative, h.toMv])
  rw [toMv_derivative] at hw
  exact vars_pderiv_subset v p.toMv hw

theorem sub (h' : Alike v p' q') : Alike v (p - p') (q - q') := by
  refine of_toMv (fun w hw => ?_) (by rw [toMv_sub, toMv_sub, h.toMv, h'.toMv])
  rw [toMv_sub] at hw
  exact (Finset.mem_union.1 (vars_sub_subset p.toMv hw)).elim (h.vars w) (h'.vars w)

theorem mul (h' : Alike v p' q') : Alike v (p * p') (q * q') := by
  refine of_toMv (fun w hw => ?_) (by rw [toMv_mul, toMv_mul, h.toMv, h'.toMv])
  rw [toMv_mul] at hw
  exact (Finset.mem_union.1 (vars_mul p.toMv p'.toMv hw)).elim (h.vars w) (h'.vars w)

end

end Alike

/-! ## Division and greatest common divisors -/

theorem follows_exactQuotient (h : Alike v p q) (h' : Alike v p' q') :
    Follows (Alike v) (p.exactQuotient p') (q.exactQuotient q') := by
  intro b hb
  obtain ⟨h0, hmul⟩ := toMv_of_exactQuotient hb
  rw [← h'.toMv] at h0 hmul
  rw [← h.toMv] at hmul
  obtain ⟨a, ha, -⟩ := exists_exactQuotient_mem (O := fun _ => True) trivial trivial h0
    ⟨b.toMv, hmul.trans (mul_comm _ _)⟩
  have hmul' := (toMv_of_exactQuotient ha).2
  have heq : a.toMv = b.toMv := mul_right_cancel₀ h0 (hmul'.symm.trans hmul)
  refine ⟨a, ha, ?_⟩
  by_cases hp0 : p.toMv = 0
  · have ha0 : a.toMv = 0 := (mul_eq_zero.1 (hmul'.symm.trans hp0)).resolve_right h0
    exact .of_toMv (by simp [ha0]) heq
  · exact h.of_dvd hp0 ⟨_, hmul'⟩ heq

theorem gcd_of_isZero (h : p.isZero = true) : p.gcd q = .ok q.canonical := by
  rw [gcd, gcdUpTo, if_pos h]

theorem gcd_of_isZero_right (hp : p.isZero = false) (h : q.isZero = true) :
    p.gcd q = .ok p.canonical := by
  rw [gcd, gcdUpTo, hp, if_neg Bool.false_ne_true, if_pos h]

/-- For nonzero polynomials the result has the order of constants, and it is unique. -/
theorem follows_gcd (h : Alike v p q) (h' : Alike v p' q') :
    Follows (Alike v) (p.gcd p') (q.gcd q') := by
  cases hp : p.isZero with
  | true =>
    rw [gcd_of_isZero hp, gcd_of_isZero (h.isZero ▸ hp)]
    exact .ok h'.canonical
  | false =>
    cases hp' : p'.isZero with
    | true =>
      rw [gcd_of_isZero_right hp hp', gcd_of_isZero_right (h.isZero ▸ hp) (h'.isZero ▸ hp')]
      exact .ok h.canonical
    | false =>
      intro b hb
      have hp0 := isZero_eq_false_iff.1 hp
      have hp0' := isZero_eq_false_iff.1 hp'
      obtain ⟨a, ha, hao, hag⟩ := returns_gcd_of_ne_zero hp0 hp0'
      obtain ⟨hbo, hbg⟩ := (returns_gcd_of_ne_zero (h.toMv ▸ hp0) (h'.toMv ▸ hp0')).of_ok hb
      have hiff : ∀ d, d ∣ a.toMv ↔ d ∣ b.toMv := fun d => by
        rw [hag d, hbg d, h.toMv, h'.toMv]
      have hassoc : Associated a.toMv b.toMv :=
        associated_of_dvd_dvd ((hiff _).1 dvd_rfl) ((hiff _).2 dvd_rfl)
      have heq : a = b := by
        rw [← canonical_of_gcdUpTo ha, ← canonical_of_gcdUpTo hb]
        exact canonical_eq_of_associated (hao.trans hbo.symm) hassoc
      exact ⟨a, ha, h.of_dvd hp0 hag.dvd_left (congrArg Poly.toMv heq)⟩

theorem follows_gcdListBy {ps qs : List Poly} (h : Alike v p q) (hps : List.Forall₂ (Alike v) ps qs) :
    Follows (Alike v) (gcdListBy gcd p ps) (gcdListBy gcd q qs) := by
  induction hps generalizing p q with
  | nil => exact .ok h
  | cons hp _ ih =>
    refine (follows_gcd h hp).bind fun g g' hg => ?_
    rw [hg.isOne]
    split_ifs
    · exact .ok hg
    · exact ih hg

theorem forall₂_coeffs (h : Alike v p q) : List.Forall₂ (Alike v) (p.coeffs v) (q.coeffs v) := by
  rw [coeffs, coeffs, h.degreeOf, List.forall₂_map_left_iff, List.forall₂_map_right_iff,
    List.forall₂_same]
  exact fun k _ => h.coeff k

theorem follows_contentIn (h : Alike v p q) : Follows (Alike v) (p.contentIn v) (q.contentIn v) := by
  unfold contentIn contentBy
  rw [h.containsVar]
  split_ifs
  · refine follows_gcdListBy (.refl (by simp)) (List.rel_filter ?_ (forall₂_coeffs h))
    intro c d hcd
    simp only [hcd.isZero]
  · exact .ok h.canonical

theorem follows_primitivePartIn (h : Alike v p q) :
    Follows (Alike v) (p.primitivePartIn v) (q.primitivePartIn v) := by
  unfold primitivePartIn primitivePartBy
  rw [h.isZero]
  split_ifs
  · exact .ok (.refl (by simp))
  · refine (follows_contentIn h).bind fun c d hcd => ?_
    exact (follows_exactQuotient h hcd).bind fun _ _ hr => .ok hr.canonical

/-! ## Factors -/

/-- Factors that are alike, with the same multiplicities. -/
def AlikeFactors (v : ℕ) : List (Poly × ℕ) → List (Poly × ℕ) → Prop :=
  List.Forall₂ fun f g => Alike v f.1 g.1 ∧ f.2 = g.2

theorem follows_squareFreeSteps {steps i : ℕ} {b d b' d' : Poly} (hb : Alike v b b')
    (hd : Alike v d d') :
    Follows (AlikeFactors v) (squareFreeSteps v steps i b d) (squareFreeSteps v steps i b' d') := by
  induction steps generalizing i b d b' d' with
  | zero => exact .ok .nil
  | succ steps ih =>
    unfold squareFreeSteps
    rw [hb.containsVar]
    split_ifs
    · refine (follows_gcd hb hd).bind fun a a' ha => ?_
      refine (follows_exactQuotient hb ha).bind fun e e' he => ?_
      refine (follows_exactQuotient hd ha).bind fun c c' hc => ?_
      refine (ih he (hc.sub he.derivative)).bind fun later later' hlater => ?_
      rw [ha.containsVar]
      split_ifs
      · exact .ok (.cons ⟨ha.canonical, rfl⟩ hlater)
      · exact .ok hlater
    · exact .ok .nil

theorem follows_squareFreeFactors (h : Alike v p q) :
    Follows (AlikeFactors v) (squareFreeFactors v p) (squareFreeFactors v q) := by
  unfold squareFreeFactors
  rw [h.containsVar]
  split_ifs
  · refine (follows_gcd h h.derivative).bind fun g g' hg => ?_
    rw [hg.isNumber]
    split_ifs
    · exact .ok (.cons ⟨h.canonical, rfl⟩ .nil)
    · refine (follows_exactQuotient h hg).bind fun b b' hb => ?_
      refine (follows_exactQuotient h.derivative hg).bind fun c c' hc => ?_
      rw [h.degreeOf]
      exact follows_squareFreeSteps hb (hc.sub hb.derivative)
  · exact .ok .nil

theorem alike_linearFactor (v : ℕ) (x : ℚ) : Alike v (linearFactor v x) (linearFactor v x) := by
  refine .refl fun w hw => ?_
  rw [vars_eq_of_associated (associated_linearFactor v x)] at hw
  simpa using vars_sub_subset _ hw

theorem follows_splitRoots {xs : List ℚ} (h : Alike v p q) :
    Follows (fun r s => List.Forall₂ (Alike v) r.1 s.1 ∧ Alike v r.2 s.2) (splitRoots v p xs)
      (splitRoots v q xs) := by
  induction xs generalizing p q with
  | nil => exact .ok ⟨.nil, h⟩
  | cons x xs ih =>
    refine (follows_exactQuotient h (alike_linearFactor v x)).bind fun r s hr => ?_
    exact (ih hr).bind fun _ _ hrest => .ok ⟨.cons (alike_linearFactor v x).canonical hrest.1, hrest.2⟩

theorem alike_var (v : ℕ) : Alike v (var v) (var v) := .refl fun w hw => by
  rw [toMv_var, vars_X] at hw
  exact Finset.mem_singleton.1 hw

theorem follows_splitRest {zs zs' : List Poly} {xs : List ℚ} (h : Alike v p q)
    (hzs : List.Forall₂ (Alike v) zs zs') :
    Follows (List.Forall₂ (Alike v))
      (do
        let (fs, r) ← splitRoots v p xs
        return if r.containsVar v then zs ++ fs ++ [r.canonical] else zs ++ fs)
      (do
        let (fs, r) ← splitRoots v q xs
        return if r.containsVar v then zs' ++ fs ++ [r.canonical] else zs' ++ fs) := by
  refine (follows_splitRoots h).bind fun r s hrs => ?_
  obtain ⟨fs, r⟩ := r
  obtain ⟨fs', r'⟩ := s
  obtain ⟨hfs, hr⟩ := hrs
  refine .ok ?_
  have hall := List.rel_append hzs hfs
  simp only at hall hr ⊢
  rw [hr.containsVar]
  split_ifs
  · exact List.rel_append hall (.cons hr.canonical .nil)
  · exact hall

theorem follows_splitLinear (h : Alike v p q) :
    Follows (List.Forall₂ (Alike v)) p.splitLinear q.splitLinear := by
  unfold splitLinear
  rw [h.mainVar?]
  cases hv : q.mainVar? with
  | none => exact .ok (.cons h.canonical .nil)
  | some w =>
    obtain rfl : w = v := h.vars w (h.toMv ▸ mem_vars_of_mainVar? hv)
    simp only [h.univariate?]
    cases hcs : q.univariate? w with
    | none => exact .ok (.cons h .nil)
    | some cs =>
      simp only
      by_cases hlen : cs.length ≤ 2
      · rw [if_pos hlen, if_pos hlen]
        exact .ok (.cons h.canonical .nil)
      · rw [if_neg hlen, if_neg hlen]
        by_cases hzero : (cs.head? == some 0) = true
        -- the root zero is split off first
        · simp only [hzero, if_true]
          refine (follows_exactQuotient h.canonical (alike_var w)).bind fun r s hr => ?_
          rw [hr.univariate?]
          exact follows_splitRest hr (.cons (alike_var w) .nil)
        · simp only [hzero, Bool.false_eq_true, if_false]
          change Follows _ (splitRoots w p.canonical _ >>= _) (splitRoots w q.canonical _ >>= _)
          rw [h.canonical.univariate?]
          exact follows_splitRest h.canonical .nil

/-! ## Factorization -/

theorem alikeFactors_insertFactor {fs gs : List (Poly × ℕ)} (h : Alike v p q)
    (hfs : AlikeFactors v fs gs) (m : ℕ) :
    AlikeFactors v (insertFactor p m fs) (insertFactor q m gs) := by
  induction hfs with
  | nil =>
    unfold insertFactor
    rw [h.isNumber]
    split_ifs
    · exact .nil
    · exact .cons ⟨h, rfl⟩ .nil
  | @cons f g _ _ hfg hrest ih =>
    unfold insertFactor
    rw [h.isNumber, hfg.1.sameTerms h]
    split_ifs
    · exact .cons hfg hrest
    · exact .cons ⟨hfg.1, by simp only [hfg.2]⟩ hrest
    · exact .cons hfg ih

theorem alikeFactors_insertFactors {ls ls' : List Poly} {fs gs : List (Poly × ℕ)}
    (hls : List.Forall₂ (Alike v) ls ls') (hfs : AlikeFactors v fs gs) (m : ℕ) :
    AlikeFactors v (ls.foldl (fun fs g => insertFactor g m fs) fs)
      (ls'.foldl (fun fs g => insertFactor g m fs) gs) := by
  induction hls generalizing fs gs with
  | nil => exact hfs
  | cons h _ ih => exact ih (alikeFactors_insertFactor h hfs m)

theorem follows_splitFactors {parts parts' fs gs : List (Poly × ℕ)}
    (hparts : AlikeFactors v parts parts') (hfs : AlikeFactors v fs gs) :
    Follows (AlikeFactors v)
      (parts.foldlM (fun fs (f, m) => do
        return (← f.splitLinear).foldl (fun fs g => insertFactor g m fs) fs) fs)
      (parts'.foldlM (fun fs (f, m) => do
        return (← f.splitLinear).foldl (fun fs g => insertFactor g m fs) fs) gs) := by
  induction hparts generalizing fs gs with
  | nil => exact .ok hfs
  | @cons f g _ _ hfg _ ih =>
    rw [List.foldlM_cons, List.foldlM_cons]
    refine Follows.bind (R := AlikeFactors v) ?_ fun _ _ hnext => ih hnext
    refine (follows_splitLinear hfg.1).bind fun ls ls' hls => .ok ?_
    rw [hfg.2]
    exact alikeFactors_insertFactors hls hfs g.2

theorem follows_factorsUpTo {n : ℕ} (h : Alike v p q) :
    Follows (AlikeFactors v) (factorsUpTo n p) (factorsUpTo n q) := by
  induction n generalizing p q with
  | zero => exact .ok .nil
  | succ n ih =>
    unfold factorsUpTo
    rw [h.mainVar?]
    cases hv : q.mainVar? with
    | none => exact .ok .nil
    | some w =>
      obtain rfl : w = v := h.vars w (h.toMv ▸ mem_vars_of_mainVar? hv)
      refine (follows_contentIn h).bind fun c d hc => ?_
      refine (ih hc).bind fun lower lower' hlower => ?_
      refine (follows_primitivePartIn h).bind fun r s hr => ?_
      exact (follows_squareFreeFactors hr).bind fun _ _ hparts => follows_splitFactors hparts hlower

/-- The factorization of a polynomial in one variable does not depend on its order. -/
theorem follows_factor (h : Alike v p q) :
    Follows (fun F G => F.constant = G.constant ∧ AlikeFactors v F.factors G.factors) p.factor
      q.factor := by
  unfold factor
  rw [h.isZero, h.length_vars, h.canonicalFactor]
  split_ifs
  · exact .ok ⟨rfl, .nil⟩
  · exact (follows_factorsUpTo h.canonical).bind fun _ _ hfs => .ok ⟨rfl, hfs⟩

end Poly

end Cylindrical

end
