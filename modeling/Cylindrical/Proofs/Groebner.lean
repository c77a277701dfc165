import Mathlib
import Cylindrical.AlgebraSystem
import Cylindrical.Proofs.Focus
import Cylindrical.Proofs.Poly.Leading
import Cylindrical.Proofs.Poly.Substitution

/-!
# Gröbner bases stay in the ideal

Every polynomial that completion adds to a basis lies in the ideal of the generators, and reduction
subtracts a member of the ideal.  So where the generators vanish, the basis vanishes
(`value_eq_zero_of_mem_groebnerBasis`), and the normal form has the value of the polynomial up to a
factor with the sign that is recorded (`reduce_spec`).
-/

noncomputable section

open MvPolynomial

namespace Cylindrical

namespace Poly

/-- The ideal of a list of polynomials. -/
def idealOf (ps : List Poly) : Ideal (MvPolynomial ℕ ℚ) := .span {P | ∃ p ∈ ps, P = p.toMv}

variable {p f g : Poly} {ps qs basis : List Poly}

theorem mem_idealOf (h : p ∈ ps) : p.toMv ∈ idealOf ps := Ideal.subset_span ⟨p, h, rfl⟩

theorem idealOf_le {I : Ideal (MvPolynomial ℕ ℚ)} (h : ∀ p ∈ ps, p.toMv ∈ I) : idealOf ps ≤ I := by
  refine Ideal.span_le.2 ?_
  rintro P ⟨p, hp, rfl⟩
  exact h p hp

/-- The members of the ideal vanish where the generators do. -/
theorem aeval_eq_zero_of_mem_idealOf {x : ℕ → ℝ} (hx : ∀ p ∈ ps, p.value x = 0)
    {P : MvPolynomial ℕ ℚ} (h : P ∈ idealOf ps) : aeval x P = 0 := by
  refine (idealOf_le (I := RingHom.ker (aeval x : MvPolynomial ℕ ℚ →ₐ[ℚ] ℝ)) fun p hp => ?_) h
  exact hx p hp

/-! ## Reduction -/

theorem reducer?_eq_some {t q : Term} {us : List Term} (h : reducer? t basis = some (q, us)) :
    ∃ g ∈ basis, us = g.terms ∧ ∃ u vs, us = u :: vs ∧
      t.monomial.div? u.monomial = some q.monomial ∧ q.coeff = t.coeff / u.coeff := by
  induction basis with
  | nil => cases h
  | cons g gs ih =>
    have hlater : reducer? t gs = some (q, us) → ∃ k ∈ g :: gs, us = k.terms ∧ ∃ u vs,
        us = u :: vs ∧ t.monomial.div? u.monomial = some q.monomial ∧
          q.coeff = t.coeff / u.coeff := fun h =>
      let ⟨k, hk, hus⟩ := ih h
      ⟨k, .tail _ hk, hus⟩
    rw [reducer?] at h
    split at h
    · exact hlater h
    · rename_i u vs hg
      split at h
      · rename_i m hm
        obtain ⟨rfl, rfl⟩ := Prod.mk.inj (Option.some.inj h)
        exact ⟨g, .head _, hg.symm, u, vs, rfl, hm, rfl⟩
      · exact hlater h

theorem exists_of_reducer?_eq_some {t q : Term} {us : List Term}
    (h : reducer? t basis = some (q, us)) :
    ∃ g ∈ basis, us = g.terms ∧ ∃ m, t.monomial.div? m = some q.monomial := by
  obtain ⟨g, hg, hus, u, -, -, hm, -⟩ := reducer?_eq_some h
  exact ⟨g, hg, hus, u.monomial, hm⟩

/-- One step of the reduction subtracts a multiple of an element of the basis. -/
theorem sub_addTerms_mem_idealOf {o : MonomialOrder} {t q u : Term} {ts us : List Term}
    (h : reducer? t basis = some (q, us)) :
    sumOf ts - sumOf (addTerms o ts (mulTerm o u us)) ∈ idealOf basis := by
  obtain ⟨g, hg, rfl, -⟩ := exists_of_reducer?_eq_some h
  rw [sumOf_addTerms, sumOf_mulTerm, sub_add_cancel_left]
  exact (idealOf basis).neg_mem ((idealOf basis).mul_mem_left _ (mem_idealOf hg))

theorem sub_reduceTerms_mem_idealOf (o : MonomialOrder) (basis : List Poly) (rises : ℕ)
    (ts : List Term) (h : TermList o ts) :
    sumOf ts - sumOf (reduceTerms o basis rises ts h) ∈ idealOf basis := by
  fun_induction reduceTerms o basis rises ts h with
  | case1 => simp
  | case2 rises t ts h _ _ ih => simpa using ih
  | case3 rises t ts h q us hr _ _ _ ih =>
    exact sub_add_sub_cancel (sumOf (t :: ts)) _ _ ▸
      (idealOf basis).add_mem (sub_addTerms_mem_idealOf hr) ih
  | case4 t ts h q us hr _ _ _ => exact sub_addTerms_mem_idealOf hr
  | case5 t ts h q us hr _ _ rises _ ih =>
    exact sub_add_sub_cancel (sumOf (t :: ts)) _ _ ▸
      (idealOf basis).add_mem (sub_addTerms_mem_idealOf hr) ih

/-- The normal form comes from reducing the terms in the order of the basis. -/
theorem exists_toMv_normalForm (basis : List Poly) (p : Poly) :
    ∃ o : MonomialOrder, (normalForm basis p).toMv = sumOf (reduceTerms (p.withOrder o).order basis
      stepLimit (p.withOrder o).terms (p.withOrder o).valid) :=
  ⟨_, toMv_ofTerms _ _⟩

theorem sub_normalForm_mem_idealOf (basis : List Poly) (p : Poly) :
    p.toMv - (normalForm basis p).toMv ∈ idealOf basis := by
  obtain ⟨o, ho⟩ := exists_toMv_normalForm basis p
  rw [ho, ← toMv_withOrder o p]
  exact sub_reduceTerms_mem_idealOf _ _ _ _ _

theorem normalForm_mem_idealOf (hle : idealOf basis ≤ idealOf ps) (h : p.toMv ∈ idealOf ps) :
    (normalForm basis p).toMv ∈ idealOf ps := by
  have := (idealOf ps).sub_mem h (hle (sub_normalForm_mem_idealOf basis p))
  rwa [sub_sub_cancel] at this

theorem monic_mem_idealOf (h : p.toMv ∈ idealOf ps) : p.monic.toMv ∈ idealOf ps := by
  by_cases hp : p.toMv = 0
  · rw [monic, toMv_eq_zero_iff.1 hp]
    exact h
  · exact (idealOf ps).mem_of_dvd (associated_monic hp).symm.dvd h

theorem sPolynomial_mem_idealOf (hf : f.toMv ∈ idealOf ps) (hg : g.toMv ∈ idealOf ps) :
    (f.sPolynomial g).toMv ∈ idealOf ps := by
  have hzero : (0 : Poly).toMv ∈ idealOf ps := (idealOf ps).zero_mem
  rw [sPolynomial]
  split
  · dsimp only
    split
    · rw [toMv_sub, toMv_scale, toMv_scale, toMv_mulMonomial, toMv_mulMonomial]
      exact (idealOf ps).sub_mem
        ((idealOf ps).mul_mem_left _ ((idealOf ps).mul_mem_left _ hf))
        ((idealOf ps).mul_mem_left _ ((idealOf ps).mul_mem_left _ hg))
    · exact hzero
  · exact hzero

theorem one_mem_idealOf_of_isConstant (h : p.toMv ∈ idealOf ps) (hp : p.isConstant = true) :
    (1 : Poly).toMv ∈ idealOf ps := by
  obtain ⟨c, hc, hpc⟩ := isConstant_iff.1 hp
  rw [toMv_one, (idealOf ps).eq_top_of_isUnit_mem h (hpc ▸ (isUnit_iff_ne_zero.2 hc).map C)]
  exact Submodule.mem_top

/-! ## Variables of reduced polynomials -/

section Supported

variable {S : Set ℕ}

theorem support_subset_of_mem {t : Term} (hp : p.toMv ∈ supported ℚ S) (ht : t ∈ p.terms) :
    (t.monomial.toFinsupp.support : Set ℕ) ⊆ S := fun v hv =>
  mem_supported.1 hp (Finset.mem_coe.2 ((MvPolynomial.mem_vars_iff_mem_support v).2
    ⟨_, mem_support_toMv.2 ⟨t, ht, rfl⟩, Finset.mem_coe.1 hv⟩))

theorem monomial_mem_supported {m : ℕ →₀ ℕ} (h : (m.support : Set ℕ) ⊆ S) (c : ℚ) :
    monomial m c ∈ supported ℚ S := by
  refine mem_supported.2 fun v hv => h ?_
  obtain ⟨n, hn, hv⟩ := (MvPolynomial.mem_vars_iff_mem_support v).1 (Finset.mem_coe.1 hv)
  rwa [← Finset.mem_singleton.1 (support_monomial_subset hn)]

theorem support_subset_of_div? {a b m : Monomial} (h : a.div? b = some m) :
    m.toFinsupp.support ⊆ a.toFinsupp.support := by
  rw [Monomial.toFinsupp_div? h]
  intro v hv
  rw [Finsupp.mem_support_iff] at hv ⊢
  rw [Finsupp.add_apply]
  omega

theorem sumOf_tail_mem_supported {o : MonomialOrder} {t : Term} {ts : List Term}
    (h : TermList o (t :: ts)) (hs : sumOf (t :: ts) ∈ supported ℚ S) :
    t.toMv ∈ supported ℚ S ∧ sumOf ts ∈ supported ℚ S := by
  have ht : t.toMv ∈ supported ℚ S := monomial_mem_supported
    (support_subset_of_mem (p := ⟨o, t :: ts, h⟩) hs (.head _)) _
  refine ⟨ht, ?_⟩
  rw [sumOf_cons] at hs
  simpa using sub_mem hs ht

theorem reduceTerms_mem_supported (o : MonomialOrder) (basis : List Poly) (rises : ℕ)
    (ts : List Term) (h : TermList o ts) (hb : ∀ b ∈ basis, b.toMv ∈ supported ℚ S)
    (hs : sumOf ts ∈ supported ℚ S) :
    sumOf (reduceTerms o basis rises ts h) ∈ supported ℚ S := by
  have hstep : ∀ {t q : Term} {ts us : List Term}, TermList o (t :: ts) →
      sumOf (t :: ts) ∈ supported ℚ S → reducer? t basis = some (q, us) →
        sumOf (addTerms o (t :: ts) (mulTerm o ⟨-q.coeff, q.monomial⟩ us)) ∈ supported ℚ S :=
    fun {t q ts us} h hs hr => by
      obtain ⟨g, hg, rfl, m, hm⟩ := exists_of_reducer?_eq_some hr
      rw [sumOf_addTerms, sumOf_mulTerm]
      exact add_mem hs (mul_mem (monomial_mem_supported ((Finset.coe_subset.2
        (support_subset_of_div? hm)).trans
          (support_subset_of_mem (p := ⟨o, t :: ts, h⟩) hs (.head _))) _) (hb g hg))
  fun_induction reduceTerms o basis rises ts h with
  | case1 => exact zero_mem _
  | case2 rises t ts h _ _ ih =>
    obtain ⟨ht, hts⟩ := sumOf_tail_mem_supported h hs
    rw [sumOf_cons]
    exact add_mem ht (ih hts)
  | case3 rises t ts h q us hr _ _ _ ih => exact ih (hstep h hs hr)
  | case4 t ts h q us hr _ _ _ => exact hstep h hs hr
  | case5 t ts h q us hr _ _ rises _ ih => exact ih (hstep h hs hr)

theorem normalForm_mem_supported (hb : ∀ b ∈ basis, b.toMv ∈ supported ℚ S)
    (hp : p.toMv ∈ supported ℚ S) : (normalForm basis p).toMv ∈ supported ℚ S := by
  obtain ⟨o, ho⟩ := exists_toMv_normalForm basis p
  rw [ho]
  rw [← toMv_withOrder o p] at hp
  exact reduceTerms_mem_supported _ _ _ _ _ hb hp

theorem scale_mem_supported (c : ℚ) (hp : p.toMv ∈ supported ℚ S) :
    (p.scale c).toMv ∈ supported ℚ S := by
  rw [toMv_scale]
  exact mul_mem (algebraMap_mem _ c) hp

theorem monic_mem_supported (hp : p.toMv ∈ supported ℚ S) : p.monic.toMv ∈ supported ℚ S := by
  rw [monic]
  split_ifs
  · exact hp
  · exact scale_mem_supported _ hp

theorem reduceBy_mem_supported (hb : ∀ b ∈ basis, b.toMv ∈ supported ℚ S)
    (hp : p.toMv ∈ supported ℚ S) : (reduceBy basis p).1.toMv ∈ supported ℚ S := by
  have hprim : (normalForm basis p).primitive.toMv ∈ supported ℚ S := by
    rw [primitive]
    split_ifs
    · exact normalForm_mem_supported hb hp
    · exact scale_mem_supported _ (normalForm_mem_supported hb hp)
  by_cases hneg : (normalForm basis p).primitive.leadingCoeff < 0
  · have hr : reduceBy basis p = (-(normalForm basis p).primitive, true) := if_pos hneg
    rw [hr, toMv_neg]
    exact neg_mem hprim
  · have hr : reduceBy basis p = ((normalForm basis p).primitive, false) := if_neg hneg
    rw [hr]
    exact hprim

theorem support_lcm_subset (a b : Monomial) :
    (a.lcm b).toFinsupp.support ⊆ a.toFinsupp.support ∪ b.toFinsupp.support := by
  intro v hv
  rw [← Monomial.mem_vars_iff_mem_support] at hv
  rw [Finset.mem_union, ← Monomial.mem_vars_iff_mem_support, ← Monomial.mem_vars_iff_mem_support]
  obtain ⟨p, hp, rfl⟩ := List.mem_map.1 hv
  exact (fst_of_mem_mergePowers hp).imp List.mem_map.2 List.mem_map.2

theorem sPolynomial_mem_supported (hf : f.toMv ∈ supported ℚ S) (hg : g.toMv ∈ supported ℚ S) :
    (f.sPolynomial g).toMv ∈ supported ℚ S := by
  have hzero : (0 : Poly).toMv ∈ supported ℚ S := zero_mem _
  rw [sPolynomial]
  split
  · rename_i t ts u us hft hgu
    have hlcm : ((t.monomial.lcm u.monomial).toFinsupp.support : Set ℕ) ⊆ S := fun v hv => by
      rcases Finset.mem_union.1 (support_lcm_subset _ _ hv) with hv | hv
      · exact support_subset_of_mem hf (hft ▸ .head _) hv
      · exact support_subset_of_mem hg (hgu ▸ .head _) hv
    dsimp only
    split
    · rename_i m n hm hn
      rw [toMv_sub]
      refine sub_mem (scale_mem_supported _ ?_) (scale_mem_supported _ ?_)
      · rw [toMv_mulMonomial]
        exact mul_mem (monomial_mem_supported
          ((Finset.coe_subset.2 (support_subset_of_div? hm)).trans hlcm) 1) hf
      · rw [toMv_mulMonomial]
        exact mul_mem (monomial_mem_supported
          ((Finset.coe_subset.2 (support_subset_of_div? hn)).trans hlcm) 1) hg
    · exact hzero
  · exact hzero

end Supported

/-- The normal form is a positive or negative multiple, as recorded. -/
theorem reduceBy_spec (basis : List Poly) (p : Poly) :
    ∃ c : ℚ, 0 < c ∧ (normalForm basis p).toMv =
      C (if (reduceBy basis p).2 then -c else c) * (reduceBy basis p).1.toMv := by
  have hprim : (normalForm basis p).toMv =
      C (normalForm basis p).content * (normalForm basis p).primitive.toMv := by
    have hc := (content_pos (normalForm basis p)).ne'
    by_cases hz : (normalForm basis p).isZero = true
    · rw [primitive, hz, if_pos rfl, toMv_eq_zero_of_isZero hz, mul_zero]
    · rw [primitive_eq _ (Bool.eq_false_iff.2 hz), toMv_scale, ← mul_assoc, ← C_mul,
        mul_inv_cancel₀ hc, C_1, one_mul]
  refine ⟨_, content_pos (normalForm basis p), ?_⟩
  by_cases hneg : (normalForm basis p).primitive.leadingCoeff < 0
  · have hr : reduceBy basis p = (-(normalForm basis p).primitive, true) := if_pos hneg
    rw [hr, if_pos rfl, toMv_neg, C_neg, neg_mul_neg, hprim]
  · have hr : reduceBy basis p = ((normalForm basis p).primitive, false) := if_neg hneg
    rw [hr, if_neg Bool.false_ne_true, hprim]

end Poly

/-! ## Completion -/

namespace Groebner

open Cylindrical.Poly

/-- What the steps of completion preserve. -/
structure Preserved (K : Poly → Prop) : Prop where
  zero : K 0
  one : ∀ p, K p → p.isConstant = true → K 1
  withOrder : ∀ o p, K p → K (p.withOrder o)
  monic : ∀ p, K p → K p.monic
  sPolynomial : ∀ f g, K f → K g → K (f.sPolynomial g)
  normalForm : ∀ basis p, (∀ b ∈ basis, K b) → K p → K (normalForm basis p)

/-- The polynomials of an outcome, `none` being the unit ideal. -/
def elements : Option (Array Poly) → List Poly
  | none => [1]
  | some basis => basis.toList

variable {config : Config} {ps bs : List Poly}

namespace Preserved

variable {K : Poly → Prop}

theorem getD (hK : Preserved K) {basis : Array Poly} (h : ∀ b ∈ basis, K b) (i : ℕ) :
    K (basis.getD i 0) := by
  rw [Array.getD_eq_getD_getElem?]
  cases hi : basis[i]? with
  | none => exact hK.zero
  | some b => exact h b (Array.mem_of_getElem? hi)

theorem complete (hK : Preserved K) {steps : ℕ} {basis : Array Poly} {pairs : List (ℕ × ℕ)}
    {s t : Stats} {r : Option (Array Poly)} (hb : ∀ b ∈ basis, K b)
    (h : Groebner.complete config steps basis pairs s = .ok r t) : ∀ b ∈ elements r, K b := by
  induction steps generalizing basis pairs s with
  | zero =>
    obtain ⟨rfl, -⟩ := run_pure_eq_ok h
    exact fun b hb' => hb b (Array.mem_toList_iff.1 hb')
  | succ steps ih =>
    cases pairs with
    | nil =>
      obtain ⟨rfl, -⟩ := run_pure_eq_ok h
      exact fun b hb' => hb b (Array.mem_toList_iff.1 hb')
    | cons pair pairs =>
      obtain ⟨i, j⟩ := pair
      have hr := hK.normalForm basis.toList _ (fun b hb' => hb b (Array.mem_toList_iff.1 hb'))
        (hK.sPolynomial _ _ (hK.getD hb i) (hK.getD hb j))
      rw [Groebner.complete] at h
      dsimp only at h
      split_ifs at h
      · exact ih hb h
      · exact ih hb h
      · obtain ⟨rfl, -⟩ := run_pure_eq_ok h
        exact List.forall_mem_singleton.2 (hK.one _ hr ‹_›)
      · cases h
      · refine ih (fun b hb' => ?_) h
        rcases Array.mem_push.1 hb' with hb' | rfl
        · exact hb b hb'
        · exact hK.monic _ hr

theorem interReduce (hK : Preserved K) (h : ∀ b ∈ bs, K b) :
    ∀ b ∈ Groebner.interReduce bs, K b := by
  have hmin : ∀ c ∈ minimal bs, K c := fun c hc => by
    obtain ⟨⟨d, i⟩, hd, rfl⟩ := List.mem_map.1 hc
    exact h _ ((List.mem_zipIdx' (List.mem_filter.1 hd).1).2 ▸ List.getElem_mem _)
  intro b hb
  obtain ⟨⟨g, i⟩, hg, rfl⟩ := List.mem_map.1 hb
  exact hK.monic _ (hK.normalForm _ g (fun c hc => hmin c (List.mem_of_mem_eraseIdx hc))
    (hmin g ((List.mem_zipIdx' hg).2 ▸ List.getElem_mem _)))

theorem basis (hK : Preserved K) {o : MonomialOrder} {s t : Stats} (hps : ∀ p ∈ ps, K p)
    (h : Groebner.basis config o ps s = .ok bs t) : ∀ b ∈ bs, K b := by
  rw [Groebner.basis] at h
  generalize hgs : ((ps.filter fun g => !g.isZero).map fun g => (g.withOrder o).monic) = gs at h
  have hgens : ∀ g ∈ gs, K g := by
    rw [← hgs]
    exact List.forall_mem_map.2 fun p hp =>
      hK.monic _ (hK.withOrder o p (hps p (List.mem_filter.1 hp).1))
  dsimp only at h
  split_ifs at h with hconst
  · obtain ⟨rfl, -⟩ := run_pure_eq_ok h
    obtain ⟨g, hg, hc⟩ := List.any_eq_true.1 hconst
    exact List.forall_mem_singleton.2 (hK.one g (hgens g hg) hc)
  · obtain ⟨r, u, hr, h⟩ := run_bind_eq_ok h
    have hr := hK.complete (fun b hb => hgens b (List.mem_toArray.1 hb)) hr
    split at h
    · obtain ⟨rfl, -⟩ := run_pure_eq_ok h
      exact hr
    · obtain ⟨rfl, -⟩ := run_pure_eq_ok h
      exact hK.interReduce hr

end Preserved

theorem preserved_idealOf (ps : List Poly) : Preserved fun p => p.toMv ∈ idealOf ps where
  zero := (idealOf ps).zero_mem
  one _ := one_mem_idealOf_of_isConstant
  withOrder o p hp := by rwa [toMv_withOrder]
  monic _ := monic_mem_idealOf
  sPolynomial _ _ := sPolynomial_mem_idealOf
  normalForm _ _ hb := normalForm_mem_idealOf (idealOf_le hb)

theorem preserved_supported (S : Set ℕ) : Preserved fun p => p.toMv ∈ supported ℚ S where
  zero := zero_mem _
  one _ _ _ := by
    rw [toMv_one]
    exact one_mem _
  withOrder o p hp := by rwa [toMv_withOrder]
  monic _ := monic_mem_supported
  sPolynomial _ _ := sPolynomial_mem_supported
  normalForm _ _ := normalForm_mem_supported

end Groebner

/-! ## Orders of variables -/

namespace VariableOrder

variable {ranked : List ℕ} {ps : List Poly} {x : ℕ → ℝ} {p : Poly}

theorem mem_others {v : ℕ} (hp : p ∈ ps) (hv : v ∈ p.toMv.vars) (hr : v ∉ ranked) :
    v ∈ (ofPolys ranked ps).others := by
  have hmono : ∀ (qs : List Poly) (vs : List ℕ), (v ∈ vs ∨ p ∈ qs) →
      v ∈ qs.foldl (fun vs p => (p.vars.filter fun v => !ranked.contains v).foldl
        (fun vs v => Poly.insertVar v vs) vs) vs := fun qs => by
    induction qs with
    | nil => exact fun vs h => h.resolve_right List.not_mem_nil
    | cons q qs ih =>
      intro vs h
      refine ih _ ?_
      rw [Poly.mem_foldl_insertVar, List.mem_filter]
      rcases h with h | h
      · exact .inl (.inr h)
      · rcases List.mem_cons.1 h with rfl | h
        · exact .inl (.inl ⟨Poly.mem_vars_iff.2 hv, by simpa using hr⟩)
        · exact .inr h
  exact hmono ps [] (.inr hp)

/-- The position of a variable leads back to it. -/
theorem unrank_rank {v : ℕ} (hp : p ∈ ps) (hv : v ∈ p.toMv.vars) :
    (ofPolys ranked ps).unrank ((ofPolys ranked ps).rank v) = v := by
  generalize ho : ofPolys ranked ps = o
  have hranked : o.ranked = ranked := ho ▸ rfl
  rw [rank]
  cases hi : o.ranked.reverse.idxOf? v with
  | some i =>
    obtain ⟨hlt, heq, -⟩ := List.idxOf?_eq_some_iff.1 hi
    simp only [unrank, Nat.not_lt.2 (Nat.le_add_right _ i), if_false, Nat.add_sub_cancel_left]
    rw [List.getD_eq_getElem _ _ hlt, heq]
  | none =>
    have hr : v ∉ ranked := by
      rw [← hranked]
      simpa using List.idxOf?_eq_none_iff.1 hi
    have hmem := ho ▸ mem_others hp hv hr
    obtain ⟨i, hi⟩ := Option.isSome_iff_exists.1 (List.isSome_idxOf?.2 hmem)
    obtain ⟨hlt, heq, -⟩ := List.idxOf?_eq_some_iff.1 hi
    simp only [hi, Option.getD_some, unrank, hlt, if_true]
    rw [List.getD_eq_getElem _ _ hlt, heq]

theorem value_undo (o : VariableOrder) (x : ℕ → ℝ) (p : Poly) :
    (o.undo p).value x = p.value fun r => x (o.unrank r) := by
  rw [undo, Poly.value_withOrder, Poly.value_rename]

/-- Permuted variables have permuted values. -/
theorem value_apply {o : MonomialOrder} (hp : p ∈ ps) (x : ℕ → ℝ) :
    ((ofPolys ranked ps).apply o p).value (fun r => x ((ofPolys ranked ps).unrank r)) =
      p.value x := by
  rw [apply, Poly.value_withOrder, Poly.value_rename]
  exact Poly.value_congr fun v hv => congrArg x (unrank_rank hp hv)

theorem apply_mem_supported {S : Set ℕ} (o : VariableOrder) (m : MonomialOrder)
    (hp : p.toMv ∈ supported ℚ S) : (o.apply m p).toMv ∈ supported ℚ (o.rank '' S) := by
  classical
  rw [apply, Poly.toMv_withOrder, Poly.toMv_rename, mem_supported]
  intro v hv
  obtain ⟨w, hw, rfl⟩ := Finset.mem_image.1 (vars_rename _ _ (Finset.mem_coe.1 hv))
  exact ⟨w, mem_supported.1 hp (Finset.mem_coe.2 hw), rfl⟩

/-- The variables come back. -/
theorem undo_mem_supported {S : Set ℕ}
    (hS : ∀ v ∈ S, ∃ q ∈ ps, v ∈ q.toMv.vars)
    (hp : p.toMv ∈ supported ℚ ((ofPolys ranked ps).rank '' S)) :
    ((ofPolys ranked ps).undo p).toMv ∈ supported ℚ S := by
  classical
  rw [undo, Poly.toMv_withOrder, Poly.toMv_rename, mem_supported]
  intro v hv
  obtain ⟨r, hr, rfl⟩ := Finset.mem_image.1 (vars_rename _ _ (Finset.mem_coe.1 hv))
  obtain ⟨w, hw, rfl⟩ := mem_supported.1 hp (Finset.mem_coe.2 hr)
  obtain ⟨q, hq, hwq⟩ := hS w hw
  rwa [unrank_rank hq hwq]

end VariableOrder

namespace AlgebraSystem

variable {ranked : List ℕ} {block : ℕ} {ps basis : List Poly} {s t : AlgebraSystem} {x : ℕ → ℝ}

/-- A Gröbner basis vanishes where the polynomials vanish. -/
theorem value_eq_zero_of_mem_groebnerBasis (h : groebnerBasis ranked block ps s = .ok basis t)
    (hx : ∀ p ∈ ps, p.value x = 0) : ∀ b ∈ basis, b.value x = 0 := by
  rw [groebnerBasis] at h
  dsimp only at h
  split at h
  · rename_i gs stats hgs
    have hzero : ∀ b ∈ gs,
        b.value (fun r => x ((VariableOrder.ofPolys ranked ps).unrank r)) = 0 := by
      intro b hb
      refine Poly.aeval_eq_zero_of_mem_idealOf (fun p hp => ?_)
        ((Groebner.preserved_idealOf _).basis (fun p hp => Poly.mem_idealOf hp) hgs b hb)
      obtain ⟨q, hq, rfl⟩ := List.mem_map.1 hp
      rw [VariableOrder.value_apply hq]
      exact hx q hq
    cases h
    intro b hb
    split_ifs at hb with hunit
    · obtain ⟨c, hc, hconst⟩ := List.any_eq_true.1 hunit
      obtain ⟨k, hk, hck⟩ := Poly.isConstant_iff.1 hconst
      have := hzero c hc
      rw [Poly.value, hck, aeval_C, map_eq_zero] at this
      exact absurd this hk
    · obtain ⟨c, hc, rfl⟩ := List.mem_map.1 hb
      rw [VariableOrder.value_undo]
      exact hzero c hc
  · cases h

theorem supported_of_mem_groebnerBasis {S : Set ℕ}
    (h : groebnerBasis ranked block ps s = .ok basis t) (hps : ∀ p ∈ ps, p.toMv ∈ supported ℚ S) :
    ∀ b ∈ basis, b.toMv ∈ supported ℚ S := by
  rw [groebnerBasis] at h
  dsimp only at h
  split at h
  · rename_i gs stats hgs
    -- the variables that occur come back when they are renamed twice
    let T : Set ℕ := {v | ∃ q ∈ ps, v ∈ q.toMv.vars}
    have hTS : supported ℚ T ≤ supported ℚ S := supported_mono fun v ⟨q, hq, hv⟩ =>
      mem_supported.1 (hps q hq) (Finset.mem_coe.2 hv)
    have hT : ∀ q ∈ ps, q.toMv ∈ supported ℚ T := fun q hq =>
      mem_supported.2 fun v hv => ⟨q, hq, Finset.mem_coe.1 hv⟩
    have hgs := (Groebner.preserved_supported _).basis (fun p hp => by
      obtain ⟨q, hq, rfl⟩ := List.mem_map.1 hp
      exact VariableOrder.apply_mem_supported _ _ (hT q hq)) hgs
    cases h
    intro b hb
    split_ifs at hb
    · rw [List.mem_singleton.1 hb, Poly.toMv_one]
      exact one_mem _
    · obtain ⟨c, hc, rfl⟩ := List.mem_map.1 hb
      exact hTS (VariableOrder.undo_mem_supported (fun v hv => hv) (hgs c hc))
  · cases h

/-- Where the basis vanishes, the polynomial is a multiple of the reduced one, by a number with the
sign that is recorded. -/
theorem reduce_spec {p r : Poly} {negated : Bool}
    (h : reduce ranked block basis p s = .ok (r, negated) t) :
    r.order = .grLex ∧
      (∀ S : Set ℕ, (∀ b ∈ basis ++ [p], b.toMv ∈ supported ℚ S) → r.toMv ∈ supported ℚ S) ∧
        ∀ x : ℕ → ℝ, (∀ b ∈ basis, b.value x = 0) →
          ∃ c : ℝ, 0 < c ∧ p.value x = (if negated then -c else c) * r.value x := by
  have hr : ∃ q, (q, negated) = ((VariableOrder.ofPolys ranked (basis ++ [p])).apply
      (eliminationOrder ranked block) p).reduceBy (basis.map
        ((VariableOrder.ofPolys ranked (basis ++ [p])).apply (eliminationOrder ranked block))) ∧
      r = (VariableOrder.ofPolys ranked (basis ++ [p])).undo q := by
    cases h
    exact ⟨_, rfl, rfl⟩
  obtain ⟨q, hq, rfl⟩ := hr
  refine ⟨Poly.order_withOrder _ _, fun S hS => ?_, fun x hx => ?_⟩
  · let T : Set ℕ := {v | ∃ q ∈ basis ++ [p], v ∈ q.toMv.vars}
    have hT : ∀ q ∈ basis ++ [p], q.toMv ∈ supported ℚ T := fun q hq =>
      mem_supported.2 fun v hv => ⟨q, hq, Finset.mem_coe.1 hv⟩
    refine supported_mono (s := T) (fun v ⟨q, hq, hv⟩ =>
      mem_supported.1 (hS q hq) (Finset.mem_coe.2 hv))
        (VariableOrder.undo_mem_supported (fun v hv => hv) ?_)
    have happly : ∀ b ∈ basis ++ [p], ((VariableOrder.ofPolys ranked (basis ++ [p])).apply
        (eliminationOrder ranked block) b).toMv ∈
          supported ℚ ((VariableOrder.ofPolys ranked (basis ++ [p])).rank '' T) := fun b hb =>
      VariableOrder.apply_mem_supported _ _ (hT b hb)
    have := Poly.reduceBy_mem_supported (List.forall_mem_map.2 fun b hb =>
      happly b (List.mem_append_left _ hb)) (happly p (List.mem_append_right _ (.head _)))
    rwa [← hq] at this
  generalize ho : VariableOrder.ofPolys ranked (basis ++ [p]) = o at hq
  have happly : ∀ b ∈ basis ++ [p],
      (o.apply (eliminationOrder ranked block) b).value (fun r => x (o.unrank r)) = b.value x :=
    fun b hb => ho ▸ VariableOrder.value_apply hb x
  obtain ⟨c, hc, hnf⟩ := Poly.reduceBy_spec (basis.map (o.apply (eliminationOrder ranked block)))
    (o.apply (eliminationOrder ranked block) p)
  rw [← hq] at hnf
  refine ⟨c, by exact_mod_cast hc, ?_⟩
  -- the normal form has the value of the polynomial
  have hsub := Poly.aeval_eq_zero_of_mem_idealOf (x := fun r => x (o.unrank r)) (fun c hc => by
    obtain ⟨b, hb, rfl⟩ := List.mem_map.1 hc
    rw [happly b (List.mem_append_left _ hb), hx b hb])
    (Poly.sub_normalForm_mem_idealOf (basis.map (o.apply (eliminationOrder ranked block)))
      (o.apply (eliminationOrder ranked block) p))
  rw [map_sub, sub_eq_zero, hnf, map_mul, aeval_C] at hsub
  rw [VariableOrder.value_undo, ← happly p (List.mem_append_right _ (.head _)), Poly.value, hsub,
    Poly.value]
  cases negated <;> simp

end AlgebraSystem

end Cylindrical

end
