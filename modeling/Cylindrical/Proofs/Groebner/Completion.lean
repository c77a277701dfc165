import Mathlib
import Cylindrical.Proofs.Groebner.Reduction

/-!
# Completion

Completion keeps a basis of monic polynomials in one order with the pairs that still wait, and every
other pair cancels (`Completing`): pairs with coprime leading monomials always do, the others after
their S-polynomial is reduced to zero or its remainder is added.  The steps suffice for all pairs that
ever wait (`complete_spec`), so in the end all pairs cancel and the basis is a Gröbner basis
(`Completing.isGroebner`).
-/

noncomputable section

open MvPolynomial

namespace Cylindrical

open Cylindrical.MonomialOrder

namespace Poly

variable {o : MonomialOrder} {basis : List Poly} {p f g : Poly} {l l' m : ℕ →₀ ℕ} {c d d' : ℚ}

/-! ## Monic polynomials -/

theorem eq_C_of_leads_zero {P : MvPolynomial ℕ ℚ} (h : Leads o P 0 c) : P = C c := by
  have hbelow := h.sub_below (Leads.const h.ne_zero)
  refine sub_eq_zero.1 (support_eq_empty.1 (Finset.eq_empty_of_forall_notMem fun n hn => ?_))
  by_cases h0 : n = 0
  · exact ExponentLT.irrefl o 0 (h0 ▸ hbelow n hn)
  · exact ExponentLT.irrefl o 0 ((o.exponentLT_zero h0).trans (hbelow n hn))

/-- A polynomial in the order with leading coefficient one, and not a number. -/
structure IsMonic (o : MonomialOrder) (p : Poly) : Prop where
  order : p.order = o
  leads : ∃ l, l ≠ 0 ∧ Leads o p.toMv l 1

theorem IsMonic.ne_zero (h : IsMonic o p) : p.toMv ≠ 0 := by
  obtain ⟨l, -, hl⟩ := h.leads
  exact hl.poly_ne_zero

theorem order_monic (p : Poly) : p.monic.order = p.order := by
  rw [monic]
  split_ifs with hz
  · rfl
  · have hc := leadingCoeff_ne_zero (isZero_eq_false_iff.1 (Bool.eq_false_iff.2 hz))
    rw [scale, dif_neg (inv_ne_zero hc)]

theorem leads_monic (ho : p.order = o) (h : Leads o p.toMv m c) : Leads o p.monic.toMv m 1 := by
  obtain ⟨m', hlead⟩ := exists_leads h.poly_ne_zero
  rw [ho] at hlead
  obtain ⟨rfl, rfl⟩ := h.unique hlead
  have hmul := (Leads.const (inv_ne_zero h.ne_zero)).mul h
  rw [zero_add, inv_mul_cancel₀ h.ne_zero] at hmul
  rwa [monic, isZero_eq_false_iff.2 h.poly_ne_zero, if_neg Bool.false_ne_true, toMv_scale]

theorem isMonic_monic (ho : p.order = o) (h0 : p.toMv ≠ 0) (hc : ¬p.isConstant = true) :
    IsMonic o p.monic := by
  obtain ⟨m, hm⟩ := exists_leads h0
  rw [ho] at hm
  refine ⟨(order_monic p).trans ho, m, ?_, leads_monic ho hm⟩
  rintro rfl
  exact hc (isConstant_iff.2 ⟨_, hm.ne_zero, eq_C_of_leads_zero hm⟩)

/-! ## Pairs -/

/-- The S-polynomial is the difference of the least multiples with one leading exponent. -/
theorem exists_toMv_sPolynomial (hf : f.order = o) (hg : g.order = o) (hl : Leads o f.toMv l d)
    (hl' : Leads o g.toMv l' d') :
    ∃ a b, a + l = l ⊔ l' ∧ b + l' = l ⊔ l' ∧
      (f.sPolynomial g).toMv = monomial a d⁻¹ * f.toMv - monomial b d'⁻¹ * g.toMv := by
  obtain ⟨t, ts, ht, rfl, rfl⟩ := (leads_iff hf).1 hl
  obtain ⟨u, us, hu, rfl, rfl⟩ := (leads_iff hg).1 hl'
  have hdiv : ∀ {a b : Monomial}, b.toFinsupp ≤ a.toFinsupp → ∃ m, a.div? b = some m := fun h =>
    Option.ne_none_iff_exists'.1 fun hnone => Monomial.div?_eq_none_iff.1 hnone h
  obtain ⟨a, ha⟩ := hdiv (a := t.monomial.lcm u.monomial) (b := t.monomial)
    (by rw [Monomial.toFinsupp_lcm]; exact le_sup_left)
  obtain ⟨b, hb⟩ := hdiv (a := t.monomial.lcm u.monomial) (b := u.monomial)
    (by rw [Monomial.toFinsupp_lcm]; exact le_sup_right)
  refine ⟨a.toFinsupp, b.toFinsupp, ?_, ?_, ?_⟩
  · rw [← Monomial.toFinsupp_div? ha, Monomial.toFinsupp_lcm]
  · rw [← Monomial.toFinsupp_div? hb, Monomial.toFinsupp_lcm]
  · rw [sPolynomial, ht, hu]
    simp only [ha, hb]
    rw [toMv_sub, toMv_scale, toMv_scale, toMv_mulMonomial, toMv_mulMonomial, ← mul_assoc,
      ← mul_assoc, C_mul_monomial, C_mul_monomial, mul_one, mul_one]

/-- A pair cancels if the remainder of its S-polynomial is zero or a multiple of a member. -/
theorem cancels_of_normalForm {G : Set (MvPolynomial ℕ ℚ)} (hb : ∀ b ∈ basis, b.order = o)
    (hne : basis ≠ []) (hG : members basis ⊆ G) (hf : f.order = o) (hg : g.order = o)
    (hl : Leads o f.toMv l d) (hl' : Leads o g.toMv l' d')
    (hr : (normalForm basis (f.sPolynomial g)).toMv ≠ 0 →
      (normalForm basis (f.sPolynomial g)).monic.toMv ∈ G) : Cancels o G f.toMv g.toMv := by
  obtain ⟨a, b, ha, hb', hs⟩ := exists_toMv_sPolynomial hf hg hl hl'
  refine .of_sup hl hl' ha hb' ?_
  rw [← hs]
  -- the leading terms cancel, so what is reduced is below the least common multiple
  have hbelow : ∀ n ∈ (f.sPolynomial g).toMv.support, n ∈ o.below (l ⊔ l') := by
    have hfl := (Leads.monomial a (inv_ne_zero hl.ne_zero)).mul hl
    have hgl := (Leads.monomial b (inv_ne_zero hl'.ne_zero)).mul hl'
    rw [ha, inv_mul_cancel₀ hl.ne_zero] at hfl
    rw [hb', inv_mul_cancel₀ hl'.ne_zero] at hgl
    rw [hs]
    exact hfl.sub_below hgl
  by_cases h0 : (f.sPolynomial g).toMv = 0
  · rw [h0]
    exact Submodule.zero_mem _
  obtain ⟨n, e, hn⟩ := Cylindrical.exists_leads o h0
  obtain ⟨hmem, hsupp⟩ := normalForm_spec hb hn.below
  have hlt : ∀ m ∈ o.upTo n.toFinsupp, m ∈ o.below (l ⊔ l') := fun m hm =>
    below_of_upTo hm (hbelow _ hn.mem_support)
  rw [← sub_add_cancel (f.sPolynomial g).toMv (normalForm basis (f.sPolynomial g)).toMv]
  refine Submodule.add_mem _ (multiples_mono hG hlt hmem) ?_
  by_cases hR : (normalForm basis (f.sPolynomial g)).toMv = 0
  · rw [hR]
    exact Submodule.zero_mem _
  obtain ⟨m, c, hm⟩ := Cylindrical.exists_leads o hR
  rw [toMv_monic, ← monomial_zero']
  refine monomial_mul_mem_multiples (hr hR) (leads_monic (order_normalForm hb hne _) hm) ?_ _
  rw [zero_add]
  exact hlt _ (hsupp _ hm.mem_support).1

/-- Pairs without a common variable in their leading monomials cancel. -/
theorem cancels_of_coprimeLeads {G : Set (MvPolynomial ℕ ℚ)} (hf : f.order = o) (hg : g.order = o)
    (hl : Leads o f.toMv l d) (hl' : Leads o g.toMv l' d') (hfG : f.toMv ∈ G) (hgG : g.toMv ∈ G)
    (h : Groebner.coprimeLeads f g = true) : Cancels o G f.toMv g.toMv := by
  refine .of_coprime hl hl' hfG hgG ?_
  obtain ⟨t, ts, ht, rfl, rfl⟩ := (leads_iff hf).1 hl
  obtain ⟨u, us, hu, rfl, rfl⟩ := (leads_iff hg).1 hl'
  refine Monomial.sup_eq_add_of_isCoprime ?_
  simpa [Groebner.coprimeLeads, leadingMonomial?, leadingTerm?, ht, hu] using h

end Poly

/-! ## The state of completion -/

namespace Groebner

open Cylindrical.Poly

variable {config : Config} {o : MonomialOrder} {basis : Array Poly} {pairs : List (ℕ × ℕ)}
  {i j n steps : ℕ} {b : Poly}

theorem mem_pairsWith {k : ℕ} : (i, j) ∈ pairsWith k ↔ i < k ∧ j = k := by
  simp [pairsWith, eq_comm]

theorem mem_allPairs : (i, j) ∈ allPairs n ↔ i < j ∧ j < n := by
  simp only [allPairs, List.mem_flatMap, List.mem_reverse, List.mem_range, mem_pairsWith]
  exact ⟨fun ⟨k, hk, hi, hj⟩ => ⟨hj ▸ hi, hj ▸ hk⟩, fun ⟨hi, hj⟩ => ⟨j, hj, hi, rfl⟩⟩

theorem length_pairsWith (k : ℕ) : (pairsWith k).length = k := by simp [pairsWith]

theorem length_allPairs_le (n : ℕ) : (allPairs n).length ≤ n * n := by
  rw [allPairs, List.length_flatMap]
  refine (List.sum_le_card_nsmul _ n fun k hk => ?_).trans (by simp)
  obtain ⟨i, hi, rfl⟩ := List.mem_map.1 hk
  rw [length_pairsWith]
  exact (List.mem_range.1 (List.mem_reverse.1 hi)).le

theorem getD_mem_toList (hi : i < basis.size) : basis.getD i 0 ∈ basis.toList := by
  rw [Array.getD_eq_getD_getElem?, Array.getElem?_eq_getElem hi, Option.getD_some]
  exact Array.mem_toList_iff.2 (Array.getElem_mem hi)

theorem getD_push (hi : i < basis.size) : (basis.push b).getD i 0 = basis.getD i 0 := by
  rw [Array.getD_eq_getD_getElem?, Array.getD_eq_getD_getElem?, Array.getElem?_push_lt hi,
    Array.getElem?_eq_getElem hi]

/-- The pair of two elements cancels. -/
def Treated (o : MonomialOrder) (basis : Array Poly) (i j : ℕ) : Prop :=
  Cancels o (members basis.toList) (basis.getD i 0).toMv (basis.getD j 0).toMv

theorem members_push (basis : Array Poly) (b : Poly) :
    members basis.toList ⊆ members (basis.push b).toList := by
  rintro P ⟨p, hp, rfl⟩
  rw [Array.toList_push]
  exact mem_members (List.mem_append_left _ hp)

theorem Treated.push (h : Treated o basis i j) (hi : i < basis.size) (hj : j < basis.size) :
    Treated o (basis.push b) i j := by
  rw [Treated, getD_push hi, getD_push hj]
  exact h.mono (members_push basis b)

/-- The elements are monic, and every pair waits or cancels. -/
structure Completing (o : MonomialOrder) (basis : Array Poly) (pairs : List (ℕ × ℕ)) : Prop where
  monic : ∀ b ∈ basis.toList, IsMonic o b
  ordered : ∀ i j, (i, j) ∈ pairs → i < j ∧ j < basis.size
  treated : ∀ i j, i < j → j < basis.size → (i, j) ∈ pairs ∨ Treated o basis i j

namespace Completing

theorem start {gs : List Poly} (h : ∀ g ∈ gs, IsMonic o g) :
    Completing o gs.toArray (allPairs gs.length) where
  monic := h
  ordered _ _ := mem_allPairs.1
  treated _ _ hij hj := .inl (mem_allPairs.2 ⟨hij, hj⟩)

theorem skip (h : Completing o basis ((i, j) :: pairs)) (ht : Treated o basis i j) :
    Completing o basis pairs where
  monic := h.monic
  ordered k l hkl := h.ordered k l (.tail _ hkl)
  treated k l hkl hl := by
    rcases h.treated k l hkl hl with hmem | hdone
    · rcases List.mem_cons.1 hmem with he | hmem
      · obtain ⟨rfl, rfl⟩ := Prod.mk.inj he
        exact .inr ht
      · exact .inl hmem
    · exact .inr hdone

theorem push (h : Completing o basis ((i, j) :: pairs)) (hb : IsMonic o b)
    (ht : Treated o (basis.push b) i j) :
    Completing o (basis.push b) (pairsWith basis.size ++ pairs) where
  monic := by
    rw [Array.toList_push]
    exact List.forall_mem_append.2 ⟨h.monic, List.forall_mem_singleton.2 hb⟩
  ordered k l hkl := by
    rw [Array.size_push]
    rcases List.mem_append.1 hkl with hkl | hkl
    · obtain ⟨hk, rfl⟩ := mem_pairsWith.1 hkl
      exact ⟨hk, Nat.lt_succ_self _⟩
    · obtain ⟨hk, hl⟩ := h.ordered k l (.tail _ hkl)
      exact ⟨hk, hl.trans (Nat.lt_succ_self _)⟩
  treated k l hkl hl := by
    rw [Array.size_push] at hl
    rcases Nat.lt_succ_iff_lt_or_eq.1 hl with hl | rfl
    · rcases h.treated k l hkl hl with hmem | hdone
      · rcases List.mem_cons.1 hmem with he | hmem
        · obtain ⟨rfl, rfl⟩ := Prod.mk.inj he
          exact .inr ht
        · exact .inl (List.mem_append_right _ hmem)
      · exact .inr (hdone.push (hkl.trans hl) hl)
    · exact .inl (List.mem_append_left _ (mem_pairsWith.2 ⟨hkl, rfl⟩))

/-- Every pair has leading exponents. -/
theorem exists_leads (h : Completing o basis pairs) (hi : i < basis.size) :
    (basis.getD i 0).order = o ∧ ∃ l, Leads o (basis.getD i 0).toMv l 1 := by
  obtain ⟨ho, l, -, hl⟩ := h.monic _ (getD_mem_toList hi)
  exact ⟨ho, l, hl⟩

/-- With no pair left the elements are a Gröbner basis. -/
theorem isGroebner (h : Completing o basis []) :
    IsGroebner o (idealOf basis.toList) basis.toList where
  order b hb := (h.monic b hb).order
  mem _ := mem_idealOf
  exists_le P hP m c hm := by
    have htreated : ∀ i j, i < j → j < basis.size → Treated o basis i j := fun i j hij hj =>
      (h.treated i j hij hj).resolve_left List.not_mem_nil
    obtain ⟨-, ⟨g, hg, rfl⟩, l, d, hl, hle⟩ := exists_leads_le_of_cancels
      (G := members basis.toList) (o := o) (fun _ ⟨g, hg, he⟩ => he ▸ (h.monic g hg).ne_zero)
      (by
        rintro _ ⟨f, hf, rfl⟩ _ ⟨g, hg, rfl⟩
        obtain ⟨i, hi, rfl⟩ := List.mem_iff_getElem.1 hf
        obtain ⟨j, hj, rfl⟩ := List.mem_iff_getElem.1 hg
        have hget : ∀ {k} (hk : k < basis.toList.length), basis.toList[k] = basis.getD k 0 :=
          fun hk => by simp [Array.getD, show _ < basis.size from hk]
        rw [hget hi, hget hj]
        rcases lt_trichotomy i j with hij | rfl | hji
        · exact htreated i j hij hj
        · exact .refl _ _ _
        · exact (htreated j i hji hi).symm) hP hm
    exact ⟨g, hg, l, d, hl, hle⟩

end Completing

/-! ## The steps of completion -/

theorem Completing.treated_of_coprimeLeads (h : Completing o basis ((i, j) :: pairs))
    (hc : coprimeLeads (basis.getD i 0) (basis.getD j 0) = true) : Treated o basis i j := by
  obtain ⟨hij, hj⟩ := h.ordered i j (.head _)
  obtain ⟨hf, l, hl⟩ := h.exists_leads (hij.trans hj)
  obtain ⟨hg, l', hl'⟩ := h.exists_leads hj
  exact cancels_of_coprimeLeads hf hg hl hl' (mem_members (getD_mem_toList (hij.trans hj)))
    (mem_members (getD_mem_toList hj)) hc

/-- The pair cancels as soon as the monic remainder of its S-polynomial is an element. -/
theorem Completing.cancels (h : Completing o basis ((i, j) :: pairs))
    {G : Set (MvPolynomial ℕ ℚ)} (hG : members basis.toList ⊆ G)
    (hr : (normalForm basis.toList ((basis.getD i 0).sPolynomial (basis.getD j 0))).toMv ≠ 0 →
      (normalForm basis.toList ((basis.getD i 0).sPolynomial (basis.getD j 0))).monic.toMv ∈ G) :
    Cancels o G (basis.getD i 0).toMv (basis.getD j 0).toMv := by
  obtain ⟨hij, hj⟩ := h.ordered i j (.head _)
  obtain ⟨hf, l, hl⟩ := h.exists_leads (hij.trans hj)
  obtain ⟨hg, l', hl'⟩ := h.exists_leads hj
  exact cancels_of_normalForm (fun b hb => (h.monic b hb).order)
    (List.ne_nil_of_mem (getD_mem_toList hj)) hG hf hg hl hl' hr

/-- The steps suffice until no pair waits, and no element is lost. -/
theorem complete_spec {basis' : Array Poly} {s t : Stats} (h : Completing o basis pairs)
    (hmax : config.maxBasisSize ≤ n) (hsize : basis.size ≤ n)
    (hsteps : pairs.length + n * n ≤ steps + basis.size * basis.size)
    (hrun : complete config steps basis pairs s = .ok (some basis') t) :
    Completing o basis' [] ∧ ∀ b ∈ basis.toList, b ∈ basis'.toList := by
  induction steps generalizing basis pairs s with
  | zero =>
    obtain ⟨he, -⟩ := run_pure_eq_ok hrun
    obtain rfl := Option.some.inj he
    have hsquare : basis'.size * basis'.size ≤ n * n := Nat.mul_le_mul hsize hsize
    obtain rfl : pairs = [] := List.length_eq_zero_iff.1 (by omega)
    exact ⟨h, fun b hb => hb⟩
  | succ steps ih =>
    cases pairs with
    | nil =>
      obtain ⟨he, -⟩ := run_pure_eq_ok hrun
      obtain rfl := Option.some.inj he
      exact ⟨h, fun b hb => hb⟩
    | cons pair pairs =>
      obtain ⟨i, j⟩ := pair
      rw [List.length_cons] at hsteps
      rw [complete] at hrun
      dsimp only at hrun
      split_ifs at hrun with hskip hzero hconst hfull
      · -- the product criterion
        rw [Bool.and_eq_true] at hskip
        exact ih (h.skip (h.treated_of_coprimeLeads hskip.2)) hsize (by omega) hrun
      · -- the remainder is zero
        exact ih (h.skip (h.cancels subset_rfl fun h0 => absurd (toMv_eq_zero_iff.2 hzero) h0))
          hsize (by omega) hrun
      · -- the remainder is a number
        obtain ⟨he, -⟩ := run_pure_eq_ok hrun
        cases he
      · cases hrun
      · -- the remainder is added
        obtain ⟨hij, hj⟩ := h.ordered i j (.head _)
        have hne : basis.toList ≠ [] := List.ne_nil_of_mem (getD_mem_toList hj)
        have hmonic := isMonic_monic
          (order_normalForm (fun b hb => (h.monic b hb).order) hne _)
          (isZero_eq_false_iff.1 (Bool.eq_false_iff.2 hzero)) hconst
        have hpush := h.push hmonic (by
          rw [Treated, getD_push (hij.trans hj), getD_push hj]
          refine h.cancels (members_push basis _) fun _ => mem_members ?_
          rw [Array.toList_push]
          exact List.mem_append_right _ (List.mem_singleton_self _))
        obtain ⟨hdone, hkeep⟩ := ih hpush
          (by rw [Array.size_push]; omega)
          (by
            rw [List.length_append, length_pairsWith, Array.size_push]
            have hsq : (basis.size + 1) * (basis.size + 1) =
              basis.size * basis.size + 2 * basis.size + 1 := by ring
            omega) hrun
        refine ⟨hdone, fun b hb => hkeep b ?_⟩
        rw [Array.toList_push]
        exact List.mem_append_left _ hb

end Groebner

end Cylindrical

end
