import Mathlib
import Cylindrical.Proofs.Groebner
import Cylindrical.Proofs.Groebner.Criterion

/-!
# Reduction

Modulo polynomials in one order each step of the reduction cancels the leading term, so that no step
is spent on a rise.  What is subtracted is a sum of multiples that are bounded like the polynomial
itself, and no leading exponents divide what is left (`Poly.normalForm_spec`).
-/

noncomputable section

open MvPolynomial

namespace Cylindrical

open Cylindrical.MonomialOrder

namespace Poly

variable {o : MonomialOrder} {basis : List Poly} {p g : Poly} {m n : ℕ →₀ ℕ}

/-- The polynomials of a list. -/
def members (ps : List Poly) : Set (MvPolynomial ℕ ℚ) := {P | ∃ p ∈ ps, P = p.toMv}

theorem mem_members {ps : List Poly} (h : p ∈ ps) : p.toMv ∈ members ps := ⟨p, h, rfl⟩

/-- No leading exponents of the list divide these. -/
def IrreducibleBy (o : MonomialOrder) (basis : List Poly) (n : ℕ →₀ ℕ) : Prop :=
  ∀ g ∈ basis, ∀ l d, Leads o g.toMv l d → ¬l ≤ n

/-- The leading term of a polynomial is its first one. -/
theorem leads_iff {l : ℕ →₀ ℕ} {d : ℚ} (ho : p.order = o) :
    Leads o p.toMv l d ↔
      ∃ t ts, p.terms = t :: ts ∧ t.monomial.toFinsupp = l ∧ t.coeff = d := by
  subst ho
  constructor
  · intro h
    cases ht : p.terms with
    | nil => exact absurd (toMv_eq_zero_of_isZero (by rw [isZero, ht]; rfl)) h.poly_ne_zero
    | cons t ts =>
      obtain ⟨hm, hc⟩ := (leads_of_terms ht).unique h
      exact ⟨t, ts, rfl, hm, hc⟩
  · rintro ⟨t, ts, ht, rfl, rfl⟩
    exact leads_of_terms ht

/-! ## One step -/

theorem irreducibleBy_of_reducer? {t : Term} (hb : ∀ g ∈ basis, g.order = o)
    (h : reducer? t basis = none) : IrreducibleBy o basis t.monomial.toFinsupp := by
  induction basis with
  | nil => exact List.forall_mem_nil _
  | cons g gs ih =>
    obtain ⟨hg, hgs⟩ := List.forall_mem_cons.1 hb
    rw [reducer?] at h
    refine List.forall_mem_cons.2 ⟨fun l d hl => ?_, ?_⟩
    · obtain ⟨u, us, hu, rfl, -⟩ := (leads_iff hg).1 hl
      rw [hu] at h
      cases hd : t.monomial.div? u.monomial with
      | none => exact Monomial.div?_eq_none_iff.1 hd
      | some m => simp [hd] at h
    · split at h
      · exact ih hgs h
      · split at h
        · cases h
        · exact ih hgs h

section

variable {t q : Term} {ts us : List Term}

/-- The step subtracts a multiple with the leading term that is reduced. -/
theorem exists_of_step (ts : List Term) (hb : ∀ g ∈ basis, g.order = o)
    (h : reducer? t basis = some (q, us)) :
    ∃ g ∈ basis, ∃ l d, Leads o g.toMv l d ∧ q.monomial.toFinsupp + l = t.monomial.toFinsupp ∧
      q.coeff * d = t.coeff ∧
      sumOf (addTerms o ts (mulTerm o ⟨-q.coeff, q.monomial⟩ us)) = sumOf ts - q.toMv * g.toMv := by
  obtain ⟨g, hg, rfl, u, vs, hu, hm, hc⟩ := reducer?_eq_some h
  have hl := (leads_iff (hb g hg)).2 ⟨u, vs, hu, rfl, rfl⟩
  refine ⟨g, hg, u.monomial.toFinsupp, u.coeff, hl, (Monomial.toFinsupp_div? hm).symm, ?_, ?_⟩
  · rw [hc, div_mul_cancel₀ _ hl.ne_zero]
  · have hneg : (⟨-q.coeff, q.monomial⟩ : Term).toMv = -q.toMv := by
      rw [Term.toMv, map_neg, Term.toMv]
    rw [sumOf_addTerms, sumOf_mulTerm, hneg, neg_mul, ← sub_eq_add_neg]
    rfl

/-- Modulo polynomials in one order the leading monomial goes down. -/
theorem leadBelow_of_step (hb : ∀ g ∈ basis, g.order = o) (ht : TermList o (t :: ts))
    (h : reducer? t basis = some (q, us)) :
    LeadBelow o (addTerms o (t :: ts) (mulTerm o ⟨-q.coeff, q.monomial⟩ us)) (t :: ts) := by
  obtain ⟨g, -, l, d, hl, hm, hc, hsum⟩ := exists_of_step (t :: ts) hb h
  have hvalid : TermList o (addTerms o (t :: ts) (mulTerm o ⟨-q.coeff, q.monomial⟩ us)) :=
    ht.addTerms (.collectTerms _)
  have hlead : Leads o (sumOf (t :: ts)) t.monomial.toFinsupp t.coeff :=
    leads_of_terms (p := ⟨o, t :: ts, ht⟩) rfl
  have hq0 : q.coeff ≠ 0 := fun h0 => hlead.ne_zero (by rw [← hc, h0, zero_mul])
  have hmul : Leads o (q.toMv * g.toMv) t.monomial.toFinsupp t.coeff :=
    hm ▸ hc ▸ (Leads.monomial _ hq0).mul hl
  intro s hs
  refine compare_eq_lt_iff.2 (hlead.sub_below hmul _ ?_)
  rw [← hsum]
  exact mem_support_toMv (p := ⟨o, _, hvalid⟩).2 ⟨s, List.mem_of_mem_head? hs, rfl⟩

end

/-! ## Reduction of lists of terms -/

theorem mem_below_of_leadBelow {t : Term} {ts us : List Term} (hu : TermList o us)
    (h : LeadBelow o us (t :: ts)) :
    ∀ s ∈ us, s.monomial.toFinsupp ∈ o.below t.monomial.toFinsupp := by
  cases us with
  | nil => exact List.forall_mem_nil _
  | cons u us =>
    have hhead : u.monomial.toFinsupp ∈ o.below t.monomial.toFinsupp :=
      compare_eq_lt_iff.1 (h u rfl)
    exact List.forall_mem_cons.2
      ⟨hhead, fun s hs => (compare_eq_lt_iff.1 (hu.lt_head s hs)).trans hhead⟩

/-- What is subtracted is bounded like the terms, and the terms that are left are irreducible. -/
theorem reduceTerms_spec (hb : ∀ g ∈ basis, g.order = o) (rises : ℕ) (ts : List Term)
    (h : TermList o ts) (hn : ∀ t ∈ ts, t.monomial.toFinsupp ∈ o.upTo n) :
    sumOf ts - sumOf (reduceTerms o basis rises ts h) ∈ multiples o (members basis) (o.upTo n) ∧
      ∀ t ∈ reduceTerms o basis rises ts h, t.monomial.toFinsupp ∈ o.upTo n ∧
        IrreducibleBy o basis t.monomial.toFinsupp := by
  fun_induction reduceTerms o basis rises ts h with
  | case1 => exact ⟨by simp, List.forall_mem_nil _⟩
  | case2 rises t ts h hr _ ih =>
    obtain ⟨hmem, hts⟩ := ih fun s hs => hn s (.tail _ hs)
    exact ⟨by simpa using hmem,
      List.forall_mem_cons.2 ⟨⟨hn t (.head _), irreducibleBy_of_reducer? hb hr⟩, hts⟩⟩
  | case3 rises t ts h q us hr rest hbelow _ ih =>
    obtain ⟨g, hg, l, d, hl, hm, -, hsum⟩ := exists_of_step (t :: ts) hb hr
    obtain ⟨hmem, hts⟩ := ih fun s hs =>
      upTo_trans (below_subset_upTo o _ (mem_below_of_leadBelow rest hbelow s hs)) (hn t (.head _))
    refine ⟨?_, hts⟩
    rw [← sub_add_sub_cancel (sumOf (t :: ts))
      (sumOf (addTerms o (t :: ts) (mulTerm o ⟨-q.coeff, q.monomial⟩ us)))]
    refine Submodule.add_mem _ ?_ hmem
    rw [hsum, sub_sub_cancel]
    exact monomial_mul_mem_multiples (mem_members hg) hl (hm ▸ hn t (.head _)) _
  | case4 t ts h q us hr _ hbelow => exact absurd (leadBelow_of_step hb h hr) hbelow
  | case5 t ts h q us hr _ hbelow => exact absurd (leadBelow_of_step hb h hr) hbelow

/-! ## Normal forms -/

theorem order_normalForm (hb : ∀ g ∈ basis, g.order = o) (hne : basis ≠ []) (p : Poly) :
    (normalForm basis p).order = o := by
  obtain ⟨g, gs, rfl⟩ := List.exists_cons_of_ne_nil hne
  exact (order_withOrder _ p).trans (hb g (.head _))

theorem idealOf_nil : idealOf [] = ⊥ := le_bot_iff.1 (idealOf_le (List.forall_mem_nil _))

theorem toMv_normalForm_nil (p : Poly) : (normalForm [] p).toMv = p.toMv := by
  have hsub := sub_normalForm_mem_idealOf [] p
  rw [idealOf_nil, Ideal.mem_bot] at hsub
  exact (sub_eq_zero.1 hsub).symm

/-- The normal form is irreducible, and differs from the polynomial by multiples that are bounded
like it. -/
theorem normalForm_spec (hb : ∀ g ∈ basis, g.order = o) (hn : ∀ m ∈ p.toMv.support, m ∈ o.upTo n) :
    p.toMv - (normalForm basis p).toMv ∈ multiples o (members basis) (o.upTo n) ∧
      ∀ m ∈ (normalForm basis p).toMv.support, m ∈ o.upTo n ∧ IrreducibleBy o basis m := by
  cases basis with
  | nil =>
    rw [toMv_normalForm_nil, sub_self]
    exact ⟨Submodule.zero_mem _, fun m hm => ⟨hn m hm, List.forall_mem_nil _⟩⟩
  | cons g gs =>
    have ho : (p.withOrder g.order).order = o := (order_withOrder _ p).trans (hb g (.head _))
    have hvalid : TermList o (p.withOrder g.order).terms := ho ▸ (p.withOrder g.order).valid
    have hnf : (normalForm (g :: gs) p).toMv =
        sumOf (reduceTerms o (g :: gs) stepLimit (p.withOrder g.order).terms hvalid) := by
      refine (toMv_ofTerms _ _).trans ?_
      congr 1
      subst ho
      rfl
    have hterms : ∀ t ∈ (p.withOrder g.order).terms, t.monomial.toFinsupp ∈ o.upTo n := fun t ht =>
      hn _ (by
        rw [← toMv_withOrder g.order p]
        exact mem_support_toMv.2 ⟨t, ht, rfl⟩)
    obtain ⟨hmem, hts⟩ := reduceTerms_spec hb stepLimit _ hvalid hterms
    rw [hnf]
    refine ⟨?_, fun m hm => ?_⟩
    · rw [← toMv_withOrder g.order p]
      exact hmem
    · obtain ⟨t, ht, rfl⟩ := exists_of_mem_support_sumOf hm
      exact hts t ht

/-! ## Gröbner bases -/

/-- The leading exponents of the ideal are divisible by those of the basis. -/
structure IsGroebner (o : MonomialOrder) (I : Ideal (MvPolynomial ℕ ℚ)) (basis : List Poly) :
    Prop where
  order : ∀ g ∈ basis, g.order = o
  mem : ∀ g ∈ basis, g.toMv ∈ I
  exists_le : ∀ P ∈ I, ∀ m c, Leads o P m c → ∃ g ∈ basis, ∃ l d, Leads o g.toMv l d ∧ l ≤ m

namespace IsGroebner

variable {I : Ideal (MvPolynomial ℕ ℚ)}

theorem eq_zero_of_irreducible (h : IsGroebner o I basis) {P : MvPolynomial ℕ ℚ} (hP : P ∈ I)
    (hirr : ∀ m ∈ P.support, IrreducibleBy o basis m) : P = 0 := by
  by_contra h0
  obtain ⟨m, c, hm⟩ := Cylindrical.exists_leads o h0
  obtain ⟨g, hg, l, d, hl, hle⟩ := h.exists_le P hP _ _ hm
  exact hirr _ hm.mem_support g hg l d hl hle

/-- The normal form decides membership. -/
theorem isZero_normalForm_iff (h : IsGroebner o I basis) (p : Poly) :
    (normalForm basis p).isZero = true ↔ p.toMv ∈ I := by
  have hsub : p.toMv - (normalForm basis p).toMv ∈ I :=
    idealOf_le h.mem (sub_normalForm_mem_idealOf basis p)
  rw [← toMv_eq_zero_iff]
  constructor
  · intro h0
    rwa [h0, sub_zero] at hsub
  · intro hp
    obtain ⟨n, hn⟩ : ∃ n, ∀ m ∈ p.toMv.support, m ∈ o.upTo n := by
      by_cases h0 : p.toMv = 0
      · exact ⟨0, by simp [h0]⟩
      · obtain ⟨m, c, hm⟩ := Cylindrical.exists_leads o h0
        exact ⟨_, hm.below⟩
    refine h.eq_zero_of_irreducible ?_ fun m hm => ((normalForm_spec h.order hn).2 m hm).2
    have := I.sub_mem hp hsub
    rwa [sub_sub_cancel] at this

theorem idealOf_eq (h : IsGroebner o I basis) : idealOf basis = I := by
  refine le_antisymm (idealOf_le h.mem) fun P hP => ?_
  obtain ⟨p, -, rfl⟩ := exists_toMv_eq P
  have hsub := sub_normalForm_mem_idealOf basis p
  rwa [toMv_eq_zero_iff.2 ((h.isZero_normalForm_iff p).2 hP), sub_zero] at hsub

end IsGroebner

end Poly

end Cylindrical

end
