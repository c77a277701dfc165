import Mathlib
import Cylindrical.Proofs.Groebner.Reduced
import Cylindrical.Proofs.Poly.Operations

/-!
# Normal forms

The reduction goes in rounds, which hold the terms still to be treated and those that are finished.
Modulo polynomials in one order, zeros among them or not, a round lowers the leading monomial of what
is still to be treated, so the rounds end, and they end in the normal form (`exists_reductionRounds`).
What was subtracted is a sum of multiples that lead no higher than the polynomial, no leading monomial
divides what is left, and a second reduction changes nothing (`normalForm_reduced`).
-/

noncomputable section

open MvPolynomial

namespace Cylindrical

open Cylindrical.MonomialOrder

namespace Poly

variable {o : MonomialOrder} {basis : List Poly} {p : Poly} {P : MvPolynomial ℕ ℚ}
  {S : Set (ℕ →₀ ℕ)} {m n : ℕ →₀ ℕ} {ts : List Term}

/-! ## Multiples of each polynomial of a list -/

/-- A sum of multiples, collected for each place of the list. -/
theorem exists_sum_of_mem_multiples (h : P ∈ multiples o (members basis) S) :
    ∃ q : Fin basis.length → MvPolynomial ℕ ℚ, P = ∑ i, q i * (basis.get i).toMv ∧
      ∀ i, ∀ k ∈ (q i).support, ∀ l d, Leads o (basis.get i).toMv l d → k + l ∈ S := by
  refine Submodule.span_induction (p := fun P _ => ∃ q : Fin basis.length → MvPolynomial ℕ ℚ,
      P = ∑ i, q i * (basis.get i).toMv ∧
        ∀ i, ∀ k ∈ (q i).support, ∀ l d, Leads o (basis.get i).toMv l d → k + l ∈ S)
    ?_ ⟨0, by simp, by simp⟩ ?_ ?_ h
  · rintro P ⟨-, ⟨g, hg, rfl⟩, k, l, d, hl, hS, rfl⟩
    obtain ⟨i, rfl⟩ := List.mem_iff_get.1 hg
    refine ⟨Pi.single i (monomial k 1), ?_, fun j k' hk' l' d' hl' => ?_⟩
    · rw [Finset.sum_eq_single i (fun j _ hj => by rw [Pi.single_eq_of_ne hj, zero_mul])
        fun hi => absurd (Finset.mem_univ i) hi, Pi.single_eq_same]
    · by_cases hj : j = i
      · subst hj
        rw [Pi.single_eq_same] at hk'
        obtain rfl := Finset.mem_singleton.1 (support_monomial_subset hk')
        exact (hl.unique hl').1 ▸ hS
      · rw [Pi.single_eq_of_ne hj, support_zero] at hk'
        exact absurd hk' (Finset.notMem_empty k')
  · rintro P Q - - ⟨q, rfl, hq⟩ ⟨r, rfl, hr⟩
    refine ⟨q + r, ?_, fun i k hk l d hl => ?_⟩
    · simp only [Pi.add_apply, add_mul, Finset.sum_add_distrib]
    · exact (Finset.mem_union.1 (support_add hk)).elim (hq i k · l d hl) (hr i k · l d hl)
  · rintro c P - ⟨q, rfl, hq⟩
    refine ⟨c • q, ?_, fun i k hk l d hl => hq i k (support_smul hk) l d hl⟩
    simp only [Pi.smul_apply, smul_mul_assoc, Finset.smul_sum]

/-- A multiple leads with a sum of exponents of the factor and those of the polynomial. -/
theorem mem_of_leads_mul {q g : MvPolynomial ℕ ℚ} {c : ℚ}
    (hq : ∀ k ∈ q.support, ∀ l d, Leads o g l d → k + l ∈ S) (h : Leads o (q * g) m c) : m ∈ S := by
  obtain ⟨k, a, hk⟩ := Cylindrical.exists_leads o (left_ne_zero_of_mul h.poly_ne_zero)
  obtain ⟨l, d, hl⟩ := Cylindrical.exists_leads o (right_ne_zero_of_mul h.poly_ne_zero)
  rw [(h.unique (hk.mul hl)).1]
  exact hq _ hk.mem_support _ _ hl

/-! ## Rounds of the reduction -/

/-- One round on the terms still to be treated and the finished ones: a multiple of a polynomial of the
list cancels the leading term, or the leading term is finished. -/
def reductionRound (o : MonomialOrder) (basis : List Poly) :
    List Term × List Term → Option (List Term × List Term)
  | ([], _) => none
  | (t :: ts, done) =>
    match reducer? t basis with
    | none => some (ts, done ++ [t])
    | some (q, us) => some (addTerms o (t :: ts) (mulTerm o ⟨-q.coeff, q.monomial⟩ us), done)

/-- What a number of rounds leads to, if they do not end earlier. -/
def reductionRounds (o : MonomialOrder) (basis : List Poly) :
    ℕ → List Term × List Term → Option (List Term × List Term)
  | 0, s => some s
  | k + 1, s => (reductionRound o basis s).bind (reductionRounds o basis k)

/-- Rounds that end do so in one way. -/
theorem reductionRounds_unique {s : List Term × List Term} {j k : ℕ} {ts us : List Term}
    (hj : reductionRounds o basis j s = some ([], ts))
    (hk : reductionRounds o basis k s = some ([], us)) : ts = us := by
  induction j generalizing k s with
  | zero =>
    obtain rfl := Option.some.inj hj
    cases k with
    | zero => exact congrArg Prod.snd (Option.some.inj hk)
    | succ k => cases hk
  | succ j ih =>
    obtain ⟨s', hs, hj⟩ := Option.bind_eq_some_iff.1 hj
    cases k with
    | zero =>
      obtain rfl := Option.some.inj hk
      cases hs
    | succ k =>
      obtain ⟨s'', hs', hk⟩ := Option.bind_eq_some_iff.1 hk
      obtain rfl := Option.some.inj (hs.symm.trans hs')
      exact ih hj hk

/-- Modulo polynomials in one order the rounds end, in the terms that are left. -/
theorem exists_reductionRounds (hb : ∀ g ∈ basis, g.order = o) (rises : ℕ) (h : TermList o ts)
    (done : List Term) : ∃ k, reductionRounds o basis k (ts, done) =
      some ([], done ++ reduceTerms o basis rises ts h) := by
  fun_induction reduceTerms o basis rises ts h generalizing done with
  | case1 => exact ⟨0, by rw [reductionRounds, List.append_nil]⟩
  | case2 rises t ts h hr _ ih =>
    obtain ⟨k, hk⟩ := ih (done ++ [t])
    refine ⟨k + 1, ?_⟩
    rw [List.append_cons, reductionRounds, reductionRound, hr]
    exact hk
  | case3 rises t ts h q us hr _ _ _ ih =>
    obtain ⟨k, hk⟩ := ih done
    refine ⟨k + 1, ?_⟩
    rw [reductionRounds, reductionRound, hr]
    exact hk
  | case4 t ts h q us hr _ hbelow => exact absurd (leadBelow_of_step hb h hr) hbelow
  | case5 t ts h q us hr _ hbelow => exact absurd (leadBelow_of_step hb h hr) hbelow

/-! ## Terms that are left -/

theorem termList_reduceTerms (hb : ∀ g ∈ basis, g.order = o) (rises : ℕ) (h : TermList o ts) :
    TermList o (reduceTerms o basis rises ts h) := by
  fun_induction reduceTerms o basis rises ts h with
  | case1 => exact .nil
  | case2 rises t ts h _ _ ih =>
    refine ih.cons (fun s hs => ?_) h.head_ne_zero
    -- what is left of the tail is bounded like its first term
    cases ts with
    | nil => simp [reduceTerms] at hs
    | cons u us =>
      have hfirst : ∀ r ∈ u :: us, r.monomial.toFinsupp ∈ o.upTo u.monomial.toFinsupp :=
        List.forall_mem_cons.2 ⟨self_mem_upTo o _,
          fun r hr => .inr (compare_eq_lt_iff.1 (h.tail.lt_head r hr))⟩
      refine compare_eq_lt_iff.2 (below_of_upTo
        ((reduceTerms_spec hb rises _ h.tail hfirst).2 s hs).1 ?_)
      exact compare_eq_lt_iff.1 (h.lt_head u (.head _))
  | case3 rises t ts h q us hr _ _ _ ih => exact ih
  | case4 t ts h q us hr _ hbelow => exact absurd (leadBelow_of_step hb h hr) hbelow
  | case5 t ts h q us hr _ hbelow => exact absurd (leadBelow_of_step hb h hr) hbelow

theorem reducer?_eq_none (hb : ∀ g ∈ basis, g.order = o) {t : Term}
    (h : IrreducibleBy o basis t.monomial.toFinsupp) : reducer? t basis = none := by
  refine Option.eq_none_iff_forall_ne_some.2 fun ⟨q, us⟩ hr => ?_
  obtain ⟨g, hg, l, d, hl, hm, -⟩ := exists_of_step [] hb hr
  exact h g hg l d hl (hm ▸ le_add_self)

/-- Irreducible terms stay. -/
theorem reduceTerms_of_irreducible (hb : ∀ g ∈ basis, g.order = o) (rises : ℕ) (h : TermList o ts)
    (hirr : ∀ t ∈ ts, IrreducibleBy o basis t.monomial.toFinsupp) :
    reduceTerms o basis rises ts h = ts := by
  induction ts with
  | nil => rw [reduceTerms]
  | cons t ts ih =>
    obtain ⟨ht, hts⟩ := List.forall_mem_cons.1 hirr
    rw [reduceTerms]
    split
    · rw [ih h.tail hts]
    · rename_i q us hr
      cases (reducer?_eq_none hb ht).symm.trans hr

/-! ## The normal form -/

/-- The order in which a polynomial is reduced: that of the list, and its own if the list is empty. -/
def reductionOrder (basis : List Poly) (p : Poly) : MonomialOrder :=
  match basis with
  | [] => p.order
  | g :: _ => g.order

theorem order_eq_reductionOrder (hb : ∀ g ∈ basis, g.order = o) (p : Poly) :
    ∀ g ∈ basis, g.order = reductionOrder basis p := by
  cases basis with
  | nil => exact List.forall_mem_nil _
  | cons g gs => exact fun h hh => (hb h hh).trans (hb g (.head _)).symm

/-- The terms of a polynomial as they are reduced. -/
def reductionTerms (basis : List Poly) (p : Poly) : List Term :=
  (p.withOrder (reductionOrder basis p)).terms

theorem valid_reductionTerms (basis : List Poly) (p : Poly) :
    TermList (reductionOrder basis p) (reductionTerms basis p) := valid_withOrder _ p

theorem order_normalForm_eq (basis : List Poly) (p : Poly) :
    (normalForm basis p).order = reductionOrder basis p :=
  order_withOrder (reductionOrder basis p) p

theorem terms_normalForm (hb : ∀ g ∈ basis, g.order = reductionOrder basis p) :
    (normalForm basis p).terms = reduceTerms (reductionOrder basis p) basis stepLimit
      (reductionTerms basis p) (valid_reductionTerms basis p) := by
  have hterms : ∀ (o : MonomialOrder) (q : Poly) (hq : q.order = o) (hv : TermList o q.terms),
      (∀ g ∈ basis, g.order = o) →
        (ofTerms q.order (reduceTerms q.order basis stepLimit q.terms q.valid)).terms =
          reduceTerms o basis stepLimit q.terms hv := by
    rintro - q rfl hv hb
    exact collectTerms_of_termList (termList_reduceTerms hb stepLimit q.valid)
  exact hterms _ _ (order_withOrder _ p) _ hb

/-- Reduction subtracts a sum of multiples, none of which leads above the polynomial. -/
theorem exists_sum_of_normalForm (hb : ∀ g ∈ basis, g.order = reductionOrder basis p) :
    ∃ q : Fin basis.length → MvPolynomial ℕ ℚ,
      p.toMv - (normalForm basis p).toMv = ∑ i, q i * (basis.get i).toMv ∧
        ∀ i m c, Leads (reductionOrder basis p) (q i * (basis.get i).toMv) m c →
          ∃ n d, Leads (reductionOrder basis p) p.toMv n d ∧ m ∈ (reductionOrder basis p).upTo n := by
  by_cases h0 : p.toMv = 0
  · -- zero has no leading exponents, and nothing is subtracted from it
    refine ⟨0, ?_, fun i m c hl => ?_⟩
    · have hts : reductionTerms basis p = [] :=
        List.isEmpty_iff.1 (toMv_eq_zero_iff.1 ((toMv_withOrder _ p).trans h0))
      have hnf : (normalForm basis p).terms = [] := by
        rw [terms_normalForm hb, reduceTerms_of_irreducible hb _ _
          (by rw [hts]; exact List.forall_mem_nil _), hts]
      rw [h0, toMv_eq_zero_of_isZero (by rw [isZero, hnf]; rfl)]
      simp
    · rw [Pi.zero_apply, zero_mul] at hl
      exact absurd rfl hl.poly_ne_zero
  · obtain ⟨n, d, hn⟩ := Cylindrical.exists_leads (reductionOrder basis p) h0
    obtain ⟨q, hsum, hq⟩ := exists_sum_of_mem_multiples (normalForm_spec hb hn.below).1
    exact ⟨q, hsum, fun i m c hl => ⟨_, d, hn, mem_of_leads_mul (hq i) hl⟩⟩

theorem irreducibleBy_of_mem_normalForm (hb : ∀ g ∈ basis, g.order = reductionOrder basis p) :
    ∀ t ∈ (normalForm basis p).terms,
      IrreducibleBy (reductionOrder basis p) basis t.monomial.toFinsupp := fun t ht => by
  rw [terms_normalForm hb] at ht
  have hbound : ∃ n, ∀ u ∈ reductionTerms basis p,
      u.monomial.toFinsupp ∈ (reductionOrder basis p).upTo n := by
    cases hts : reductionTerms basis p with
    | nil => exact ⟨0, List.forall_mem_nil _⟩
    | cons u us =>
      have hv : TermList (reductionOrder basis p) (u :: us) := hts ▸ valid_reductionTerms basis p
      exact ⟨u.monomial.toFinsupp, List.forall_mem_cons.2 ⟨self_mem_upTo _ _,
        fun r hr => .inr (compare_eq_lt_iff.1 (hv.lt_head r hr))⟩⟩
  obtain ⟨n, hn⟩ := hbound
  exact ((reduceTerms_spec hb stepLimit _ (valid_reductionTerms basis p) hn).2 t ht).2

theorem normalForm_normalForm (hb : ∀ g ∈ basis, g.order = reductionOrder basis p) :
    normalForm basis (normalForm basis p) = normalForm basis p := by
  have hr : reductionOrder basis (normalForm basis p) = reductionOrder basis p := by
    cases basis with
    | nil => exact order_normalForm_eq [] p
    | cons g gs => rfl
  have hts : reductionTerms basis (normalForm basis p) = (normalForm basis p).terms := by
    rw [reductionTerms, withOrder, if_pos ((order_normalForm_eq basis p).trans hr.symm)]
  have hirr := irreducibleBy_of_mem_normalForm hb
  refine Poly.ext ((order_normalForm_eq _ _).trans (hr.trans (order_normalForm_eq _ _).symm)) ?_
  have hb' : ∀ g ∈ basis, g.order = reductionOrder basis (normalForm basis p) := hr.symm ▸ hb
  rw [terms_normalForm hb', reduceTerms_of_irreducible hb' _ _ (by rw [hr, hts]; exact hirr), hts]

/-- Zero and two polynomials whose S-polynomial does not reduce to zero. -/
def zeroAndTwo : List Poly :=
  [Poly.withOrder .lex 0, (ofPower 1 1 * ofPower 0 1 - const 1).withOrder .lex,
    (ofPower 0 2 - const 1).withOrder .lex]

end Poly

end Cylindrical

end
