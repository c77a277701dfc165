import Mathlib
import Cylindrical.Proofs.Groebner.Reduction
import Cylindrical.Proofs.Poly.Division

/-!
# Exact division decides divisibility

The division as a relation without a bound on its steps (`DividesTo`): it goes on until no term is left
or a leading term is not divisible.  Each step is a step of the reduction modulo the divisor, so the
leading monomial goes down and the division ends, in one way only (`existsUnique_dividesTo`).  It ends
with a quotient exactly if there is one, and what is computed with a bounded number of steps is what it
ends with (`Poly.divExact?_decides_dvd`).
-/

noncomputable section

open MvPolynomial

namespace Cylindrical

variable {o : MonomialOrder} {lead : Term} {d ds ts qs : List Term} {r r' : Option (List Term)}

/-- What the division of a list of terms by `d`, which begins with `lead`, ends with: the terms of the
quotient, or nothing if a leading term is not divisible. -/
inductive DividesTo (o : MonomialOrder) (lead : Term) (d : List Term) :
    List Term → Option (List Term) → Prop
  | done : DividesTo o lead d [] (some [])
  | stuck {t : Term} {ts : List Term} (h : t.monomial.div? lead.monomial = none) :
      DividesTo o lead d (t :: ts) none
  | step {t : Term} {ts : List Term} {m : Monomial} {r : Option (List Term)}
      (h : t.monomial.div? lead.monomial = some m)
      (hr : DividesTo o lead d
        (addTerms o (t :: ts) (mulTerm o ⟨-(t.coeff / lead.coeff), m⟩ d)) r) :
      DividesTo o lead d (t :: ts) (r.map (⟨t.coeff / lead.coeff, m⟩ :: ·))

/-! ## The division ends -/

theorem DividesTo.unique (h : DividesTo o lead d ts r) (h' : DividesTo o lead d ts r') : r = r' := by
  induction h generalizing r' with
  | done =>
    cases h'
    rfl
  | stuck hnone =>
    cases h' with
    | stuck => rfl
    | step hsome => cases hnone.symm.trans hsome
  | step hsome _ ih =>
    cases h' with
    | stuck hnone => cases hnone.symm.trans hsome
    | step hsome' hr' =>
      obtain rfl := Option.some.inj (hsome.symm.trans hsome')
      rw [ih hr']

/-- A step of the division is a step of the reduction modulo the divisor. -/
theorem reducer?_singleton (hd : TermList o (lead :: ds)) {t : Term} {m : Monomial}
    (h : t.monomial.div? lead.monomial = some m) :
    Poly.reducer? t [⟨o, lead :: ds, hd⟩] = some (⟨t.coeff / lead.coeff, m⟩, lead :: ds) := by
  simp only [Poly.reducer?, h]

theorem leadBelow_divisionStep (hd : TermList o (lead :: ds)) {t : Term}
    (hts : TermList o (t :: ts)) {m : Monomial} (h : t.monomial.div? lead.monomial = some m) :
    LeadBelow o (addTerms o (t :: ts) (mulTerm o ⟨-(t.coeff / lead.coeff), m⟩ (lead :: ds)))
      (t :: ts) :=
  Poly.leadBelow_of_step (List.forall_mem_singleton.2 rfl) hts (reducer?_singleton hd h)

theorem exists_dividesTo (hd : TermList o (lead :: ds)) (hts : TermList o ts) :
    ∃ r, DividesTo o lead (lead :: ds) ts r := by
  induction ts using (wellFounded_leadBelow o).induction with
  | h ts ih =>
    cases ts with
    | nil => exact ⟨_, .done⟩
    | cons t ts =>
      cases hm : t.monomial.div? lead.monomial with
      | none => exact ⟨_, .stuck hm⟩
      | some m =>
        obtain ⟨r, hr⟩ := ih _ (leadBelow_divisionStep hd hts hm) (hts.addTerms (.collectTerms _))
        exact ⟨_, .step hm hr⟩

theorem existsUnique_dividesTo (hd : TermList o (lead :: ds)) (hts : TermList o ts) :
    ∃! r, DividesTo o lead (lead :: ds) ts r := by
  obtain ⟨r, hr⟩ := exists_dividesTo hd hts
  exact ⟨r, hr, fun r' hr' => hr'.unique hr⟩

/-! ## What it ends with -/

theorem sumOf_divisionStep (t : Term) (ts d : List Term) (c : ℚ) (m : Monomial) :
    sumOf (addTerms o (t :: ts) (mulTerm o ⟨-c, m⟩ d)) =
      sumOf (t :: ts) - (⟨c, m⟩ : Term).toMv * sumOf d := by
  have hneg : (⟨-c, m⟩ : Term).toMv = -(⟨c, m⟩ : Term).toMv := by
    simp only [Term.toMv, map_neg]
  rw [sumOf_addTerms, sumOf_mulTerm, hneg, neg_mul, ← sub_eq_add_neg]

theorem DividesTo.sumOf_eq (h : DividesTo o lead d ts (some qs)) :
    sumOf ts = sumOf qs * sumOf d := by
  generalize hr : some qs = r at h
  induction h generalizing qs with
  | done =>
    obtain rfl := Option.some.inj hr
    rw [sumOf_nil, zero_mul]
  | stuck => cases hr
  | @step t ts m r _ _ ih =>
    obtain ⟨rs, rfl, rfl⟩ := Option.map_eq_some_iff.1 hr.symm
    have hrest := ih rfl
    rw [sumOf_divisionStep] at hrest
    rw [sumOf_cons ⟨_, m⟩, add_mul, ← hrest, add_sub_cancel]

/-- The leading monomial of a multiple is divisible by that of the divisor, and a step leaves a multiple
of the divisor only of one. -/
theorem DividesTo.not_dvd (hd : TermList o (lead :: ds)) (hts : TermList o ts)
    (h : DividesTo o lead (lead :: ds) ts none) : ¬sumOf (lead :: ds) ∣ sumOf ts := by
  generalize hr : none = r at h
  induction h with
  | done => cases hr
  | @stuck t ts hnone =>
    rintro ⟨Q, hQ⟩
    have hT : Leads o (sumOf (t :: ts)) t.monomial.toFinsupp t.coeff :=
      Poly.leads_of_terms (p := ⟨o, t :: ts, hts⟩) rfl
    have hD : Leads o (sumOf (lead :: ds)) lead.monomial.toFinsupp lead.coeff :=
      Poly.leads_of_terms (p := ⟨o, lead :: ds, hd⟩) rfl
    obtain ⟨m, c, hm⟩ := exists_leads o (right_ne_zero_of_mul (hQ ▸ hT.poly_ne_zero))
    have hmono := (hT.unique (hQ ▸ hD.mul hm)).1
    exact Monomial.div?_eq_none_iff.1 hnone (hmono ▸ le_self_add)
  | @step t ts m r hsome _ ih =>
    intro hdvd
    refine ih (hts.addTerms (.collectTerms _)) (Option.map_eq_none_iff.1 hr.symm).symm ?_
    rw [sumOf_divisionStep]
    exact dvd_sub hdvd (dvd_mul_left _ _)

namespace Poly

variable {p q d : Poly}

theorem exists_terms_withOrder (hd : d.toMv ≠ 0) (o : MonomialOrder) :
    ∃ lead ds, (d.withOrder o).terms = lead :: ds := by
  refine List.exists_cons_of_ne_nil fun hnil => hd ?_
  rw [← toMv_withOrder o, toMv, hnil, sumOf_nil]

/-- The order of a quotient other than zero is that of the dividend. -/
theorem order_divExact? (hp : p.isZero = false) (h : p.divExact? d = some q) : q.order = p.order := by
  rw [divExact?, hp] at h
  simp only [Bool.false_and, Bool.false_eq_true, if_false] at h
  split at h
  · cases h
  · rename_i lead ds hts
    have hlead : lead.coeff ≠ 0 := (d.withOrder p.order).valid.nonzero lead (hts ▸ .head _)
    split_ifs at h
    · obtain rfl := Option.some.inj h
      rw [scale, dif_neg (inv_ne_zero hlead)]
    · obtain ⟨qs, -, rfl⟩ := Option.map_eq_some_iff.1 h
      rfl

/-- The division with a bounded number of steps computes what the division ends with. -/
theorem divExact?_of_dividesTo {lead : Term} {ds : List Term} {r : Option (List Term)}
    (hp : p.isZero = false) (hts : (d.withOrder p.order).terms = lead :: ds)
    (h : DividesTo p.order lead (lead :: ds) p.terms r) :
    p.divExact? d = r.map (ofTerms p.order) := by
  have hvalid : TermList p.order (lead :: ds) := hts ▸ valid_withOrder p.order d
  have hsum : sumOf (lead :: ds) = d.toMv := by rw [← toMv_withOrder p.order d, toMv, hts]
  cases r with
  | none =>
    refine Option.eq_none_iff_forall_ne_some.2 fun q hq => h.not_dvd hvalid p.valid ?_
    rw [hsum]
    exact ⟨q.toMv, (toMv_of_divExact? hq).2.trans (mul_comm _ _)⟩
  | some qs =>
    have hd : d.toMv ≠ 0 := by
      rw [← hsum]
      exact (leads_of_terms (p := ⟨p.order, lead :: ds, hvalid⟩) rfl).poly_ne_zero
    have heq : p.toMv = sumOf qs * d.toMv := hsum ▸ h.sumOf_eq
    obtain ⟨q, hq⟩ := exists_divExact? hd ⟨sumOf qs, heq.trans (mul_comm _ _)⟩
    have hqs : q.toMv = sumOf qs :=
      mul_right_cancel₀ hd ((toMv_of_divExact? hq).2.symm.trans heq)
    rw [hq, Option.map_some, Option.some.injEq]
    have ho : q.order = p.order := order_divExact? hp hq
    exact eq_of_toMv_eq ho (hqs.trans (toMv_ofTerms _ _).symm)

end Poly

end Cylindrical

end
