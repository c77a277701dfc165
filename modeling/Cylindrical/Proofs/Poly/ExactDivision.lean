import Mathlib
import Cylindrical.Poly.Division
import Cylindrical.Proofs.Poly.Leading
import Cylindrical.Proofs.Poly.Primitive

/-!
# Completeness of exact division

The exact division finds a quotient whenever there is one: each step cancels a leading term, and
finds one term of the quotient.  The quotient has no more terms than the division may take steps.
-/

noncomputable section

open MvPolynomial

namespace Cylindrical

/-! ## Division of power products -/

theorem subtractPowers_isSome {ps qs : List (ℕ × ℕ)} (hp : PowerList ps) (hq : PowerList qs)
    (h : ∀ v, exponentIn v qs ≤ exponentIn v ps) : (subtractPowers ps qs).isSome = true := by
  have hzero : ∀ {p : ℕ × ℕ} {ps : List (ℕ × ℕ)}, PowerList (p :: ps) → ∀ {w}, p.1 ≤ w →
      exponentIn w ps = 0 := fun hp _ hw =>
    exponentIn_of_lt fun r hr => (hp.lt_head r hr).trans_le hw
  fun_induction subtractPowers ps qs with
  | case1 => rfl
  | case2 q qs =>
    have hq1 : exponentIn q.1 (q :: qs) ≤ 0 := h q.1
    rw [exponentIn, if_pos rfl] at hq1
    exact absurd hq.head_pos (by omega)
  | case3 p ps q qs hlt ih =>
    rw [Option.isSome_map]
    refine ih hp.tail hq fun v => ?_
    by_cases hv : p.1 = v
    · rw [exponentIn_of_lt fun r hr => ?_]
      · exact Nat.zero_le _
      · rcases List.mem_cons.1 hr with rfl | hr
        · omega
        · exact (hq.lt_head r hr).trans (by omega)
    · have hv' := h v
      rwa [show exponentIn v (p :: ps) = exponentIn v ps from if_neg hv] at hv'
  | case4 p ps q qs _ hlt =>
    have hq1 := h q.1
    rw [exponentIn, if_pos rfl, exponentIn, if_neg hlt.ne, hzero hp hlt.le] at hq1
    exact absurd hq.head_pos (by omega)
  | case5 p ps q qs h₁ h₂ hlt =>
    have hq1 := h q.1
    rw [exponentIn, if_pos rfl, exponentIn, if_pos (by omega)] at hq1
    omega
  | case6 p ps q qs h₁ h₂ _ heq ih =>
    refine ih hp.tail hq.tail fun v => ?_
    have hv := h v
    by_cases hqv : q.1 = v
    · rw [hzero hq hqv.le]
      exact Nat.zero_le _
    · rwa [exponentIn, if_neg hqv, exponentIn, if_neg (by omega)] at hv
  | case7 p ps q qs h₁ h₂ _ _ ih =>
    rw [Option.isSome_map]
    refine ih hp.tail hq.tail fun v => ?_
    have hv := h v
    by_cases hqv : q.1 = v
    · rw [hzero hq hqv.le]
      exact Nat.zero_le _
    · rwa [exponentIn, if_neg hqv, exponentIn, if_neg (by omega)] at hv

namespace Monomial

theorem div?_eq_some {a b c : Monomial} (h : a.toFinsupp = c.toFinsupp + b.toFinsupp) :
    a.div? b = some c := by
  have hsome : (subtractPowers a.powers b.powers).isSome = true :=
    subtractPowers_isSome a.valid b.valid fun v => by
      have hv := DFunLike.congr_fun h v
      rw [Finsupp.add_apply, toFinsupp_apply, toFinsupp_apply, toFinsupp_apply] at hv
      change b.degreeOf v ≤ a.degreeOf v
      omega
  cases hd : a.div? b with
  | none =>
    unfold div? at hd
    split at hd
    · rename_i hnone
      rw [hnone] at hsome
      cases hsome
    · cases hd
  | some d => rw [toFinsupp_injective (add_right_cancel ((toFinsupp_div? hd).symm.trans h))]

theorem div?_eq_none_iff {a b : Monomial} : a.div? b = none ↔ ¬b.toFinsupp ≤ a.toFinsupp := by
  constructor
  · intro h hle
    obtain ⟨k, hk⟩ := exists_add_of_le hle
    obtain ⟨c, rfl⟩ := toFinsupp_surjective k
    rw [div?_eq_some (hk.trans (add_comm _ _))] at h
    cases h
  · intro h
    cases hd : a.div? b with
    | none => rfl
    | some c => exact absurd (toFinsupp_div? hd ▸ le_add_self) h

end Monomial

/-! ## Division of terms -/

/-- Every polynomial has a representation in graded lexicographic order. -/
theorem exists_toMv_eq (P : MvPolynomial ℕ ℚ) : ∃ p : Poly, p.order = .grLex ∧ p.toMv = P := by
  induction P using MvPolynomial.induction_on with
  | C c => exact ⟨.const c, rfl, Poly.toMv_const c⟩
  | add P Q hP hQ =>
    obtain ⟨p, hp, rfl⟩ := hP
    obtain ⟨q, -, rfl⟩ := hQ
    exact ⟨p + q, hp, Poly.toMv_add p q⟩
  | mul_X P v hP =>
    obtain ⟨p, hp, rfl⟩ := hP
    exact ⟨p * .var v, Poly.order_mul hp _, by rw [Poly.toMv_mul, Poly.toMv_var]⟩

theorem exists_leads (o : MonomialOrder) {P : MvPolynomial ℕ ℚ} (h : P ≠ 0) :
    ∃ (m : Monomial) (c : ℚ), Leads o P m.toFinsupp c := by
  obtain ⟨p, -, rfl⟩ := exists_toMv_eq P
  rw [← Poly.toMv_withOrder o]
  cases ht : (p.withOrder o).terms with
  | nil =>
    rw [← Poly.toMv_withOrder o] at h
    exact absurd (Poly.toMv_eq_zero_of_isZero (by rw [Poly.isZero, ht]; rfl)) h
  | cons t ts =>
    have hlead := Poly.leads_of_terms ht
    rw [Poly.order_withOrder] at hlead
    exact ⟨_, _, hlead⟩

/-- The division of a multiple of the divisor goes through if it may take as many steps as the
quotient has terms. -/
theorem divideTerms?_isSome {o : MonomialOrder} {lead : Term} {ds : List Term}
    (hd : TermList o (lead :: ds)) {steps : ℕ} {ts : List Term} (hts : TermList o ts)
    {Q : MvPolynomial ℕ ℚ} (hQ : sumOf ts = Q * sumOf (lead :: ds))
    (hcard : Q.support.card ≤ steps) :
    (divideTerms? o lead (lead :: ds) steps ts).isSome = true := by
  induction steps generalizing ts Q with
  | zero =>
    cases ts with
    | nil => rfl
    | cons t ts =>
      have hlead := Poly.leads_of_terms (p := ⟨o, t :: ts, hts⟩) rfl
      have h0 : Q = 0 := by simpa using hcard
      exact absurd (by rw [Poly.toMv, hQ, h0, zero_mul]) hlead.poly_ne_zero
  | succ steps ih =>
    cases ts with
    | nil => rfl
    | cons t ts =>
      have hT : Leads o (sumOf (t :: ts)) t.monomial.toFinsupp t.coeff :=
        Poly.leads_of_terms (p := ⟨o, t :: ts, hts⟩) rfl
      have hD : Leads o (sumOf (lead :: ds)) lead.monomial.toFinsupp lead.coeff :=
        Poly.leads_of_terms (p := ⟨o, lead :: ds, hd⟩) rfl
      have hQ0 : Q ≠ 0 := left_ne_zero_of_mul (hQ ▸ hT.poly_ne_zero)
      obtain ⟨m, c, hm⟩ := exists_leads o hQ0
      obtain ⟨hmono, hcoeff⟩ := hT.unique (hQ ▸ hm.mul hD)
      have hc : t.coeff / lead.coeff = c := by
        rw [hcoeff, mul_div_cancel_right₀ c hD.ne_zero]
      rw [divideTerms?, Monomial.div?_eq_some hmono]
      simp only [Option.isSome_map]
      refine ih (Q := Q - monomial m.toFinsupp c) (hts.addTerms (.collectTerms _)) ?_ ?_
      · have hneg : (⟨-(t.coeff / lead.coeff), m⟩ : Term).toMv = -monomial m.toFinsupp c := by
          rw [hc, Term.toMv, map_neg]
        rw [sumOf_addTerms, sumOf_mulTerm, hneg, hQ]
        ring
      · have hsupport : (Q - monomial m.toFinsupp c).support ⊆ Q.support.erase m.toFinsupp := by
          intro n hn
          rw [MvPolynomial.mem_support_iff, coeff_sub, coeff_monomial] at hn
          rw [Finset.mem_erase, MvPolynomial.mem_support_iff]
          constructor
          · rintro rfl
            rw [if_pos rfl, hm.coeff, sub_self] at hn
            exact hn rfl
          · intro h0
            rw [h0] at hn
            split_ifs at hn with hmn
            · rw [← hmn, hm.coeff] at h0
              exact hm.ne_zero h0
            · exact hn (sub_zero 0)
        have := Finset.card_le_card hsupport
        rw [Finset.card_erase_of_mem hm.mem_support] at this
        omega

namespace Poly

variable {p d : Poly}

/-! ## The bound on the number of terms -/

theorem le_totalDegree {t : Term} (ht : t ∈ p.terms) : t.monomial.totalDegree ≤ p.totalDegree :=
  (le_foldl_max (fun t : Term => t.monomial.totalDegree) p.terms 0).2 t ht

theorem degreeOf_le_totalDegree (v : ℕ) (p : Poly) : p.degreeOf v ≤ p.totalDegree := by
  rw [degreeOf_le_iff]
  intro t ht
  refine le_trans ?_ (le_totalDegree ht)
  rw [← Monomial.toFinsupp_apply, ← Monomial.degree_toFinsupp]
  exact Finsupp.le_degree v _

/-- A divisor has no more terms than the bound says. -/
theorem card_support_le_divisorTermBound {Q : MvPolynomial ℕ ℚ} (hp : p.toMv ≠ 0)
    (h : Q ∣ p.toMv) : Q.support.card ≤ p.divisorTermBound := by
  have hvars : Q.vars ⊆ p.toMv.vars := vars_subset_of_dvd hp h
  have hdegree : ∀ v, ∀ m ∈ Q.support, m v ≤ p.totalDegree := fun v => by
    rw [← MvPolynomial.degreeOf_le_iff]
    refine le_trans ?_ (degreeOf_le_totalDegree v p)
    obtain ⟨R, hR⟩ := h
    rw [degreeOf_eq, hR, MvPolynomial.degreeOf_mul_eq (left_ne_zero_of_mul (hR ▸ hp))
      (right_ne_zero_of_mul (hR ▸ hp))]
    exact Nat.le_add_right _ _
  -- a monomial of `Q` is determined by its exponents in the variables of `p`
  let exponents : (ℕ →₀ ℕ) → Fin p.vars.length → ℕ := fun m i => m (p.vars.get i)
  have hcard := Finset.card_le_card_of_injOn (s := Q.support)
    (t := Fintype.piFinset fun _ => Finset.range (p.totalDegree + 1)) exponents
    (fun m hm => Finset.mem_coe.2 (Fintype.mem_piFinset.2 fun i =>
      Finset.mem_range.2 (Nat.lt_succ_of_le (hdegree _ m hm))))
    (fun m hm n hn hmn => Finsupp.ext fun v => ?_)
  · rwa [Fintype.card_piFinset_const, Finset.card_range] at hcard
  · have hzero : ∀ {k : ℕ →₀ ℕ}, k ∈ (Q.support : Set (ℕ →₀ ℕ)) → v ∉ p.vars → k v = 0 :=
      fun {k} hk hv => by
        by_contra hne
        exact hv (mem_vars_iff.2 (hvars ((MvPolynomial.mem_vars_iff_mem_support v).2
          ⟨k, hk, Finsupp.mem_support_iff.2 hne⟩)))
    by_cases hv : v ∈ p.vars
    · obtain ⟨i, hi⟩ := List.mem_iff_get.1 hv
      rw [← hi]
      exact congrFun hmn i
    · rw [hzero hm hv, hzero hn hv]

/-! ## Exact division -/

theorem valid_withOrder (o : MonomialOrder) (p : Poly) : TermList o (p.withOrder o).terms := by
  rw [withOrder]
  split_ifs with h
  · exact h ▸ p.valid
  · exact .collectTerms _

/-- A quotient is found whenever there is one. -/
theorem exists_divExact? (hd : d.toMv ≠ 0) (h : d.toMv ∣ p.toMv) :
    ∃ q, p.divExact? d = some q := by
  have hdz := isZero_eq_false_iff.2 hd
  rw [divExact?]
  by_cases hp : p.isZero = true
  · exact ⟨0, if_pos (by rw [hp, hdz]; rfl)⟩
  rw [if_neg (by rw [Bool.and_eq_true]; exact fun hz => hp hz.1)]
  have hp0 : p.toMv ≠ 0 := fun h0 => hp (toMv_eq_zero_iff.1 h0)
  cases hts : (d.withOrder p.order).terms with
  | nil =>
    rw [← toMv_withOrder p.order] at hd
    exact absurd (toMv_eq_zero_of_isZero (by rw [isZero, hts]; rfl)) hd
  | cons lead ds =>
    simp only
    split_ifs
    · exact ⟨_, rfl⟩
    · obtain ⟨Q, hQ⟩ := h
      have hsum : sumOf p.terms = Q * sumOf (lead :: ds) := by
        rw [← hts, ← toMv, ← toMv, toMv_withOrder, hQ, mul_comm]
      have hcard := card_support_le_divisorTermBound hp0 ⟨d.toMv, hQ.trans (mul_comm _ _)⟩
      obtain ⟨qs, hqs⟩ := Option.isSome_iff_exists.1
        (divideTerms?_isSome (hts ▸ valid_withOrder p.order d) p.valid hsum hcard)
      exact ⟨_, by rw [hqs]; rfl⟩

section

variable {O : MonomialOrder → Prop} (hO : O .grLex) (hp : O p.order)

include hO hp

theorem order_divExact?_mem {q : Poly} (h : p.divExact? d = some q) : O q.order := by
  rw [divExact?] at h
  split_ifs at h
  · obtain rfl := Option.some.inj h
    exact hO
  · split at h
    · cases h
    · split_ifs at h
      · obtain rfl := Option.some.inj h
        exact order_scale_mem hO hp _
      · obtain ⟨qs, -, rfl⟩ := Option.map_eq_some_iff.1 h
        exact hp

theorem exists_exactQuotient_mem (hd : d.toMv ≠ 0) (h : d.toMv ∣ p.toMv) :
    ∃ q, p.exactQuotient d = .ok q ∧ O q.order := by
  obtain ⟨q, hq⟩ := exists_divExact? hd h
  exact ⟨q, by rw [exactQuotient, hq], order_divExact?_mem hO hp hq⟩

end

theorem exists_exactQuotient (ho : p.order = .grLex) (hd : d.toMv ≠ 0) (h : d.toMv ∣ p.toMv) :
    ∃ q, p.exactQuotient d = .ok q ∧ q.order = .grLex :=
  exists_exactQuotient_mem (O := (· = .grLex)) rfl ho hd h

end Poly

end Cylindrical

end
