import Cylindrical.Monomial.Order

/-!
# Monomial orders are well-founded

There is no infinite descending sequence of monomials (`MonomialOrder.wellFounded`), although there
are infinitely many variables.  A division that lowers its leading monomial at each step ends for
this reason.
-/

namespace Cylindrical

/-- The lexicographic order on valid lists of powers. -/
def LexBelow (ps qs : List (Nat × Nat)) : Prop := PowerList ps ∧ lexCompare ps qs = .lt

theorem acc_lexBelow_nil : Acc LexBelow [] :=
  .intro _ fun ps h => by cases ps <;> simp [LexBelow, lexCompare] at h

theorem acc_lexBelow (n : Nat) {ps : List (Nat × Nat)} (hp : PowerList ps)
    (hn : ∀ p ∈ ps, p.1 < n) : Acc LexBelow ps := by
  induction n generalizing ps with
  | zero =>
    cases ps with
    | nil => exact acc_lexBelow_nil
    | cons p ps => exact absurd (hn p (.head _)) (Nat.not_lt_zero _)
  | succ n ih =>
    have key : ∀ e qs, Acc LexBelow qs → PowerList ((n, e) :: qs) →
        Acc LexBelow ((n, e) :: qs) := by
      intro e
      induction e using Nat.strongRecOn with
      | ind e ihe =>
        intro qs hacc
        induction hacc with
        | intro qs _ ihq =>
          intro hq
          refine .intro _ fun rs hr => ?_
          obtain ⟨hrv, hr⟩ := hr
          cases rs with
          | nil => exact acc_lexBelow_nil
          | cons r rs =>
            obtain ⟨w, f⟩ := r
            rw [lexCompare_cons_eq_lt] at hr
            rcases hr with hr | ⟨hw, hf⟩ | ⟨hr, hlt⟩
            · refine ih hrv fun s hs => ?_
              cases hs with
              | head => exact hr
              | tail _ hs => exact Nat.lt_trans (hrv.lt_head s hs) hr
            · simp only at hw hf
              subst hw
              exact ihe f hf rs (ih hrv.tail hrv.lt_head) hrv
            · cases hr
              exact ihq rs ⟨hrv.tail, hlt⟩ hrv
    cases ps with
    | nil => exact acc_lexBelow_nil
    | cons p ps =>
      obtain ⟨v, e⟩ := p
      have hv : v < n + 1 := hn (v, e) (.head _)
      by_cases hvn : v = n
      · subst hvn
        exact key e ps (ih hp.tail hp.lt_head) hp
      · refine ih hp fun q hq => ?_
        cases hq with
        | head => show v < n; omega
        | tail _ hq =>
          have hlt : q.1 < v := hp.lt_head q hq
          omega

theorem exists_bound (ps : List (Nat × Nat)) : ∃ n, ∀ p ∈ ps, p.1 < n := by
  induction ps with
  | nil => exact ⟨0, by simp⟩
  | cons p ps ih =>
    obtain ⟨n, hn⟩ := ih
    refine ⟨max (p.1 + 1) n, fun q hq => ?_⟩
    cases hq with
    | head => omega
    | tail _ hq =>
      have := hn q hq
      omega

/-- Lists of powers from the least variable up, with positive exponents. -/
structure Ascending (ps : List (Nat × Nat)) : Prop where
  ascending : ps.Pairwise fun p q => p.1 < q.1
  positive : ∀ p ∈ ps, 0 < p.2

namespace Ascending

theorem tail {p : Nat × Nat} {ps : List (Nat × Nat)} (h : Ascending (p :: ps)) : Ascending ps :=
  ⟨h.ascending.tail, fun q hq => h.positive q (.tail _ hq)⟩

theorem head_pos {p : Nat × Nat} {ps : List (Nat × Nat)} (h : Ascending (p :: ps)) : 0 < p.2 :=
  h.positive p (.head _)

end Ascending

theorem PowerList.reverse {ps : List (Nat × Nat)} (h : PowerList ps) : Ascending ps.reverse :=
  ⟨List.pairwise_reverse.2 h.descending, fun p hp => h.positive p (List.mem_reverse.1 hp)⟩

theorem degreeSum_append (ps qs : List (Nat × Nat)) :
    degreeSum (ps ++ qs) = degreeSum ps + degreeSum qs := by
  induction ps with
  | nil => simp [degreeSum]
  | cons p ps ih => simp [degreeSum, ih, Nat.add_assoc]

theorem degreeSum_reverse (ps : List (Nat × Nat)) : degreeSum ps.reverse = degreeSum ps := by
  induction ps with
  | nil => rfl
  | cons p ps ih => simp [degreeSum, degreeSum_append, ih, Nat.add_comm]

/-- The reverse lexicographic order on valid lists of powers of one degree. -/
def RevLexBelow (ps qs : List (Nat × Nat)) : Prop :=
  Ascending ps ∧ degreeSum ps = degreeSum qs ∧ revLexCompare ps qs = .lt

theorem acc_revLexBelow (d : Nat) {ps : List (Nat × Nat)} (hp : Ascending ps)
    (hd : degreeSum ps = d) : Acc RevLexBelow ps := by
  induction d using Nat.strongRecOn generalizing ps with
  | ind d ih =>
    have key : ∀ v k e qs, d - e = k → Acc RevLexBelow qs → Ascending ((v, e) :: qs) →
        degreeSum ((v, e) :: qs) = d → Acc RevLexBelow ((v, e) :: qs) := by
      intro v
      induction v using Nat.strongRecOn with
      | ind v ihv =>
        intro k
        induction k using Nat.strongRecOn with
        | ind k ihk =>
          intro e qs hk hacc
          induction hacc with
          | intro qs _ ihq =>
            intro hq hdeg
            refine .intro _ fun rs hr => ?_
            obtain ⟨hra, hrd, hr⟩ := hr
            rw [hdeg] at hrd
            cases rs with
            | nil => simp [revLexCompare] at hr
            | cons r rs =>
              obtain ⟨w, f⟩ := r
              have hf := hra.head_pos
              have hrest : degreeSum rs < d := by
                rw [← hrd]
                simp only [degreeSum] at hf ⊢
                omega
              have hrs : Acc RevLexBelow rs := ih _ hrest hra.tail rfl
              rw [revLexCompare_cons_eq_lt] at hr
              simp only at hr hf
              rcases hr with hr | ⟨rfl, hr⟩ | ⟨hr, hlt⟩
              · exact ihv w hr _ f rs rfl hrs hra hrd
              · refine ihk (d - f) ?_ f rs rfl hrs hra hrd
                simp only [degreeSum] at hrd hdeg
                omega
              · cases hr
                refine ihq rs ⟨hra.tail, ?_, hlt⟩ hra hrd
                simp only [degreeSum] at hrd hdeg
                omega
    cases ps with
    | nil =>
      refine .intro _ fun qs hq => ?_
      obtain ⟨hqa, hqd, hq⟩ := hq
      cases qs with
      | nil => simp [revLexCompare] at hq
      | cons q qs =>
        have := hqa.head_pos
        simp only [degreeSum] at hqd
        omega
    | cons p ps =>
      obtain ⟨v, e⟩ := p
      have he : 0 < e := hp.head_pos
      refine key v _ e ps rfl (ih _ ?_ hp.tail rfl) hp hd
      simp only [degreeSum] at hd
      omega

theorem Monomial.lex_wellFounded :
    WellFounded fun a b : Monomial => lexCompare a.powers b.powers = .lt := by
  refine Subrelation.wf (r := InvImage LexBelow Monomial.powers)
    (fun {a _} h => ⟨a.valid, h⟩) ⟨fun a => ?_⟩
  obtain ⟨n, hn⟩ := exists_bound a.powers
  exact InvImage.accessible _ (acc_lexBelow n a.valid hn)

theorem Monomial.revLex_wellFounded :
    WellFounded fun a b : Monomial => a.totalDegree = b.totalDegree ∧
      revLexCompare a.powers.reverse b.powers.reverse = .lt := by
  refine Subrelation.wf (r := InvImage RevLexBelow fun a : Monomial => a.powers.reverse)
    (fun {a b} h => ⟨a.valid.reverse, ?_, h.2⟩) ⟨fun a => ?_⟩
  · rw [degreeSum_reverse, degreeSum_reverse, ← a.totalDegree_eq, ← b.totalDegree_eq, h.1]
  · exact InvImage.accessible _ (acc_revLexBelow _ a.valid.reverse rfl)

/-- A monomial order is well-founded. -/
theorem MonomialOrder.wellFounded (o : MonomialOrder) :
    WellFounded fun a b => o.compare a b = .lt := by
  have graded : ∀ {r : Monomial → Monomial → Prop}, WellFounded r →
      WellFounded (InvImage (Prod.Lex (· < ·) r) fun a : Monomial => (a.totalDegree, a)) :=
    fun h => InvImage.wf _ (Prod.lex ⟨_, Nat.lt_wfRel.wf⟩ ⟨_, h⟩).wf
  cases o with
  | lex => exact Monomial.lex_wellFounded
  | grLex =>
    refine Subrelation.wf (fun {a b} h => ?_) (graded Monomial.lex_wellFounded)
    simp only [compare, Ordering.then_eq_lt, Nat.compare_eq_lt, Nat.compare_eq_eq] at h
    rcases h with h | ⟨hd, h⟩
    · exact .left _ _ h
    · show Prod.Lex _ _ (a.totalDegree, a) (b.totalDegree, b)
      rw [hd]
      exact .right _ h
  | gRevLex =>
    refine Subrelation.wf (fun {a b} h => ?_) (graded Monomial.revLex_wellFounded)
    simp only [compare, Ordering.then_eq_lt, Nat.compare_eq_lt, Nat.compare_eq_eq] at h
    rcases h with h | ⟨hd, h⟩
    · exact .left _ _ h
    · have hr : a.totalDegree = b.totalDegree ∧
          revLexCompare a.powers.reverse b.powers.reverse = .lt := ⟨hd, h⟩
      show Prod.Lex _ _ (a.totalDegree, a) (b.totalDegree, b)
      rw [hd]
      exact .right _ hr

end Cylindrical
