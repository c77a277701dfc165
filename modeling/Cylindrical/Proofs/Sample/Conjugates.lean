import Mathlib
import Cylindrical.Proofs.Sample.Composition
import Cylindrical.Proofs.Sample.Validity

/-!
# Answers of tests at conjugate points

A test that replaces no defining polynomial comes to its answer by computations with the tower alone.
So the answer holds wherever the tower vanishes, not only at the point itself but at all its conjugates.
A test that does replace one counts the replacement, and lowers the weight of the point.
-/

noncomputable section

namespace Cylindrical

namespace Tower

variable {s : SamplePoint} {t : Tower} {q : Poly}

theorem value_reduce {z : ℕ → ℂ} (ht : t.VanishesAt z) (q : Poly) :
    (t.reduce q).value z = q.value z := by
  rw [reduce, reduceBelow, List.take_length, value_foldr_remainder ht.value_eq_zero]

theorem vars_reduce_subset (ht : t.Built s) (hq : q.toMv.vars ⊆ varsOf t.levels) :
    (t.reduce q).toMv.vars ⊆ varsOf t.levels := by
  rw [reduce, reduceBelow, List.take_length]
  exact vars_foldr_remainder_subset ht.ordered ht.closed hq

/-- There is no level under a number. -/
theorem ofPoly_of_isNumber (hq : q.isNumber = true) : ofPoly q s = .ok ⟨[]⟩ := by
  have hvars : q.vars = [] := List.eq_nil_iff_forall_not_mem.2 fun w hw => by
    rw [Poly.mem_vars_iff, Poly.isNumber_iff_vars.1 hq] at hw
    simp at hw
  rw [ofPoly, hvars, List.reverse_nil, collect]
  rfl

end Tower

namespace ZeroTest

open Tower

variable {cfg : Config} {σ τ υ : PointState} {x : ℕ → ℝ} {t : Tower} {i v : ℕ} {l : TowerLevel}
  {a : AlgebraicNumber} {p r g h : Poly} {o : Outcome}

/-! ## Replacements are counted -/

/-- A successful run does not take replacements back. -/
def Counts {α : Type} (y : PointM α) : Prop :=
  ∀ ⦃σ τ b⦄, y σ = .ok b τ → σ.stats.replacements ≤ τ.stats.replacements

theorem Counts.bind {α β : Type} {y : PointM α} {f : α → PointM β} (hy : Counts y)
    (hf : ∀ b, Counts (f b)) : Counts (y >>= f) := fun _ _ _ hrun => by
  obtain ⟨b, σ₁, h₁, h₂⟩ := run_bind_eq_ok hrun
  exact (hy h₁).trans (hf b h₂)

theorem counts_pure {α : Type} (b : α) : Counts (pure b : PointM α) := fun _ _ _ hrun => by
  obtain ⟨-, rfl⟩ := run_pure_eq_ok hrun
  exact le_rfl

theorem counts_modify {f : PointState → PointState}
    (hf : ∀ σ, σ.stats.replacements ≤ (f σ).stats.replacements) : Counts (modify f) :=
  fun σ _ _ hrun => by
    cases hrun
    exact hf σ

theorem replacements_of_replace (ha : σ.point.get? v = some (.algebraic a)) {u : Unit}
    (hrun : replace v g σ = .ok u τ) : τ.stats.replacements = σ.stats.replacements + 1 := by
  rw [replace, run_get_bind, ha] at hrun
  cases hrun
  rfl

theorem counts_replace (v : ℕ) (g : Poly) : Counts (replace v g) := fun σ τ _ hrun => by
  rw [replace, run_get_bind] at hrun
  rcases hget : σ.point.get? v with _ | r | a <;> rw [hget] at hrun <;> cases hrun
  · exact le_rfl
  · exact le_rfl
  · exact Nat.le_succ _

theorem rule_counts : Rule fun y => Counts y where
  pure := counts_pure
  throw _ _ _ _ hrun := by cases hrun
  bind := Counts.bind
  point hf _ := fun σ _ _ hrun => hf σ hrun
  call _ _ _ _ _ hrun := by
    obtain ⟨t, -, rfl⟩ := run_focus_eq_ok hrun
    exact le_rfl
  count hf := counts_modify fun σ => by
    obtain ⟨n, hn⟩ := hf
    exact (hn σ.stats).symm ▸ Nat.le_add_right _ n
  refineTo _ _ := counts_modify fun _ => le_rfl
  replace := counts_replace

/-! ## Without and with a replacement -/

/-- The same point, and no further replacement. -/
structure Same (σ τ : PointState) : Prop where
  point : τ.point = σ.point
  replacements : τ.stats.replacements = σ.stats.replacements

/-- A further replacement, and a point of a smaller weight. -/
structure Replaced (σ τ : PointState) : Prop where
  replacements : σ.stats.replacements < τ.stats.replacements
  weight_lt : weight τ.point < weight σ.point

theorem Same.refl (σ : PointState) : Same σ σ := ⟨rfl, rfl⟩

theorem Same.trans (h : Same σ τ) (h' : Same τ υ) : Same σ υ :=
  ⟨h'.point.trans h.point, h'.replacements.trans h.replacements⟩

theorem Replaced.of_same (h : Same σ τ) (h' : Replaced τ υ) : Replaced σ υ :=
  ⟨h.replacements ▸ h'.replacements, h.point ▸ h'.weight_lt⟩

theorem same_of_count {f : Stats → Stats} {u : Unit} (hrun : count f σ = .ok u τ)
    (hf : ∀ s, (f s).replacements = s.replacements) : Same σ τ := by
  cases hrun
  exact ⟨rfl, hf _⟩

theorem same_of_algebraically {α : Type} {y : AlgebraM α} {b : α}
    (hrun : PointState.algebraically y σ = .ok b τ) : Same σ τ := by
  obtain ⟨t, -, rfl⟩ := run_focus_eq_ok hrun
  exact ⟨rfl, rfl⟩

theorem replaced_of_resolve (ha : σ.point.get? v = some (.algebraic a))
    (hg : g.Lowers v a.defining) (hh : h.Lowers v a.defining) {b : Bool}
    (hrun : resolve cfg t i v g h σ = .ok b τ) : Replaced σ τ where
  weight_lt := ((ends_resolve rfl ha hg hh).of_ok hrun .replaced).weight_lt rfl
  replacements := by
    rw [resolve] at hrun
    obtain ⟨first, σ₁, hpick, h₁⟩ := run_bind_eq_ok hrun
    obtain ⟨_, σ₂, hreplace, h₂⟩ := run_bind_eq_ok h₁
    obtain ⟨-, rfl⟩ := run_pure_eq_ok h₂
    have hle := rule_counts.pickVanishing _ _ _ _ _ hpick
    have hrefines := (ends_pickVanishing (SamplePoint.refines_refl σ.point)).of_ok hpick
    obtain ⟨b, hb, -⟩ := hrefines.exists_algebraic ha
    have := replacements_of_replace hb hreplace
    omega

/-! ## Answers -/

/-- An answer that is right at every point at which the tower vanishes, found without a replacement. -/
structure Answers (t : Tower) (r : Poly) (σ : PointState) (o : Outcome) (τ : PointState) : Prop where
  same : Same σ τ
  decided : ∃ b, o = .decided b
  settles : ∀ z : ℕ → ℂ, t.VanishesAt z → Settles z r o

theorem answers_of_isNumber (hr : r.isNumber = true) (h : Same σ τ) :
    Answers t r σ (.decided r.isZero) τ where
  same := h
  decided := ⟨_, rfl⟩
  settles _ _ := settles_isZero hr

theorem Answers.of_same (h : Same σ τ) (h' : Answers t r τ o υ) : Answers t r σ o υ where
  same := h.trans h'.same
  decided := h'.decided
  settles := h'.settles

theorem Answers.of_reduce {q : Poly} (h : Answers t (t.reduce q) σ o τ) : Answers t q σ o τ where
  same := h.same
  decided := h.decided
  settles z hz := (h.settles z hz).congr (value_reduce hz q)

/-- The test over one level. -/
theorem overOne_answers (hl : LevelOf σ.point l a) (hmem : l ∈ t.levels)
    (hvars : ∀ w ∈ l.defining.toMv.vars, w = l.var) (hr : ∀ w ∈ r.toMv.vars, w = l.var)
    (hr0 : r.toMv ≠ 0) (hrun : overOne l r σ = .ok o τ) :
    Replaced σ τ ∨ Answers t r σ o τ := by
  rw [overOne] at hrun
  obtain ⟨_, σ₁, hcount, h₁⟩ := run_bind_eq_ok hrun
  obtain ⟨g, σ₂, hcall, h₂⟩ := run_bind_eq_ok h₁
  have hsame := (same_of_count hcount fun _ => rfl).trans (same_of_algebraically hcall)
  obtain ⟨⟨u, hgcd⟩, -⟩ := algebraically_eq_ok hcall
  have hgcd := Poly.isGcd_gcd (AlgebraSystem.call_eq_ok hgcd)
  have hg0 : g.toMv ≠ 0 := ne_zero_of_dvd_ne_zero hr0 hgcd.dvd_right
  have hl0 := Poly.ne_zero_of_degreeOf_pos hl.monic.monicIn.pos
  split_ifs at h₂ with hnum hdeg
  · obtain ⟨rfl, rfl⟩ := run_pure_eq_ok h₂
    refine .inr ⟨hsame, ⟨_, rfl⟩, fun z hz => settles_false fun hrz => hg0 ?_⟩
    have hgz := hgcd.value_eq_zero hvars hr (hz.value_eq_zero l hmem) hrz
    rw [← Poly.isZero_iff_of_isNumber hnum] at hgz
    exact Poly.toMv_eq_zero_of_isZero hgz
  · obtain ⟨rfl, rfl⟩ := run_pure_eq_ok h₂
    refine .inr ⟨hsame, ⟨_, rfl⟩, fun z hz => settles_true ?_⟩
    exact Poly.value_eq_zero_of_dvd hgcd.dvd_right (Poly.value_eq_zero_of_degreeOf_le hvars hl0
      hgcd.dvd_left hdeg (hz.value_eq_zero l hmem))
  · obtain ⟨f, σ₃, hlift, h₃⟩ := run_bind_eq_ok h₂
    obtain ⟨hquot, rfl⟩ := run_lift_eq_ok hlift
    obtain ⟨hglow, hflow⟩ :=
      lowers_of_exactQuotient hl hvars hgcd.dvd_left hnum (not_le.1 hdeg) hquot
    rw [run_get_bind] at h₃
    obtain ⟨_, σ₄, hreplace, h₄⟩ := run_bind_eq_ok h₃
    obtain ⟨-, rfl⟩ := run_pure_eq_ok h₄
    have ha : σ₃.point.get? l.var = some (.algebraic a) := hsame.point ▸ hl.get?
    refine .inl (.of_same hsame ⟨?_, ?_⟩)
    · rw [replacements_of_replace ha hreplace]
      exact Nat.lt_succ_self _
    · rw [replace_eq_ok ha hreplace]
      refine SamplePoint.weight_redefine_lt ha ?_
      split_ifs
      · exact hglow
      · exact hflow

/-- What a check does: it accepts and replaces a defining polynomial, or leaves the point as it is. -/
inductive Checked (σ τ : PointState) : Option Outcome → Prop
  | accepted {o : Outcome} : Replaced σ τ → Checked σ τ (some o)
  | rejected : Same σ τ → Checked σ τ none

theorem Checked.replaced (h : Checked σ τ (some o)) : Replaced σ τ := by
  obtain h | _ := h
  exact h

theorem Checked.of_same {o? : Option Outcome} (h : Same σ τ) (h' : Checked τ υ o?) :
    Checked σ υ o? := by
  cases h' with
  | accepted h' => exact .accepted (.of_same h h')
  | rejected h' => exact .rejected (h.trans h')

theorem checked_acceptGcd (ht : t.Built σ.point) (hl : t.levels[i]? = some l) {o? : Option Outcome}
    (hrun : acceptGcd cfg t i l r g σ = .ok o? τ) : Checked σ τ o? := by
  rw [acceptGcd] at hrun
  obtain ⟨_, σ₁, hcount, h₁⟩ := run_bind_eq_ok hrun
  have hsame := same_of_count hcount fun _ => rfl
  split_ifs at h₁ with hc
  · rw [Bool.and_eq_true] at hc
    obtain ⟨hf, -⟩ := factorOf_of_isProperFactor hl hc.1
    obtain ⟨a, ha⟩ := ht.level l (List.mem_of_getElem? hl)
    obtain ⟨b, σ₂, hresolve, h₂⟩ := run_bind_eq_ok h₁
    have hreplaced := replaced_of_resolve (hsame.point ▸ ha.get?) (hf.lowers ht ha)
      ((hf.cofactor ht.ordered ht.closed).lowers ht ha) hresolve
    cases b <;> cases h₂ <;> exact .accepted (.of_same hsame hreplaced)
  · obtain ⟨rfl, rfl⟩ := run_pure_eq_ok h₁
    exact .rejected hsame

theorem checked_acceptSplit (ht : t.Built σ.point) (hl : t.levels[i]? = some l)
    {o? : Option Outcome} (hrun : acceptSplit cfg t i l g h σ = .ok o? τ) : Checked σ τ o? := by
  rw [acceptSplit] at hrun
  obtain ⟨_, σ₁, hcount, h₁⟩ := run_bind_eq_ok hrun
  have hsame := same_of_count hcount fun _ => rfl
  cases hdiv : t.divRem l.var i l.defining g with
  | mk q rem =>
  rw [hdiv] at h₁
  simp only at h₁
  split_ifs at h₁ with hc
  · simp only [Bool.and_eq_true] at hc
    obtain ⟨hf, -⟩ := factorOf_of_isProperFactor hl hc.1.1
    obtain ⟨a, ha⟩ := ht.level l (List.mem_of_getElem? hl)
    have hsub := Poly.toMv_eq_zero_of_isZero hc.2
    rw [Poly.toMv_sub, sub_eq_zero] at hsub
    have hco := (hf.cofactor ht.ordered ht.closed).congr (g := h) (by rw [hdiv, hsub])
    obtain ⟨b, σ₂, hresolve, h₂⟩ := run_bind_eq_ok h₁
    obtain ⟨rfl, rfl⟩ := run_pure_eq_ok h₂
    exact .accepted (.of_same hsame (replaced_of_resolve (hsame.point ▸ ha.get?) (hf.lowers ht ha)
      (hco.lowers ht ha) hresolve))
  · obtain ⟨rfl, rfl⟩ := run_pure_eq_ok h₁
    exact .rejected hsame

/-- What decides a test over several levels, unless a defining polynomial is replaced: a greatest
common divisor modulo one of the primes, without the variable. -/
structure Decided (t : Tower) (i : ℕ) (l : TowerLevel) (r : Poly) (ps : List ℕ) (o : Outcome) :
    Prop where
  outcome : o = .decided false
  prime : ∃ p ∈ ps, ∃ u b c, images? t l.var r p = some (u, b) ∧
    u.gcd l.var (u.defining i) b = .ok c ∧ mainDegree l.var c = 0

theorem Decided.cons {ps : List ℕ} (h : Decided t i l r ps o) (p : ℕ) :
    Decided t i l r (p :: ps) o where
  outcome := h.outcome
  prime := by
    obtain ⟨q, hq, hdecided⟩ := h.prime
    exact ⟨q, .tail _ hq, hdecided⟩

/-- How a successful test over several levels ends. -/
theorem overSeveral_eq_ok {ps : List ℕ} {gcds : Images} {splits : ℕ → Images × Images}
    (ht : t.Built σ.point) (hl : t.levels[i]? = some l)
    (hrun : overSeveral cfg t i l r ps gcds splits σ = .ok o τ) :
    Replaced σ τ ∨ Same σ τ ∧ Decided t i l r ps o := by
  induction ps generalizing σ gcds splits with
  | nil => cases hrun
  | cons p ps ih =>
    obtain ⟨σ₁, hpoint, hreplacements, hstep⟩ := overSeveral_cons_eq_ok hrun
    have hsame : Same σ σ₁ := ⟨hpoint, hreplacements⟩
    have ht₁ : t.Built σ₁.point := hpoint.symm ▸ ht
    -- what the rest of the primes do, if no check has accepted anything
    have hrest : ∀ {is : Images} {js : ℕ → Images × Images}, ∀ υ : PointState, Checked σ υ none →
        overSeveral cfg t i l r ps is js υ = .ok o τ →
        Replaced σ τ ∨ Same σ τ ∧ Decided t i l r (p :: ps) o := by
      intro is js υ hυ hrun
      obtain _ | hυ := hυ
      rcases ih (hυ.point.symm ▸ ht) hrun with h | ⟨h, hdecided⟩
      · exact .inl (.of_same hυ h)
      · exact .inr ⟨hυ.trans h, hdecided.cons p⟩
    cases hstep with
    | decided him hg h0 => exact .inr ⟨hsame, rfl, p, .head _, _, _, _, him, hg, h0⟩
    | passed hrun => exact hrest σ₁ (.rejected hsame) hrun
    | common him hg htries =>
      exact htries.elim (.rejected hsame) (fun q _ o? υ haccept =>
        .of_same hsame (checked_acceptGcd ht₁ hl haccept)) (fun h => .inl h.replaced) hrest
    | factors him hg hk hfh his hjs htries =>
      exact htries.elim (.rejected hsame) (fun q _ o? υ haccept =>
        .of_same hsame (checked_acceptSplit ht₁ hk haccept)) (fun h => .inl h.replaced) hrest

theorem Decided.answers {ps : List ℕ} (h : Decided t i l r ps o) (hps : ∀ p ∈ ps, p.Prime)
    (hl : t.levels[i]? = some l) (hr : ∀ w ∈ r.toMv.vars, w ≤ l.var) (hsame : Same σ τ) :
    Answers t r σ o τ where
  same := hsame
  decided := ⟨_, h.outcome⟩
  settles z hz := by
    obtain ⟨p, hp, u, b, c, him, hgcd, h0⟩ := h.prime
    rw [h.outcome]
    exact settles_false (value_ne_zero_of_mainDegree hz hl hr (hps p hp) him hgcd h0)

section

variable (ht : t.Built σ.point) (hr : r.toMv.vars ⊆ varsOf t.levels) (hv : r.mainVar? = some v)

include ht hr hv

theorem overOnly_answers {l : TowerLevel} (hls : t.levels = [l]) (hrun : overOne l r σ = .ok o τ) :
    Replaced σ τ ∨ Answers t r σ o τ := by
  have hl : l ∈ t.levels := hls ▸ .head _
  have hone : varsOf t.levels = {l.var} := by rw [hls]; rfl
  obtain ⟨a, ha⟩ := ht.level l hl
  exact overOne_answers ha hl (fun w hw => Finset.mem_singleton.1 (hone ▸ ht.closed l hl hw))
    (fun w hw => Finset.mem_singleton.1 (hone ▸ hr hw)) (Poly.toMv_ne_zero_of_mainVar? hv) hrun

theorem overLevel_answers (hsize : σ.point.size ≤ Poly.reservedVar) (hl : t.levels[i]? = some l)
    (hlv : l.var = v)
    (hrun : overSeveral cfg t i l r (Residue.primes.take cfg.maxPrimes) none
      (fun _ => (none, none)) σ = .ok o τ) :
    Replaced σ τ ∨ Answers t r σ o τ := by
  have hreserved : Poly.reservedVar ∉ r.toMv.vars := fun hmem => by
    obtain ⟨l, hl, hlv⟩ := mem_varsOf.1 (hr hmem)
    obtain ⟨a, ha⟩ := ht.level l hl
    exact (SamplePoint.lt_size_of_get? ha.get?).not_ge (hlv ▸ hsize)
  refine (overSeveral_eq_ok ht hl hrun).imp_right fun ⟨hsame, hdecided⟩ => ?_
  refine hdecided.answers (fun p hp => Residue.prime_of_mem_primes (List.mem_of_mem_take hp)) hl
    (fun w hw => ?_) hsame
  rw [hlv]
  exact Poly.le_of_mainVar? hreserved hv hw

end

/-- A successful attempt replaces a defining polynomial, or answers for all conjugates. -/
theorem attempt_answers (hs : σ.point.Triangular) (hsize : σ.point.size ≤ Poly.reservedVar)
    (hrun : attempt cfg p σ = .ok o τ) :
    Replaced σ τ ∨ ∃ t, Tower.ofPoly (σ.point.substituteKnown p) σ.point = .ok t ∧
      Answers t (σ.point.substituteKnown p) σ o τ := by
  have hstep := attempt_eq_ok hrun
  generalize σ.point.substituteKnown p = q at hstep ⊢
  have hreduce : ∀ {t : Tower}, Tower.ofPoly q σ.point = .ok t →
      t.Built σ.point ∧ (t.reduce q).toMv.vars ⊆ varsOf t.levels := fun ht => by
    obtain ⟨hbuilt, hvars⟩ := built_of_ofPoly hs ht
    exact ⟨hbuilt, vars_reduce_subset hbuilt hvars⟩
  cases hstep with
  | known hq ho hτ =>
    subst ho hτ
    exact .inr ⟨_, ofPoly_of_isNumber hq, answers_of_isNumber hq (.refl _)⟩
  | reduced ht hr ho hτ =>
    subst ho hτ
    exact .inr ⟨_, ht, (answers_of_isNumber hr (.refl _)).of_reduce⟩
  | overOnly ht hv hls hrun =>
    obtain ⟨hbuilt, hsub⟩ := hreduce ht
    exact (overOnly_answers hbuilt hsub hv hls hrun).imp_right fun h => ⟨_, ht, h.of_reduce⟩
  | overLevel ht hv hl hlv hcount hrun =>
    obtain ⟨hbuilt, hsub⟩ := hreduce ht
    have hsame := same_of_count hcount fun _ => rfl
    rw [← hsame.point] at hbuilt hsize
    exact (overLevel_answers hbuilt hsub hv hsize hl hlv hrun).imp (.of_same hsame)
      fun h => ⟨_, ht, h.of_reduce.of_same hsame⟩

/-- A successful test replaces a defining polynomial, or answers for all conjugates. -/
theorem vanishesAt_answers (hs : σ.point.Triangular) (hsize : σ.point.size ≤ Poly.reservedVar)
    {b : Bool} (hrun : vanishesAt cfg p σ = .ok b τ) :
    Replaced σ τ ∨ ∃ t, Tower.ofPoly (σ.point.substituteKnown p) σ.point = .ok t ∧
      Answers t (σ.point.substituteKnown p) σ (.decided b) τ := by
  rw [vanishesAt] at hrun
  obtain ⟨_, σ₁, hcount, h₁⟩ := run_bind_eq_ok hrun
  have hsame := same_of_count hcount fun _ => rfl
  rw [run_get_bind, attempts] at h₁
  obtain ⟨o, σ₂, hattempt, h₂⟩ := run_bind_eq_ok h₁
  rw [← hsame.point] at hs hsize ⊢
  have hleaves := (ends_attempt rfl hs).of_ok hattempt
  rcases attempt_answers hs hsize hattempt with h | ⟨t, ht, h⟩
  · refine .inl (.of_same hsame ?_)
    cases o with
    | decided c =>
      cases h₂
      exact h
    | replaced =>
      have htighter := (tracks_tightens.ends_attempts (hs.of_tightens hleaves.tightens)).of_ok h₂
      exact ⟨h.replacements.trans_le (rule_counts.attempts _ h₂),
        htighter.weight_le.trans_lt h.weight_lt⟩
  · obtain ⟨c, rfl⟩ := h.decided
    cases h₂
    exact .inr ⟨t, ht, h.of_same hsame⟩

end ZeroTest

end Cylindrical

end
