import Mathlib
import Cylindrical.Proofs.Decomposition.Lockstep
import Cylindrical.Proofs.Decomposition.Worklist

/-!
# Change of the operator

Where McCallum's projection is not valid, the construction starts again with Hong's.  From then on
the run is in lockstep with one that has used Hong's operator from the beginning, and has enough
steps left to lift all cells.
-/

namespace Cylindrical

namespace Decomposition

variable {cfg : Config} {p : Prenex} {d e : Decomposition} {lost : List ℕ}

/-! ## The step that changes the operator -/

/-- Whether the next step starts again with Hong's operator. -/
def retreats (d : Decomposition) : Bool :=
  match d.worklist with
  | [] => false
  | i :: is =>
    match d.tree.get? i with
    | none => false
    | some c =>
      if c.isLifted || d.tree.isSettled i then false
      else match liftCell c { d with worklist := is } with
        | .ok _ _ => false
        | .error err e => e.fallsBack err

theorem retreats_iff : d.retreats = true ↔ ∃ i is c err e, d.worklist = i :: is ∧
    d.tree.get? i = some c ∧ (c.isLifted || d.tree.isSettled i) = false ∧
    liftCell c { d with worklist := is } = .error err e ∧ e.fallsBack err = true := by
  rw [retreats]
  constructor
  · intro h
    split at h
    · cases h
    rename_i i is hw
    split at h
    · cases h
    rename_i c hc
    split_ifs at h with hdone
    split at h
    · cases h
    rename_i err e hrun
    exact ⟨i, is, c, err, e, hw, hc, Bool.eq_false_iff.2 hdone, hrun, h⟩
  · rintro ⟨i, is, c, err, e, hw, hc, hdone, hrun, h⟩
    simp only [hw, hc, hdone, hrun, h]
    rfl

/-- The other steps keep the mark. -/
theorem ends_liftNext_mark (h : d.retreats = false) :
    Ends liftNext d (fun _ e => e.mark = d.mark) fun e => e.mark = d.mark := by
  rw [liftNext]
  refine .bind (ends_get ?_)
  cases hw : d.worklist with
  | nil => exact ends_pure rfl
  | cons i is =>
    refine .bind (ends_modify (.bind (ends_get ?_)))
    cases hc : d.tree.get? i with
    | none => exact ends_pure rfl
    | some c =>
      simp only
      split_ifs with hdone
      · exact .bind (ends_modify (ends_pure rfl))
      · have hlift := (steady_liftCell c).keeps (.refl { d with worklist := is })
        refine .bind (Ends.mono (Q := fun _ e => e.mark = d.mark) ?_ (fun _ _ he => ends_pure he)
          fun _ he => he)
        refine ends_withFallback_of (hlift.mono (fun _ _ he => (Prod.mk.inj he).2)
          fun _ he => (Prod.mk.inj he).2) (fun _ he => he) fun err e hrun hback _ => ?_
        exact absurd (retreats_iff.2
          ⟨i, is, c, err, e, hw, hc, Bool.eq_false_iff.2 hdone, hrun, hback⟩)
          (Bool.eq_false_iff.1 h)

/-- The step that changes the operator is a projection, from a state with the same task. -/
theorem exists_of_retreats (h : Sound cfg p d) (hback : d.retreats = true) :
    ∃ f, Sound cfg p f ∧ f.mark = (d.algebra.groebner, d.stats.hongFallbacks + 1) ∧
      liftNext d = (project .hong >>= fun _ => pure true) f := by
  obtain ⟨i, is, c, err, e, hw, hc, hdone, hrun, hback⟩ := retreats_iff.1 hback
  have hleaf : c.children = none :=
    Option.isSome_eq_false_iff.1 (Bool.or_eq_false_iff.1 hdone).1 |> Option.isNone_iff_eq_none.1
  have hid : d.tree.get? c.id = some c := by rw [h.consistent.tree.id_eq hc, hc]
  obtain ⟨hkey, he⟩ := (((steady_liftCell c).keeps (.refl { d with worklist := is })).and
    ((kept_sound cfg p).liftCell (h.pop is) hid hleaf)).of_error hrun
  obtain ⟨hgroebner, hcount⟩ := Prod.mk.inj (Prod.mk.inj hkey).2
  refine ⟨{ e with stats := { e.stats with hongFallbacks := e.stats.hongFallbacks + 1 } },
    (kept_sound cfg p).count (fun s => { s with hongFallbacks := s.hongFallbacks + 1 }) he,
    Prod.ext hgroebner (congrArg (· + 1) hcount), ?_⟩
  have hstep : liftNext d =
      (withFallback (liftCell c) (return) >>= fun _ => pure true) { d with worklist := is } := by
    rw [liftNext, run_get_bind, hw]
    simp only
    rw [run_modify_bind, run_get_bind]
    simp only [hc]
    rw [hdone]
    rfl
  rw [hstep, run_bind_congr (withFallback_eq hrun hback), bind_assoc]
  rfl

/-! ## Runs -/

theorem liftUpTo_succ_of_ok {n : ℕ} {b : Bool} (h : liftNext d = .ok b e) :
    liftUpTo (n + 1) d = (if b = true then liftUpTo n else pure ()) e := by
  rw [liftUpTo, run_bind_of_ok h]

theorem liftUpTo_succ_of_error {n : ℕ} {err : DecompositionError} (h : liftNext d = .error err e) :
    liftUpTo (n + 1) d = .error err e := by
  rw [liftUpTo, run_bind_of_error h]

theorem liftUpTo_succ_of_project {n : ℕ}
    (h : liftNext d = (project .hong >>= fun _ => pure true) e) :
    liftUpTo (n + 1) d = (project .hong >>= fun _ => liftUpTo n) e := by
  rw [liftUpTo, run_bind_congr h, bind_assoc]
  rfl

theorem liftUpTo_of_nil (h : d.worklist = []) (n : ℕ) : liftUpTo n d = .ok () d := by
  have hnext : liftNext d = .ok false d := by
    rw [liftNext, run_get_bind, h]
    rfl
  cases n with
  | zero => rfl
  | succ n => exact liftUpTo_succ_of_ok hnext

theorem worklist_of_pending_le (h : d.pending ≤ 0) : d.worklist = [] := by
  rw [pending] at h
  exact List.length_eq_zero_iff.1 (by omega)

/-- The number of steps does not matter if it suffices. -/
theorem liftUpTo_eq {n m : ℕ} (h : Sound cfg p d) (hc : d.Covered lost)
    (hp : d.projection.isSome = true) (hn : d.pending ≤ n) (hm : d.pending ≤ m) :
    liftUpTo n d = liftUpTo m d := by
  induction n generalizing d m with
  | zero =>
    have hw := worklist_of_pending_le hn
    rw [liftUpTo_of_nil hw, liftUpTo_of_nil hw]
  | succ n ih =>
    cases m with
    | zero =>
      have hw := worklist_of_pending_le hm
      rw [liftUpTo_of_nil hw, liftUpTo_of_nil hw]
    | succ m =>
      cases hrun : liftNext d with
      | error err e => rw [liftUpTo_succ_of_error hrun, liftUpTo_succ_of_error hrun]
      | ok b e =>
        obtain ⟨hs, hcov, hproj, hpending⟩ := (ends_liftNext_covered h hc hp).of_ok hrun
        rw [liftUpTo_succ_of_ok hrun, liftUpTo_succ_of_ok hrun]
        cases b with
        | false => rfl
        | true =>
          rw [if_pos rfl] at hpending ⊢
          exact ih hs hcov hproj (by omega) (by omega)

/-- A run that changes the operator comes to a projection by Hong's operator, from a state with the
same task, and has enough steps left for what then waits. -/
theorem exists_of_fallback {n : ℕ} (h : Sound cfg p d) (hc : d.Covered lost)
    (hp : d.projection.isSome = true) (hn : d.pending ≤ n)
    (hback : (stateAfter (liftUpTo n d)).stats.hongFallbacks ≠ d.stats.hongFallbacks) :
    ∃ f m, Sound cfg p f ∧ f.algebra.groebner = d.algebra.groebner ∧
      liftUpTo n d = (project .hong >>= fun _ => liftUpTo m) f ∧
      ∀ g, project .hong f = .ok () g → g.pending ≤ m := by
  induction n generalizing d with
  | zero => exact absurd rfl hback
  | succ n ih =>
    have hnext := ends_liftNext_covered h hc hp
    cases hretreats : d.retreats with
    | true =>
      obtain ⟨f, hf, hmark, hstep⟩ := exists_of_retreats h hretreats
      refine ⟨f, n, hf, (Prod.mk.inj hmark).1, liftUpTo_succ_of_project hstep, fun g hg => ?_⟩
      rw [run_bind_of_ok hg] at hstep
      obtain ⟨-, -, -, hpending⟩ := hnext.of_ok hstep
      rw [if_pos rfl] at hpending
      omega
    | false =>
      have hmark := ends_liftNext_mark hretreats
      cases hrun : liftNext d with
      | error err e =>
        rw [liftUpTo_succ_of_error hrun] at hback
        exact absurd (Prod.mk.inj (hmark.of_error hrun)).2 hback
      | ok b e =>
        obtain ⟨hgroebner, hcount⟩ := Prod.mk.inj (hmark.of_ok hrun)
        obtain ⟨hs, hcov, hproj, hpending⟩ := hnext.of_ok hrun
        rw [liftUpTo_succ_of_ok hrun, ← hcount] at hback
        cases b with
        | false => exact absurd rfl hback
        | true =>
          rw [if_pos rfl] at hpending hback
          obtain ⟨f, m, hf, hsettings, heq, hm⟩ := ih hs hcov hproj (by omega) hback
          refine ⟨f, m, hf, hsettings.trans hgroebner, ?_, hm⟩
          rw [liftUpTo_succ_of_ok hrun, if_pos rfl, heq]

/-! ## The count of changes -/

/-- A step that changes the operator counts this. -/
theorem ends_liftNext_count (h : Sound cfg p d) :
    Ends liftNext d (fun _ e => d.stats.hongFallbacks ≤ e.stats.hongFallbacks)
      fun e => d.stats.hongFallbacks ≤ e.stats.hongFallbacks := by
  cases hretreats : d.retreats with
  | false =>
    exact (ends_liftNext_mark hretreats).mono (fun _ _ he => (Prod.mk.inj he).2.ge)
      fun _ he => (Prod.mk.inj he).2.ge
  | true =>
    obtain ⟨f, -, hmark, hstep⟩ := exists_of_retreats h hretreats
    have hcount := (Prod.mk.inj hmark).2
    have hproject : Ends (project .hong >>= fun _ => pure true) f
        (fun _ e => d.stats.hongFallbacks ≤ e.stats.hongFallbacks)
        fun e => d.stats.hongFallbacks ≤ e.stats.hongFallbacks :=
      .bind ((ends_project_mark .hong f).mono
        (fun _ e he => ends_pure (by have := (Prod.mk.inj he).2; omega))
        fun e he => by have := (Prod.mk.inj he).2; omega)
    rw [Ends] at hproject ⊢
    rwa [hstep]

theorem ends_liftUpTo_count (n : ℕ) (h : Sound cfg p d) (hp : d.projection.isSome = true) :
    Ends (liftUpTo n) d (fun _ e => d.stats.hongFallbacks ≤ e.stats.hongFallbacks)
      fun e => d.stats.hongFallbacks ≤ e.stats.hongFallbacks := by
  induction n generalizing d with
  | zero => exact ends_pure le_rfl
  | succ n ih =>
    rw [liftUpTo]
    refine .bind (((ends_liftNext_count h).and ((kept_sound cfg p).ends_liftNext
      (fun h _ => h.pop _) h hp)).mono (fun b e he => ?_) fun _ he => he.1)
    obtain ⟨hle, hs, hproj⟩ := he
    cases b with
    | false => exact ends_pure hle
    | true => exact (ih hs hproj).mono (fun _ _ hf => hle.trans hf) fun _ hf => hle.trans hf

theorem stateAfter_liftUpTo_count (n : ℕ) (h : Sound cfg p d) (hp : d.projection.isSome = true) :
    d.stats.hongFallbacks ≤ (stateAfter (liftUpTo n d)).stats.hongFallbacks :=
  Ends.stateAfter (P := fun e : Decomposition => d.stats.hongFallbacks ≤ e.stats.hongFallbacks)
    (ends_liftUpTo_count n h hp)

theorem pending_pos_of_retreats {k : ℕ} (hrun : liftUpTo k d = .ok () e)
    (hback : e.retreats = true) : 0 < d.pending := by
  by_contra hzero
  have hw := worklist_of_pending_le (not_lt.1 hzero)
  rw [liftUpTo_of_nil hw] at hrun
  cases hrun
  rw [retreats, hw] at hback
  cases hback

/-- If some step changes the operator, so does the run. -/
theorem lt_count_of_retreats {k n : ℕ} (h : Sound cfg p d) (hc : d.Covered lost)
    (hp : d.projection.isSome = true) (hn : d.pending ≤ n) (hrun : liftUpTo k d = .ok () e)
    (hback : e.retreats = true) :
    d.stats.hongFallbacks < (stateAfter (liftUpTo n d)).stats.hongFallbacks := by
  induction k generalizing d n with
  | zero =>
    obtain ⟨n, rfl⟩ :=
      Nat.exists_eq_add_of_le' ((pending_pos_of_retreats hrun hback).trans_le hn)
    cases hrun
    obtain ⟨f, hf, hmark, hstep⟩ := exists_of_retreats h hback
    have hcount := (Prod.mk.inj hmark).2
    rw [liftUpTo_succ_of_project hstep]
    cases hproject : project .hong f with
    | error err g =>
      have hg := (Prod.mk.inj ((ends_project_mark .hong f).of_error hproject)).2
      rw [run_bind_of_error hproject, stateAfter]
      omega
    | ok a g =>
      have hcount' := (Prod.mk.inj ((ends_project_mark .hong f).of_ok hproject)).2
      obtain ⟨hg, hproj⟩ := ((kept_sound cfg p).project .hong hf).of_ok hproject
      have hrest := stateAfter_liftUpTo_count n hg hproj
      rw [run_bind_of_ok hproject]
      omega
  | succ k ih =>
    obtain ⟨n, rfl⟩ :=
      Nat.exists_eq_add_of_le' ((pending_pos_of_retreats hrun hback).trans_le hn)
    cases hnext : liftNext d with
    | error err f =>
      rw [liftUpTo_succ_of_error hnext] at hrun
      cases hrun
    | ok b f =>
      obtain ⟨hf, hcov, hproj, hpending⟩ := (ends_liftNext_covered h hc hp).of_ok hnext
      rw [liftUpTo_succ_of_ok hnext] at hrun ⊢
      cases b with
      | false =>
        cases hrun
        rw [if_neg Bool.false_ne_true] at hpending
        rw [retreats, hpending] at hback
        cases hback
      | true =>
        rw [if_pos rfl] at hpending hrun ⊢
        exact ((ends_liftNext_count h).of_ok hnext).trans_lt
          (ih hf hcov hproj (by omega) hrun)

/-! ## The run from a projection by Hong's operator on -/

theorem Twins.pending_eq (h : Twins d e) : e.pending = d.pending := by
  have hmaxCells : e.config.maxCells = d.config.maxCells := congrArg (·.maxCells) h.config
  rw [pending, pending, h.worklist, h.tree, h.projection, hmaxCells]

theorem hongOnly_of_project (hd : d.Consistent) (h : project .hong d = .ok () e) : e.HongOnly := by
  obtain ⟨q, links, hq, hop⟩ := ((ends_project hd).of_ok h).projection
  intro r hr
  obtain rfl := Option.some.inj (hq.symm.trans hr)
  exact hop

/-- After a projection by Hong's operator, kin are lifted in lockstep, if there are enough steps. -/
theorem sameEnd_liftFromHong {cfg' : Config} {m : ℕ} (h : Kin d e) (hd : Sound cfg p d)
    (he : Sound cfg' p e) (hm : ∀ g, project .hong d = .ok () g → g.pending ≤ m) :
    SameEnd Twins (fun d' e' => ∀ g, project .hong e = .ok () g → Twins d' e')
      ((project .hong >>= fun _ => liftUpTo m) d)
      ((project .hong >>= fun _ => do liftUpTo (← get).pendingBound) e) := by
  rcases (sameEnd_project .hong h).cases with
    ⟨⟨⟩, d', e', hrun, hrun', htwins, -⟩ | ⟨err, d', e', hrun, hrun', -⟩
  · rw [run_bind_of_ok hrun, run_bind_of_ok hrun', run_get_bind]
    have hrestarted := (ends_project he.consistent).of_ok hrun'
    have hsound := (stepwise_sound cfg' p).restarted he hrestarted
    have hcovered : e'.Covered [] := hrestarted.covered
    have hpending : e'.pending ≤ m := htwins.pending_eq ▸ hm d' hrun
    rw [← liftUpTo_eq hsound hcovered hrestarted.projection_isSome hpending
      e'.pending_le_pendingBound]
    exact (hongSteady_liftUpTo m ⟨htwins, hongOnly_of_project hd.consistent hrun⟩).mono
      (fun _ _ h => h.rel.toTwins) fun _ _ h _ _ => h.rel.toTwins
  · rw [run_bind_of_error hrun, run_bind_of_error hrun']
    exact .error fun g hg => nomatch hrun'.symm.trans hg

theorem ensureProjected_eq (h : d.projection = none) :
    ensureProjected d = project d.config.operator d := by
  rw [ensureProjected, run_get_bind, h]
  rfl

theorem stateAfter_solve (d : Decomposition) : stateAfter (solve d) = stateAfter (liftAll d) := by
  rw [solve]
  cases hrun : liftAll d with
  | ok a e =>
    rw [run_bind_of_ok hrun]
    rfl
  | error err e =>
    rw [run_bind_of_error hrun]
    rfl

/-- The lifting of all cells after a change of the operator, and that with Hong's operator. -/
theorem sameEnd_liftAll (hd : Sound cfg p d) (hp : d.projection = none)
    (hcount : d.stats.hongFallbacks = 0)
    (he : Sound { cfg with operator := .hong } p e) (hp' : e.projection = none)
    (hs : SameSettings d.algebra e.algebra)
    (hback : (stateAfter (liftAll d)).stats.hongFallbacks ≠ 0) :
    SameEnd Twins (fun d' e' => ∀ g, project .hong e = .ok () g → Twins d' e')
      (liftAll d) (liftAll e) := by
  have hproject := ends_project_mark d.config.operator d
  have hall : liftAll e = (project .hong >>= fun _ => do liftUpTo (← get).pendingBound) e := by
    rw [liftAll]
    refine run_bind_congr ?_
    rw [ensureProjected_eq hp', he.config]
  cases hrun : project d.config.operator d with
  | error err f =>
    rw [liftAll, run_bind_of_error ((ensureProjected_eq hp).trans hrun)] at hback
    exact absurd ((Prod.mk.inj (hproject.of_error hrun)).2.trans hcount) hback
  | ok a f =>
    obtain ⟨hgroebner, hnone⟩ := Prod.mk.inj (hproject.of_ok hrun)
    have hlift : liftAll d = liftUpTo f.pendingBound f := by
      rw [liftAll, run_bind_of_ok ((ensureProjected_eq hp).trans hrun), run_get_bind]
    have hrestarted := (ends_project hd.consistent).of_ok hrun
    have hf := (stepwise_sound cfg p).restarted hd hrestarted
    have hcovered : f.Covered [] := hrestarted.covered
    rw [hlift] at hback ⊢
    obtain ⟨g, m, hg, hsettings, heq, hm⟩ := exists_of_fallback hf hcovered
      hrestarted.projection_isSome f.pending_le_pendingBound (by rwa [hnone, hcount])
    rw [heq, hall]
    refine sameEnd_liftFromHong ⟨?_, ?_, ?_⟩ hg he hm
    · rw [he.config, hg.config]
    · rw [he.formula, hg.formula]
    · exact (hsettings.trans hgroebner).trans hs

theorem ofFormula_fresh {algebra : AlgebraSystem} {names : VariableTable} {φ : Formula}
    (h : ofFormula cfg algebra names φ = .ok d) :
    d.projection = none ∧ d.algebra = algebra ∧ d.stats.hongFallbacks = 0 := by
  rw [ofFormula] at h
  split at h <;> cases h
  exact ⟨rfl, rfl, rfl⟩

/-- The projection and the first steps of the lifting. -/
def liftFirst (k : ℕ) : DecompositionM Unit := do
  ensureProjected
  liftUpTo k

/-- If some step of it changes the operator, `solve` counts this. -/
theorem count_of_retreats {algebra : AlgebraSystem} {names : VariableTable} {φ : Formula} {k : ℕ}
    (h : ofFormula cfg algebra names φ = .ok d) (hrun : liftFirst k d = .ok () e)
    (hback : e.retreats = true) : (stateAfter (solve d)).stats.hongFallbacks ≠ 0 := by
  obtain ⟨⟨⟩, f, hproject, hrun⟩ := run_bind_eq_ok hrun
  obtain ⟨⟨hf, hcov⟩, hproj⟩ := ((stepwise_covered cfg d.formula []).kept.ends_ensureProjected
    ⟨sound_ofFormula h, covered_ofFormula h⟩).of_ok hproject
  have hlt := lt_count_of_retreats hf hcov hproj f.pending_le_pendingBound hrun hback
  rw [stateAfter_solve, liftAll, run_bind_of_ok hproject, run_get_bind]
  exact Nat.ne_zero_of_lt hlt

/-- A `solve` that changes the operator ends as one that has used Hong's operator from the
beginning: with the same decision or the same error, and, if Hong's projection succeeds, with the
same projection and the same tree.  The counts of the algebra may differ from the beginning. -/
theorem solve_eq_of_fallback {algebra algebra' : AlgebraSystem} {names : VariableTable}
    {φ : Formula} (h : ofFormula cfg algebra names φ = .ok d)
    (h' : ofFormula { cfg with operator := .hong } algebra' names φ = .ok e)
    (hs : SameSettings algebra algebra')
    (hback : (stateAfter (solve d)).stats.hongFallbacks ≠ 0) :
    outcome (solve d) = outcome (solve e) ∧ ∀ f, project .hong e = .ok () f →
      (stateAfter (solve d)).projection = (stateAfter (solve e)).projection ∧
      (stateAfter (solve d)).tree = (stateAfter (solve e)).tree := by
  have hformula : e.formula = d.formula :=
    Except.ok.inj ((ofFormula_eq_ok h').symm.trans (ofFormula_eq_ok h))
  obtain ⟨hp, rfl, hcount⟩ := ofFormula_fresh h
  obtain ⟨hp', rfl, -⟩ := ofFormula_fresh h'
  rw [stateAfter_solve] at hback
  have hlift := sameEnd_liftAll (sound_ofFormula h) hp hcount (hformula ▸ sound_ofFormula h') hp'
    hs hback
  have hsolve : SameEnd (fun d' e' => ∀ f, project .hong e = .ok () f → Twins d' e')
      (fun d' e' => ∀ f, project .hong e = .ok () f → Twins d' e') (solve d) (solve e) := by
    rw [solve]
    refine hlift.bind fun _ s t hst => ?_
    rw [run_get_bind, run_get_bind, truth, truth, root, root, hst.tree]
    exact .ok fun _ _ => hst
  exact ⟨hsolve.outcome_eq, fun f hf => ⟨(hsolve.stateAfter f hf).projection.symm,
    (hsolve.stateAfter f hf).tree.symm⟩⟩

/-- For `y * w + z = 0` the factor vanishes identically over a line, so the operator changes. -/
theorem solve_eq_of_fallback_line : ∃ d e : Decomposition,
    ofFormula {} {} (.ofNames ["x", "y", "z", "w"]) (.quantified .exists [0, 1, 2, 3]
      (.atom (.var 1 * .var 3 + .var 2) .eq)) = .ok d ∧
    ofFormula { operator := .hong } { calls := { gcd := 7 } } (.ofNames ["x", "y", "z", "w"])
      (.quantified .exists [0, 1, 2, 3] (.atom (.var 1 * .var 3 + .var 2) .eq)) = .ok e ∧
    (stateAfter (solve d)).stats.hongFallbacks ≠ 0 ∧ outcome (solve d) = outcome (solve e) := by
  have hd : (ofFormula {} {} (.ofNames ["x", "y", "z", "w"]) (.quantified .exists [0, 1, 2, 3]
      (.atom (.var 1 * .var 3 + .var 2) .eq))).toOption.any (fun d =>
        (returned? (liftFirst 3 d)).isSome && (stateAfter (liftFirst 3 d)).retreats) = true := by
    decide +kernel
  have he : (ofFormula { operator := .hong } { calls := { gcd := 7 } }
      (.ofNames ["x", "y", "z", "w"]) (.quantified .exists [0, 1, 2, 3]
        (.atom (.var 1 * .var 3 + .var 2) .eq))).toOption.isSome = true := by
    decide +kernel
  obtain ⟨d, hd, hrun⟩ := (Option.any_eq_true _ _).1 hd
  obtain ⟨e, he⟩ := Option.isSome_iff_exists.1 he
  obtain ⟨hreturned, hretreats⟩ := Bool.and_eq_true_iff.1 hrun
  obtain ⟨a, ha⟩ := Option.isSome_iff_exists.1 hreturned
  obtain ⟨t, hrun⟩ := exists_eq_ok ha
  rw [hrun, stateAfter] at hretreats
  have hback := count_of_retreats (ok_of_toOption hd) hrun hretreats
  exact ⟨d, e, ok_of_toOption hd, ok_of_toOption he, hback,
    (solve_eq_of_fallback (ok_of_toOption hd) (ok_of_toOption he) rfl hback).1⟩

end Decomposition

end Cylindrical
