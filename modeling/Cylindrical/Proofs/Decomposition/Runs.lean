import Mathlib
import Cylindrical.Proofs.Decomposition.Lifting

/-!
# Runs of a decomposition

A call projects, lifts cells that wait, or lifts the cells on a path.  Each step of a call starts
anew with a projection, lifts one cell, or changes nothing but counts and coordinates; what every
such step keeps, every sequence of calls keeps, those that fail included.
-/

namespace Cylindrical

namespace Decomposition

variable {d e : Decomposition} {c : Cell} {ids : List ℕ} {op : ProjectionOperator}

/-- The state `e` starts anew from `d`, with a projection by `op` and the tree of the root alone. -/
structure Restarted (op : ProjectionOperator) (d e : Decomposition) : Prop where
  config : e.config = d.config
  formula : e.formula = d.formula
  projection : ∃ p links, e.projection = some (p, links) ∧ p.operator = op
  consistent : e.Consistent
  labelled : e.Labelled
  root : ∀ {i c}, e.tree.get? i = some c → i = 0 ∧ c.depth = 0 ∧ c.children = none
  worklist : e.worklist = if (e.tree.truthOf 0).isNone then [0] else []

theorem Restarted.projection_isSome (h : Restarted op d e) : e.projection.isSome = true := by
  obtain ⟨p, links, hp, -⟩ := h.projection
  rw [hp]
  rfl

theorem consistent_of_root (hf : d.formula.matrix.isQuantifierFree = true)
    (htree : d.tree = { dimension := d.size, maxCells := d.config.maxCells })
    (hprojected : ∀ {p links}, d.projection = some (p, links) →
      p.Closed ∧ p.levels.length = d.size ∧ links.length = d.formula.atoms.length) :
    d.Consistent where
  tree := htree ▸ CellTree.wellFormed_root ..
  dimension := by rw [htree]
  maxCells := by rw [htree]
  quantifierFree := hf
  projected := hprojected
  signed _ hc := by
    rw [htree] at hc
    obtain ⟨-, rfl⟩ := CellTree.eq_of_get?_root hc
    exact fun h => absurd h (lt_irrefl 0)

/-- The evaluation of the root of a new tree. -/
theorem ends_evaluateRoot {E : Decomposition → Prop} {p : Projection} {links : List ℕ}
    (h : d.Consistent) (htree : d.tree = { dimension := d.size, maxCells := d.config.maxCells })
    (hp : d.projection = some (p, links)) (hw : d.worklist = []) :
    Ends (do if (← evaluate 0).isNone then modify fun d => { d with worklist := [0] } :
      DecompositionM Unit) d (fun _ => Restarted p.operator d) E := by
  obtain ⟨b, hb⟩ := h.tree.root
  refine .bind (ends_evaluate h (Option.isSome_iff_exists.2 ⟨_, hp⟩) hb ?_)
  have hs : SameCells d { d with tree := d.tree.setTruth 0 (d.matrixTruth? 0) } := .setTruth ..
  have htruth : (d.tree.setTruth 0 (d.matrixTruth? 0)).truthOf 0 = d.matrixTruth? 0 :=
    CellTree.truthOf_setTruth_self hb _
  have hroot : ∀ {i c}, (d.tree.setTruth 0 (d.matrixTruth? 0)).get? i = some c →
      i = 0 ∧ c.depth = 0 ∧ c.children = none := fun hc => by
    obtain ⟨a, ha, hstem, hchildren⟩ := hs.shape.symm.exists_get? hc
    rw [htree] at ha
    obtain ⟨rfl, rfl⟩ := CellTree.eq_of_get?_root ha
    exact ⟨rfl, (Cell.depth_of_stem hstem).symm, hchildren.symm⟩
  have hrestarted : ∀ ws, ws = (if (d.matrixTruth? 0).isNone then [0] else []) →
      Restarted p.operator d
        { d with tree := d.tree.setTruth 0 (d.matrixTruth? 0), worklist := ws } := fun ws hws => by
    refine ⟨rfl, rfl, ⟨p, links, hp, rfl⟩, h.of_sameShape ⟨rfl, rfl, rfl⟩ hs.shape,
      fun i c hc => ?_, hroot, hws.trans (by rw [htruth])⟩
    obtain ⟨rfl, -, hleaf⟩ := hroot hc
    rw [stackTruth?_of_leaf hleaf, Option.or_none, ← CellTree.truthOf_eq hc]
    exact htruth.trans (hs.matrixTruth?_eq h hb).symm
  split_ifs with hnone
  · exact ends_modify (hrestarted [0] (by rw [if_pos hnone]))
  · exact ends_pure (hrestarted d.worklist (by rw [if_neg hnone, hw]))

/-- With the projection at hand, starting anew cannot fail. -/
theorem ends_startAnew {r : Projection × List ℕ} {σ τ : Projection.State} {truncate : Bool}
    {E : Decomposition → Prop} (h : d.Consistent)
    (hr : Projection.project op truncate d.formula.atoms d.size σ = .ok r τ)
    (he : SameTask d e) :
    Ends (do
        count fun s => { s with projections := s.projections + 1 }
        modify fun d => { d with
          projection := some (r.1, r.2)
          tree := { dimension := d.size, maxCells := d.config.maxCells }
          worklist := [] }
        if (← evaluate 0).isNone then modify fun d => { d with worklist := [0] } :
        DecompositionM Unit) e (fun _ => Restarted op d) E := by
  obtain ⟨rfl, hprojected⟩ := Projection.project_spec hr
  rw [count]
  refine .bind (ends_modify (.bind (ends_modify ?_)))
  refine Ends.mono (ends_evaluateRoot ?_ rfl rfl rfl) (fun _ f hf => ?_) fun f hf => hf
  · refine consistent_of_root (he.formula ▸ h.quantifierFree) rfl fun hq => ?_
    obtain ⟨rfl, rfl⟩ := Prod.mk.inj (Option.some.inj hq)
    change _ ∧ _ = e.size ∧ _ = e.formula.atoms.length
    rw [he.size, he.formula]
    exact hprojected
  · exact ⟨hf.config.trans he.config, hf.formula.trans he.formula, hf.projection, hf.consistent,
      hf.labelled, hf.root, hf.worklist⟩

theorem ends_project (h : d.Consistent) :
    Ends (project op) d (fun _ => Restarted op d) (SameTruths d) := by
  rw [project]
  refine .bind (ends_get (.bind (ends_focus (fun r s hr => ?_) fun e s _ => ?_)))
  · exact ends_startAnew h hr ⟨rfl, rfl, rfl⟩
  · exact sameTruths_of_eq ⟨rfl, rfl, rfl⟩ rfl rfl

/-! ## Change of the operator -/

/-- The projection is by the operator `op`. -/
def ProjectedBy (op : ProjectionOperator) (d : Decomposition) : Prop :=
  ∃ p links, d.projection = some (p, links) ∧ p.operator = op

theorem SameTask.projectedBy (h : SameTask d e) : ProjectedBy op e ↔ ProjectedBy op d := by
  rw [ProjectedBy, ProjectedBy, h.projection]

theorem projectedBy_of_fallsBack {err : DecompositionError} (h : d.fallsBack err = true) :
    ProjectedBy .mcCallum d := by
  cases err with
  | notWellOriented f level =>
    rw [fallsBack, Bool.and_eq_true, Option.any_eq_true] at h
    obtain ⟨-, ⟨p, links⟩, hp, hop⟩ := h
    exact ⟨p, links, hp, beq_iff_eq.1 hop⟩
  | malformedPrefix | nonPrenex | unknownVariable | invalidAddress | inconclusive | backend
  | algebra => cases h

theorem withFallback_eq {x again : DecompositionM Unit} {err : DecompositionError}
    (hrun : x d = .error err e) (hback : e.fallsBack err = true) :
    withFallback x again d = (project .hong >>= fun _ => again)
      { e with stats := { e.stats with hongFallbacks := e.stats.hongFallbacks + 1 } } := by
  rw [withFallback, hrun]
  simp only
  rw [if_pos hback]
  rfl

/-- A run with a second attempt ends as the first one does where it does not fall back. -/
theorem ends_withFallback_of {x again : DecompositionM Unit} {Q : Unit → Decomposition → Prop}
    {E F : Decomposition → Prop} (hx : Ends x d Q F) (hE : ∀ e, F e → E e)
    (hagain : ∀ err e, x d = .error err e → e.fallsBack err = true → F e →
      Ends (project .hong >>= fun _ => again)
        { e with stats := { e.stats with hongFallbacks := e.stats.hongFallbacks + 1 } } Q E) :
    Ends (withFallback x again) d Q E := by
  cases hrun : x d with
  | ok a e =>
    rw [Ends, withFallback, hrun]
    exact hx.of_ok hrun
  | error err e =>
    have he := hx.of_error hrun
    by_cases hback : e.fallsBack err = true
    · rw [Ends, withFallback_eq hrun hback]
      exact hagain err e hrun hback he
    · rw [Ends, withFallback, hrun]
      simp only
      rw [if_neg hback]
      exact hE e he

theorem ends_withFallback {x again : DecompositionM Unit} {Q : Unit → Decomposition → Prop}
    {E : Decomposition → Prop} (hx : Ends x d Q fun e => e.Consistent ∧ E e)
    (hE : ∀ {e f}, E e → SameTruths e f → E f)
    (hagain : ∀ e f, E e → ProjectedBy .mcCallum e → Restarted .hong e f → Ends again f Q E) :
    Ends (withFallback x again) d Q E := by
  refine ends_withFallback_of hx (fun _ he => he.2) fun err e _ hback ⟨hcons, he⟩ => ?_
  have hcount : SameTruths e
      { e with stats := { e.stats with hongFallbacks := e.stats.hongFallbacks + 1 } } :=
    sameTruths_of_eq ⟨rfl, rfl, rfl⟩ rfl rfl
  refine .bind ((ends_project (hcount.consistent hcons)).mono (fun _ f hf => ?_)
    fun f hf => hE he (hcount.trans hf))
  exact hagain e f he (projectedBy_of_fallsBack hback) ⟨hf.config, hf.formula, hf.projection,
    hf.consistent, hf.labelled, hf.root, hf.worklist⟩

/-! ## The next cell -/

/-- What the step does that takes the cell `i` off the worklist, from the state `d` without it. -/
inductive Advances (d : Decomposition) (i : ℕ) : Decomposition → Prop
  | pruned {e : Decomposition} (hi : ∀ {c}, d.tree.get? i = some c →
      c.children.isSome = true ∨ d.tree.isSettled i = true) (he : SameTruths d e) : Advances d i e
  | lifted {e : Decomposition} {c : Cell} {ids : List ℕ} (hc : d.tree.get? i = some c)
      (hleaf : c.children = none) (he : Lifted d e c ids) : Advances d i e
  | restarted {e : Decomposition} (hp : ProjectedBy .mcCallum d) (he : Restarted .hong d e) :
      Advances d i e

theorem ends_liftWaiting {i : ℕ} (hd : d.Consistent) (hl : d.Labelled)
    (hp : d.projection.isSome = true) (hc : d.tree.get? i = some c) (hleaf : c.children = none) :
    Ends (withFallback (liftCell c) (return)) d (fun _ => Advances d i) (SameTruths d) := by
  obtain ⟨⟨p, links⟩, hp⟩ := Option.isSome_iff_exists.1 hp
  have hid : d.tree.get? c.id = some c := by rw [hd.tree.id_eq hc, hc]
  refine ends_withFallback ((ends_liftCell hd hl hp hid hleaf).mono (fun _ e he => ?_)
    fun e he => ⟨he.consistent hd, he⟩) SameTruths.trans fun e f he hop hf => ?_
  · obtain ⟨ids, he⟩ := he
    exact .lifted hc hleaf he
  · refine ends_pure (.restarted (he.task.projectedBy.1 hop) ?_)
    exact { hf with
      config := hf.config.trans he.task.config
      formula := hf.formula.trans he.task.formula }

theorem ends_liftNext (hd : d.Consistent) (hl : d.Labelled) (hp : d.projection.isSome = true) :
    Ends liftNext d
      (fun b e => if b = true then ∃ i is, d.worklist = i :: is ∧
          Advances { d with worklist := is } i e
        else d.worklist = [] ∧ e = d)
      fun e => ∃ i is, d.worklist = i :: is ∧ SameTruths { d with worklist := is } e := by
  rw [liftNext]
  refine .bind (ends_get ?_)
  cases hw : d.worklist with
  | nil => exact ends_pure ⟨rfl, rfl⟩
  | cons i is =>
    refine .bind (ends_modify (.bind (ends_get ?_)))
    have hd' : Consistent { d with worklist := is } := hd.of_sameShape ⟨rfl, rfl, rfl⟩ (.refl _)
    have hl' : Labelled { d with worklist := is } := fun j _ hb => hl j hb
    have hstep : ∀ e, Advances { d with worklist := is } i e → if true = true then
        ∃ j js, i :: is = j :: js ∧ Advances { d with worklist := js } j e
        else i :: is = [] ∧ e = d := fun e he => by
      rw [if_pos rfl]
      exact ⟨i, is, rfl, he⟩
    simp only
    cases hc : d.tree.get? i with
    | none =>
      exact ends_pure (hstep _ (.pruned (fun h => nomatch hc.symm.trans h) (.refl _)))
    | some c =>
      simp only
      by_cases hdone : (c.isLifted || d.tree.isSettled i) = true
      · rw [if_pos hdone]
        rw [Bool.or_eq_true] at hdone
        refine .bind (ends_modify (ends_pure (hstep _ (.pruned (fun h => ?_)
          (sameTruths_of_eq ⟨rfl, rfl, rfl⟩ rfl rfl)))))
        obtain rfl := Option.some.inj (hc.symm.trans h)
        exact hdone
      · rw [if_neg hdone]
        rw [Bool.or_eq_true, not_or] at hdone
        have hleaf : c.children = none := Option.not_isSome_iff_eq_none.1 hdone.1
        exact .bind ((ends_liftWaiting hd' hl' hp hc hleaf).mono
          (fun _ e he => ends_pure (hstep e he)) fun e he => ⟨i, is, rfl, he⟩)

/-! ## What every step keeps -/

/-- Each projection and each lifting of a cell keep the property, whether they succeed or fail, and
counts do not matter. -/
structure Kept (P : Decomposition → Prop) : Prop where
  consistent : ∀ {d}, P d → d.Consistent
  count : ∀ {d} (f : Stats → Stats), P d → P { d with stats := f d.stats }
  project : ∀ {d} op, P d → Ends (project op) d (fun _ e => P e ∧ e.projection.isSome = true) P
  liftCell : ∀ {d c}, P d → d.tree.get? c.id = some c → c.children = none →
    Ends (liftCell c) d (fun _ e => P e ∧ e.projection = d.projection) P

/-- What a projection or a lifting may change leaves the property. -/
structure Stepwise (P : Decomposition → Prop) : Prop where
  consistent : ∀ {d}, P d → d.Consistent
  labelled : ∀ {d}, P d → d.Labelled
  same : ∀ {d e}, P d → SameTruths d e → P e
  lifted : ∀ {d e c ids}, P d → d.tree.get? c.id = some c → c.children = none →
    Lifted d e c ids → P e
  restarted : ∀ {op d e}, P d → Restarted op d e → P e

theorem Stepwise.kept {P : Decomposition → Prop} (h : Stepwise P) : Kept P where
  consistent := h.consistent
  count f hd := h.same hd (sameTruths_of_eq ⟨rfl, rfl, rfl⟩ rfl rfl)
  project op hd := (Decomposition.ends_project (h.consistent hd)).mono
    (fun _ _ he => ⟨h.restarted hd he, he.projection_isSome⟩) fun _ he => h.same hd he
  liftCell {d c} hd hc hleaf := by
    cases hp : d.projection with
    | none =>
      rw [Decomposition.liftCell]
      refine .bind (ends_get ?_)
      rw [hp]
      exact ends_pure ⟨hd, hp⟩
    | some p =>
      refine (Decomposition.ends_liftCell (h.consistent hd) (h.labelled hd) hp hc hleaf).mono
        (fun _ e he => ?_) fun _ he => h.same hd he
      obtain ⟨ids, he⟩ := he
      exact ⟨h.lifted hd hc hleaf he, by rw [he.task.projection, hp]⟩

namespace Kept

variable {P : Decomposition → Prop} (h : Kept P)

include h

theorem ends_project (hd : P d) : Ends (Decomposition.project op) d (fun _ => P) P :=
  (h.project op hd).mono (fun _ _ he => he.1) fun _ he => he

theorem ends_ensureProjected (hd : P d) :
    Ends ensureProjected d (fun _ e => P e ∧ e.projection.isSome = true) P := by
  rw [ensureProjected]
  refine .bind (ends_get ?_)
  cases hp : d.projection with
  | none => exact h.project _ hd
  | some p => exact ends_pure ⟨hd, by rw [hp]; rfl⟩

theorem ends_liftCell (hd : P d) (hc : d.tree.get? c.id = some c) (hleaf : c.children = none) :
    Ends (Decomposition.liftCell c) d (fun _ => P) P :=
  (h.liftCell hd hc hleaf).mono (fun _ _ he => he.1) fun _ he => he

theorem ends_withFallback {x again : DecompositionM Unit} {Q : Decomposition → Prop}
    (hx : Ends x d (fun _ => Q) P)
    (hagain : ∀ e, P e → e.projection.isSome = true → Ends again e (fun _ => Q) P) :
    Ends (withFallback x again) d (fun _ => Q) P := by
  refine ends_withFallback_of hx (fun _ he => he) fun err e _ _ he => ?_
  have hcount := h.count (fun s => { s with hongFallbacks := s.hongFallbacks + 1 }) he
  exact .bind ((h.project .hong hcount).mono (fun _ f hf => hagain f hf.1 hf.2) fun _ hf => hf)

theorem ends_liftAlong (path ks : List ℕ) (hd : P d) :
    Ends (liftAlong path ks) d (fun _ => P) P := by
  induction ks generalizing d with
  | nil => exact ends_pure hd
  | cons k ks ih =>
    rw [liftAlong]
    refine .bind (ends_get (.bind (ends_lift (fun i _ => ?_) fun _ _ => hd)))
    cases hc : d.tree.get? i with
    | none => exact .bind (ends_pure (ih hd))
    | some c =>
      have hid : d.tree.get? c.id = some c := by rw [(h.consistent hd).tree.id_eq hc, hc]
      simp only
      cases hleaf : c.children with
      | none =>
        rw [if_pos (by rw [Cell.isLifted, hleaf]; rfl)]
        exact .bind ((h.ends_liftCell hd hid hleaf).mono (fun _ _ he => ih he) fun _ he => he)
      | some ids =>
        rw [if_neg (by rw [Cell.isLifted, hleaf]; exact Bool.false_ne_true)]
        exact .bind (ends_pure (ih hd))

theorem ends_liftPath (path : List ℕ) (hd : P d) :
    Ends (liftPath path) d (fun _ => P) P := by
  rw [liftPath]
  refine .bind ((h.ends_ensureProjected hd).mono (fun _ e he => ?_) fun _ he => he)
  refine .bind (ends_get ?_)
  simp only
  split_ifs
  · exact .bind (ends_throw he.1)
  · exact h.ends_withFallback (h.ends_liftAlong _ _ he.1) fun _ hf _ => h.ends_liftAlong _ _ hf

variable (hpop : ∀ {d i is}, P d → d.worklist = i :: is → P { d with worklist := is })

include hpop

theorem ends_liftNext (hd : P d) (hp : d.projection.isSome = true) :
    Ends liftNext d (fun _ e => P e ∧ e.projection.isSome = true) P := by
  rw [liftNext]
  refine .bind (ends_get ?_)
  cases hw : d.worklist with
  | nil => exact ends_pure ⟨hd, hp⟩
  | cons i is =>
    have hd' := hpop hd hw
    refine .bind (ends_modify (.bind (ends_get ?_)))
    cases hc : d.tree.get? i with
    | none => exact ends_pure ⟨hd', hp⟩
    | some c =>
      have hid : d.tree.get? c.id = some c := by rw [(h.consistent hd).tree.id_eq hc, hc]
      simp only
      by_cases hdone : (c.isLifted || d.tree.isSettled i) = true
      · rw [if_pos hdone]
        exact .bind (ends_modify (ends_pure
          ⟨h.count (fun s => { s with cellsPruned := s.cellsPruned + 1 }) hd', hp⟩))
      · rw [if_neg hdone]
        rw [Bool.or_eq_true, not_or] at hdone
        have hleaf : c.children = none := Option.not_isSome_iff_eq_none.1 hdone.1
        refine .bind ((h.ends_withFallback ((h.liftCell hd' hid hleaf).mono (fun _ e he => ?_)
          fun _ he => he) fun e he hpe => ends_pure ⟨he, hpe⟩).mono
            (fun _ e he => ends_pure he) fun _ he => he)
        exact ⟨he.1, by rw [he.2]; exact hp⟩

theorem ends_liftUpTo (n : ℕ) (hd : P d) (hp : d.projection.isSome = true) :
    Ends (liftUpTo n) d (fun _ => P) P := by
  induction n generalizing d with
  | zero => exact ends_pure hd
  | succ n ih =>
    rw [liftUpTo]
    refine .bind ((h.ends_liftNext hpop hd hp).mono (fun b e he => ?_) fun _ he => he)
    cases b with
    | false => exact ends_pure he.1
    | true => exact ih he.1 he.2

theorem ends_liftAll (hd : P d) : Ends liftAll d (fun _ => P) P := by
  rw [liftAll]
  refine .bind ((h.ends_ensureProjected hd).mono (fun _ e he => ?_) fun _ he => he)
  exact .bind (ends_get (h.ends_liftUpTo hpop _ he.1 he.2))

end Kept

/-! ## Calls -/

theorem solve_eq_ok {b : Option Bool} (h : solve d = .ok b e) :
    liftAll d = .ok () e ∧ b = e.truth := by
  rw [solve] at h
  obtain ⟨⟨⟩, f, hlift, h⟩ := run_bind_eq_ok h
  obtain ⟨rfl, rfl⟩ := run_pure_eq_ok h
  exact ⟨hlift, rfl⟩

/-- A call on a decomposition. -/
inductive Call where
  | project (op : ProjectionOperator)
  | lift
  | liftPath (path : List ℕ)
  | solve

/-- What a call does, without its result. -/
def Call.run : Call → DecompositionM Unit
  | project op => Decomposition.project op
  | lift => liftAll
  | liftPath path => Decomposition.liftPath path
  | solve => discard Decomposition.solve

/-- The states that calls leave behind, those that fail included. -/
inductive Reachable (d : Decomposition) : Decomposition → Prop
  | refl : Reachable d d
  | step {e : Decomposition} (call : Call) : Reachable d e → Reachable d (stateAfter (call.run e))

variable {P : Decomposition → Prop}

theorem Kept.ends_run (h : Kept P)
    (hpop : ∀ {d i is}, P d → d.worklist = i :: is → P { d with worklist := is })
    (call : Call) (hd : P d) : Ends call.run d (fun _ => P) P := by
  cases call with
  | project op => exact h.ends_project hd
  | lift => exact h.ends_liftAll hpop hd
  | liftPath path => exact h.ends_liftPath path hd
  | solve =>
    refine ends_discard ?_
    rw [solve]
    exact .bind ((h.ends_liftAll hpop hd).mono (fun _ e he => .bind (ends_get (ends_pure he)))
      fun _ he => he)

/-- What every step keeps holds of all states that calls leave behind. -/
theorem Kept.of_reachable (h : Kept P)
    (hpop : ∀ {d i is}, P d → d.worklist = i :: is → P { d with worklist := is })
    (hd : P d) (he : Reachable d e) : P e := by
  induction he with
  | refl => exact hd
  | step call _ ih => exact (h.ends_run hpop call ih).stateAfter

/-! ## Sound states -/

/-- A state that calls leave behind: the tree belongs to the formula, and its cells are labelled. -/
structure Sound (cfg : Config) (p : Prenex) (d : Decomposition) : Prop where
  config : d.config = cfg
  formula : d.formula = p
  consistent : d.Consistent
  labelled : d.Labelled

variable {cfg : Config} {p : Prenex}

theorem stepwise_sound (cfg : Config) (p : Prenex) : Stepwise (Sound cfg p) where
  consistent h := h.consistent
  labelled h := h.labelled
  same h he := ⟨he.task.config.trans h.config, he.task.formula.trans h.formula,
    he.consistent h.consistent, he.labelled h.consistent h.labelled⟩
  lifted h _ _ he := ⟨he.task.config.trans h.config, he.task.formula.trans h.formula,
    he.consistent, he.labelled⟩
  restarted h he := ⟨he.config.trans h.config, he.formula.trans h.formula, he.consistent,
    he.labelled⟩

theorem kept_sound (cfg : Config) (p : Prenex) : Kept (Sound cfg p) := (stepwise_sound cfg p).kept

theorem Sound.pop (h : Sound cfg p d) (is : List ℕ) : Sound cfg p { d with worklist := is } :=
  ⟨h.config, h.formula, h.consistent.of_sameShape ⟨rfl, rfl, rfl⟩ (.refl _),
    fun j _ hb => h.labelled j hb⟩

theorem ofFormula_eq_ok {algebra : AlgebraSystem} {names : VariableTable} {f : Formula}
    (h : ofFormula cfg algebra names f = .ok d) : Prenex.ofFormula names f = .ok d.formula := by
  rw [ofFormula] at h
  split at h <;> cases h
  assumption

theorem sound_ofFormula {algebra : AlgebraSystem} {names : VariableTable} {f : Formula}
    (h : ofFormula cfg algebra names f = .ok d) : Sound cfg d.formula d := by
  rw [ofFormula] at h
  split at h
  · cases h
  · rename_i p hp
    cases h
    refine ⟨rfl, rfl, consistent_of_root (Prenex.isQuantifierFree_matrix hp) rfl nofun,
      fun i c hc => ?_⟩
    obtain ⟨rfl, rfl⟩ := CellTree.eq_of_get?_root hc
    rfl

theorem sound_of_reachable {algebra : AlgebraSystem} {names : VariableTable} {f : Formula}
    (h : ofFormula cfg algebra names f = .ok d) (he : Reachable d e) : Sound cfg d.formula e :=
  (kept_sound cfg d.formula).of_reachable (fun h _ => h.pop _) (sound_ofFormula h) he

end Decomposition

end Cylindrical
