import Mathlib
import Cylindrical.Proofs.Decomposition.Runs
import Cylindrical.Proofs.Lockstep

/-!
# Decompositions in lockstep

Two states are twins if they differ in counts and in the operator to begin with.  From twins,
lifting ends alike and leads to twins; a projection makes twins of states that have the same task,
since it replaces the tree and the worklist.
-/

namespace Cylindrical

namespace Decomposition

variable {d e : Decomposition}

/-! ## Twins -/

/-- The states have the same task, but for the operator to begin with. -/
structure Kin (d e : Decomposition) : Prop where
  config : e.config = { d.config with operator := e.config.operator }
  formula : e.formula = d.formula
  settings : SameSettings d.algebra e.algebra

/-- The states differ in counts and in the operator to begin with. -/
structure Twins (d e : Decomposition) : Prop extends Kin d e where
  projection : e.projection = d.projection
  tree : e.tree = d.tree
  worklist : e.worklist = d.worklist

/-- The settings of the algebra, and how often the operator has been changed. -/
def mark (d : Decomposition) : Groebner.Config × ℕ := (d.algebra.groebner, d.stats.hongFallbacks)

theorem Kin.refl (d : Decomposition) : Kin d d := ⟨rfl, rfl, rfl⟩

theorem Twins.refl (d : Decomposition) : Twins d d := ⟨.refl d, rfl, rfl, rfl⟩

theorem Kin.size (h : Kin d e) : e.size = d.size := congrArg Prenex.size h.formula

theorem Twins.matrixTruth?_eq (h : Twins d e) (i : ℕ) : e.matrixTruth? i = d.matrixTruth? i := by
  rw [matrixTruth?, matrixTruth?, h.projection, h.formula, h.tree]

theorem Twins.stackTruth?_eq (h : Twins d e) (c : Cell) : e.stackTruth? c = d.stackTruth? c := by
  have hshort : e.config.shortCircuit = d.config.shortCircuit :=
    congrArg (·.shortCircuit) h.config
  rw [stackTruth?, stackTruth?, hshort, quantifier, quantifier, h.formula, h.tree]

/-- Runs from twins end with twins; neither changes the projection, the settings or the number of
changes of the operator. -/
abbrev Steady {α : Type} (x : DecompositionM α) : Prop :=
  Lockstep Twins (fun d => (d.projection, d.mark)) x

theorem steady_modify {g : Decomposition → Decomposition}
    (hg : ∀ d e, Twins d e → Twins (g d) (g e))
    (hkey : ∀ d, (g d).projection = d.projection ∧ (g d).mark = d.mark) : Steady (modify g) :=
  .update hg fun d => Prod.ext (hkey d).1 (hkey d).2

theorem steady_setTree (f : CellTree → CellTree) :
    Steady (modify fun d => { d with tree := f d.tree }) :=
  steady_modify (fun _ _ h => ⟨⟨h.config, h.formula, h.settings⟩, h.projection, by rw [h.tree],
    h.worklist⟩) fun _ => ⟨rfl, rfl⟩

theorem steady_setWorklist (f : CellTree → List ℕ → List ℕ) :
    Steady (modify fun d => { d with worklist := f d.tree d.worklist }) :=
  steady_modify (fun _ _ h => ⟨⟨h.config, h.formula, h.settings⟩, h.projection, h.tree,
    by rw [h.tree, h.worklist]⟩) fun _ => ⟨rfl, rfl⟩

theorem steady_count {f : Stats → Stats} (hf : ∀ s, (f s).hongFallbacks = s.hongFallbacks) :
    Steady (count f) :=
  steady_modify (fun _ _ h => ⟨⟨h.config, h.formula, h.settings⟩, h.projection, h.tree,
    h.worklist⟩) fun d => ⟨rfl, congrArg (Prod.mk _) (hf d.stats)⟩

/-! ## Lifting in lockstep -/

theorem steady_evaluate (i : ℕ) : Steady (evaluate i) := by
  rw [evaluate]
  refine .read (fun d => ?_) fun d e h => by
    simp only [h.matrixTruth?_eq, h.tree, h.size]
  have hset := steady_setTree (·.setTruth i (d.matrixTruth? i))
  simp only
  split_ifs
  · exact .bind (.throw _) fun _ => .bind hset fun _ => .pure _
  · exact .bind hset fun _ => .pure _

theorem steady_propagate (is : List ℕ) : Steady (propagate is) := by
  induction is with
  | nil => exact .pure _
  | cons i is ih =>
    rw [propagate]
    refine .read (fun d => ?_) fun d e h => by simp only [h.tree, h.stackTruth?_eq]
    cases d.tree.get? i with
    | none => exact .pure _
    | some c =>
      simp only
      split_ifs
      · exact .pure _
      · cases d.stackTruth? c with
        | none => exact .pure _
        | some b =>
          exact .bind (steady_count fun _ => rfl) fun _ =>
            .bind (steady_setTree (·.setTruth i (some b))) fun _ => ih

theorem steady_buildStack (q : Projection) (c : Cell) : Steady (buildStack q c) := by
  rw [buildStack]
  refine .read (fun d => ?_) fun d e h => by
    have hlifting : e.config.lifting = d.config.lifting := congrArg (·.lifting) h.config
    have hzero : e.config.zeroTest = d.config.zeroTest := congrArg (·.zeroTest) h.config
    simp only [h.tree, hlifting, hzero]
  refine .focus (fun s t h => Lockstep.bind (Stack.pushRule_lockstep.cells (fun _ => trivial) _
    ((s.zeroStats.replacements : ℤ) - t.zeroStats.replacements)) (fun stack => .read
      (fun s => .pure _) fun s t h => by rw [h.point]) ⟨h.settings, ?_, rfl⟩)
    fun s t s' t' h h' => ⟨⟨⟨h.config, h.formula, h'.rel.settings⟩, h.projection, h.tree,
      h.worklist⟩, ?_, ?_⟩
  · simp only [h.tree]
  · exact congrArg (fun g => (s.projection, g, s.stats.hongFallbacks)) h'.left
  · exact congrArg (fun g => (t.projection, g, t.stats.hongFallbacks)) h'.right

theorem steady_liftCell (c : Cell) : Steady (liftCell c) := by
  rw [liftCell]
  refine .read (fun d => ?_) fun d e h => by rw [h.projection]
  cases d.projection with
  | none => exact .pure _
  | some q =>
    refine .bind (steady_buildStack q.1 c) fun r =>
      .bind (steady_setTree (·.replaceCoords c.id r.2)) fun _ => ?_
    refine .read (fun d => ?_) fun d e h => by rw [h.tree]
    refine .bind ((Lockstep.composable _ _ fun _ => True).lift (Q := fun _ => True)
      (fun _ _ => trivial) fun _ _ => trivial) fun r => ?_
    refine .bind (steady_setTree fun _ => r.2) fun _ =>
      .bind (steady_count fun _ => rfl) fun _ => ?_
    refine .bind ((Lockstep.composable _ _ fun _ => True).forM fun i =>
      (Lockstep.composable _ _ fun _ => True).map (steady_evaluate i)) fun _ => ?_
    refine .read (fun d => .bind (steady_propagate _) fun _ => ?_) fun d e h => by rw [h.tree]
    refine .read (fun d => ?_) fun d e h => by simp only [h.tree, h.size]
    split_ifs
    · exact steady_setWorklist fun t is => undecided t r.1 ++ is
    · exact .pure _

/-! ## Projection -/

/-- From kin, a projection leads to twins or fails alike; it keeps the mark. -/
theorem sameEnd_project (op : ProjectionOperator) (h : Kin d e) :
    SameEnd (fun d' e' => Twins d' e' ∧ d'.mark = d.mark ∧ e'.mark = e.mark)
      (fun d' e' => d'.mark = d.mark ∧ e'.mark = e.mark) (project op d) (project op e) := by
  have hroot : Steady (do
      if (← evaluate 0).isNone then modify fun d => { d with worklist := [0] } :
        DecompositionM Unit) := .bind (steady_evaluate 0) fun t => by
    split_ifs
    · exact steady_setWorklist fun _ _ => [0]
    · exact .pure _
  rw [project, run_get_bind, run_get_bind, h.formula, h.size]
  refine SameEnd.bind (Q := fun d' e' => Kin d' e' ∧ d'.mark = d.mark ∧ e'.mark = e.mark) ?_
    fun r d' e' hr => ?_
  · rw [focus, focus]
    have hp := Projection.lockstep_project op true d.formula.atoms d.size
      (s := ⟨d.algebra, d.projectionStats⟩) (t := ⟨e.algebra, e.projectionStats⟩) h.settings
    revert hp
    generalize Projection.project op true d.formula.atoms d.size ⟨d.algebra, d.projectionStats⟩ = u,
      Projection.project op true d.formula.atoms d.size ⟨e.algebra, e.projectionStats⟩ = v
    intro hp
    cases hp with
    | ok h' => exact .ok ⟨⟨h.config, h.formula, h'.rel⟩,
        congrArg (Prod.mk · d.stats.hongFallbacks) h'.left,
        congrArg (Prod.mk · e.stats.hongFallbacks) h'.right⟩
    | error h' => exact .error ⟨congrArg (Prod.mk · d.stats.hongFallbacks) h'.left,
        congrArg (Prod.mk · e.stats.hongFallbacks) h'.right⟩
  · obtain ⟨hkin, hd, he⟩ := hr
    have hmaxCells : e'.config.maxCells = d'.config.maxCells := congrArg (·.maxCells) hkin.config
    simp only [count, run_modify_bind]
    refine SameEnd.mono (hroot ?_) (fun s t hst => ⟨hst.rel, ?_, ?_⟩) fun s t hst => ⟨?_, ?_⟩
    · refine ⟨⟨hkin.config, hkin.formula, hkin.settings⟩, rfl, ?_, rfl⟩
      simp only [hmaxCells, size, hkin.formula]
    · exact (Prod.mk.inj hst.left).2.trans hd
    · exact (Prod.mk.inj hst.right).2.trans he
    · exact (Prod.mk.inj hst.left).2.trans hd
    · exact (Prod.mk.inj hst.right).2.trans he

theorem ends_project_mark (op : ProjectionOperator) (d : Decomposition) :
    Ends (project op) d (fun _ e => e.mark = d.mark) fun e => e.mark = d.mark := by
  have h := sameEnd_project op (Kin.refl d)
  rw [Ends]
  revert h
  generalize project op d = u
  intro h
  cases h with
  | ok h => exact h.2.1
  | error h => exact h.1

/-! ## Lifting with Hong's operator -/

/-- A projection, if there is one, is by Hong's operator. -/
def HongOnly (d : Decomposition) : Prop := ∀ q ∈ d.projection, q.1.operator = .hong

/-- Twins with a projection by Hong's operator. -/
structure HongTwins (d e : Decomposition) : Prop extends Twins d e where
  left : HongOnly d

theorem HongTwins.right (h : HongTwins d e) : HongOnly e := fun q hq =>
  h.left q (h.projection ▸ hq)

theorem HongOnly.fallsBack (h : d.HongOnly) (err : DecompositionError) :
    d.fallsBack err = false := by
  rw [Bool.eq_false_iff]
  intro hback
  obtain ⟨q, links, hq, hop⟩ := projectedBy_of_fallsBack hback
  cases (h _ hq).symm.trans hop

/-- Runs from twins with a projection by Hong's operator end with such twins. -/
abbrev HongSteady {α : Type} (x : DecompositionM α) : Prop := Lockstep HongTwins (fun _ => ()) x

theorem hongSteady_withFallback {x again : DecompositionM Unit} (hx : Steady x) :
    HongSteady (withFallback x again) := fun s t h => by
  have hrun := hx h.toTwins
  have hafter : ∀ {s' t'}, Along Twins (fun d => (d.projection, d.mark)) s t s' t' →
      HongTwins s' t' := fun h' => ⟨h'.rel, by
    rw [HongOnly, (Prod.mk.inj h'.left).1]
    exact h.left⟩
  rw [withFallback, withFallback]
  revert hrun
  generalize x s = u, x t = v
  intro hrun
  cases hrun with
  | ok h' => exact .ok ⟨hafter h', rfl, rfl⟩
  | error h' =>
    have h' := hafter h'
    simp only [h'.left.fallsBack, h'.right.fallsBack]
    exact .error ⟨h', rfl, rfl⟩

theorem hongSteady_liftNext : HongSteady liftNext := by
  have hmodify : ∀ {g : Decomposition → Decomposition}, (∀ d e, Twins d e → Twins (g d) (g e)) →
      (∀ d, (g d).projection = d.projection) → HongSteady (modify g) := fun hg hp =>
    .update (fun d e h => ⟨hg d e h.toTwins, by
      rw [HongOnly, hp]
      exact h.left⟩) fun _ => rfl
  rw [liftNext]
  refine .read (fun d => ?_) fun d e h => by rw [h.worklist]
  cases d.worklist with
  | nil => exact .pure _
  | cons i is =>
    refine .bind (hmodify (fun d e h => ⟨⟨h.config, h.formula, h.settings⟩, h.projection, h.tree,
      rfl⟩) fun _ => rfl) fun _ => .read (fun d => ?_) fun d e h => by simp only [h.tree]
    cases d.tree.get? i with
    | none => exact .pure _
    | some c =>
      simp only
      split_ifs
      · exact .bind (hmodify (fun d e h => ⟨⟨h.config, h.formula, h.settings⟩, h.projection,
          h.tree, h.worklist⟩) fun _ => rfl) fun _ => .pure _
      · exact .bind (hongSteady_withFallback (steady_liftCell c)) fun _ => .pure _

theorem hongSteady_liftUpTo (n : ℕ) : HongSteady (liftUpTo n) := by
  induction n with
  | zero => exact .pure _
  | succ n ih =>
    rw [liftUpTo]
    refine .bind hongSteady_liftNext fun b => ?_
    split_ifs
    · exact ih
    · exact .pure _

end Decomposition

end Cylindrical
