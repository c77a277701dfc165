import Mathlib
import Cylindrical.Proofs.CellOrder
import Cylindrical.Proofs.Decomposition.Runs

/-!
# Order of siblings

Every state that calls leave behind has an ordered tree.  The stack over a cell is built on a copy
of its sample point; the copy shrinks, and its changes are adopted before the stack is added.
-/

namespace Cylindrical

namespace Decomposition

variable {cfg : Config} {q : Prenex} {d e : Decomposition} {c : Cell} {p : Projection}
  {op : ProjectionOperator} {i : ℕ}

/-! ## Truths -/

/-- The evaluation of a cell keeps the order, since it changes a truth alone. -/
theorem ends_evaluate_ordered (h : d.tree.Ordered) :
    Ends (evaluate i) d (fun _ e => e.tree.Ordered) (·.tree.Ordered) := by
  rw [evaluate]
  refine .bind (ends_get ?_)
  simp only
  split_ifs
  · exact .bind (ends_throw h)
  · exact .bind (ends_modify (ends_pure (h.of_shrinks (d.tree.shrinks_setTruth ..))))

theorem ends_evaluateAll_ordered (ids : List ℕ) (h : d.tree.Ordered) :
    Ends (ids.forM fun i => discard (evaluate i)) d (fun _ e => e.tree.Ordered)
      (·.tree.Ordered) := by
  induction ids generalizing d with
  | nil => exact ends_pure h
  | cons i ids ih =>
    exact .bind ((ends_discard (ends_evaluate_ordered h)).mono (fun _ e he => ih he)
      fun _ he => he)

theorem ends_propagate_ordered (ids : List ℕ) (h : d.tree.Ordered) :
    Ends (propagate ids) d (fun _ e => e.tree.Ordered) (·.tree.Ordered) := by
  induction ids generalizing d with
  | nil => exact ends_pure h
  | cons i ids ih =>
    rw [propagate]
    refine .bind (ends_get ?_)
    cases d.tree.get? i with
    | none => exact ends_pure h
    | some c =>
      simp only
      split_ifs
      · exact ends_pure h
      · cases d.stackTruth? c with
        | none => exact ends_pure h
        | some b =>
          exact .bind (ends_modify (.bind (ends_modify
            (ih (h.of_shrinks (d.tree.shrinks_setTruth ..))))))

/-! ## Steps -/

/-- The stack alternates, and the changes of the sample point make enclosures shrink. -/
theorem ends_buildStack_ordered (h : d.tree.Ordered) (ht : d.tree.WellFormed)
    (hc : d.tree.get? c.id = some c) :
    Ends (buildStack p c) d
      (fun r e => e.tree = d.tree ∧ Stack.Alternates r.1 ∧
        (d.tree.replaceCoords c.id r.2).Shrinks d.tree)
      fun e => e.tree = d.tree := by
  rw [buildStack]
  refine .bind (ends_get (ends_focus (fun r t hr => ⟨rfl, ?_⟩) fun _ _ _ => rfl))
  obtain ⟨stack, s, hstack, hr⟩ := run_bind_eq_ok hr
  rw [run_get_bind] at hr
  obtain ⟨rfl, -⟩ := run_pure_eq_ok hr
  obtain ⟨hs, halternates⟩ := Stack.cells_yields _ _ stack s (h.proper_sample ht hc) hstack
  exact ⟨halternates, h.shrinks_changes ht hc hs⟩

theorem ends_liftCell_ordered (h : d.tree.Ordered) (ht : d.tree.WellFormed)
    (hc : d.tree.get? c.id = some c) :
    Ends (liftCell c) d (fun _ e => e.tree.Ordered) (·.tree.Ordered) := by
  rw [liftCell]
  refine .bind (ends_get ?_)
  cases d.projection with
  | none => exact ends_pure h
  | some p =>
    refine .bind ((ends_buildStack_ordered h ht hc).mono (fun r d₁ hr => ?_)
      fun e he => he.symm ▸ h)
    obtain ⟨htree, halternates, hshrinks⟩ := hr
    have hwf := hshrinks.wellFormed ht
    have hordered := h.of_shrinks hshrinks
    obtain ⟨c₂, hc₂, hstem, -⟩ := hshrinks.exists_get? hc
    have hid : c₂.id = c.id := Cell.id_of_stem hstem
    rw [← htree] at hwf hordered hc₂
    refine .bind (ends_modify (.bind (ends_get (.bind (ends_lift (fun s hs => ?_)
      fun _ _ => hordered)))))
    rw [← hid] at hs hc₂
    have hstacks := CellTree.stacks_of_addChildren hc₂ hs
    rw [hid] at hstacks
    refine .bind (ends_modify (.bind (ends_modify ?_)))
    refine .bind ((ends_evaluateAll_ordered _ (hordered.of_stacks hwf hstacks halternates)).mono
      (fun _ f hf => ?_) fun _ hf => hf)
    refine .bind (ends_get (.bind ((ends_propagate_ordered _ hf).mono (fun _ g hg => ?_)
      fun _ hg => hg)))
    refine .bind (ends_get ?_)
    split_ifs
    · exact ends_modify hg
    · exact ends_pure hg

theorem ends_project_ordered (h : d.tree.Ordered) :
    Ends (project op) d (fun _ e => e.tree.Ordered) (·.tree.Ordered) := by
  rw [project]
  refine .bind (ends_get (.bind (ends_focus (fun r s _ => ?_) fun _ _ _ => h)))
  refine .bind (ends_modify (.bind (ends_modify ?_)))
  refine .bind ((ends_evaluate_ordered (CellTree.ordered_root ..)).mono (fun t e he => ?_)
    fun _ he => he)
  split_ifs
  · exact ends_modify he
  · exact ends_pure he

/-! ## Runs -/

/-- A sound state with an ordered tree. -/
structure SoundOrder (cfg : Config) (q : Prenex) (d : Decomposition) : Prop extends
    Sound cfg q d where
  ordered : d.tree.Ordered

theorem kept_soundOrder (cfg : Config) (q : Prenex) : Kept (SoundOrder cfg q) where
  consistent h := h.consistent
  count f h := ⟨(kept_sound cfg q).count f h.toSound, h.ordered⟩
  project op h := (((kept_sound cfg q).project op h.toSound).and
    (ends_project_ordered h.ordered)).mono (fun _ _ he => ⟨⟨he.1.1, he.2⟩, he.1.2⟩)
      fun _ he => ⟨he.1, he.2⟩
  liftCell h hc hleaf := (((kept_sound cfg q).liftCell h.toSound hc hleaf).and
    (ends_liftCell_ordered h.ordered h.consistent.tree hc)).mono
      (fun _ _ he => ⟨⟨he.1.1, he.2⟩, he.1.2⟩) fun _ he => ⟨he.1, he.2⟩

theorem soundOrder_of_reachable {algebra : AlgebraSystem} {names : VariableTable} {f : Formula}
    (h : ofFormula cfg algebra names f = .ok d) (he : Reachable d e) :
    SoundOrder cfg d.formula e := by
  refine (kept_soundOrder cfg d.formula).of_reachable (fun hd _ => ⟨hd.toSound.pop _, hd.ordered⟩)
    ⟨sound_ofFormula h, ?_⟩ he
  rw [ofFormula] at h
  split at h
  · cases h
  · cases h
    exact CellTree.ordered_root ..

/-- Whatever calls have been made, and whether they have succeeded, the cells of the stack over a
lifted cell are sectors and sections in turn.  The numbers that their coordinates denote increase,
as all numbers do that their enclosures leave possible, and of two enclosures the upper end of the
left one is at most the lower end of the right one. -/
theorem stack_ascends_of_reachable {algebra : AlgebraSystem} {names : VariableTable} {f : Formula}
    {ids : List ℕ} (h : ofFormula cfg algebra names f = .ok d) (he : Reachable d e)
    (hc : e.tree.get? i = some c) (hids : c.children = some ids) :
    ∃ bs, List.Forall₂ (fun i b => e.tree.get? i = some b) ids bs ∧ CellTree.Ascending bs := by
  have hsound := soundOrder_of_reachable h he
  exact hsound.ordered.ascending hsound.consistent.tree hc hids

/-- The cells over the root for `x ^ 2 = 2` and `x < y`, after a call that fails and one that lifts
the sector between the roots of two. -/
theorem stack_ascends_of_reachable_sqrtTwo : ∃ (d e : Decomposition) (c : Cell),
    ofFormula {} {} (.ofNames ["x", "y"]) (.quantified .exists [0, 1]
      (.and [.atom (.ofPower 0 2 - .const 2) .eq, .atom (.var 1 - .var 0) .gt])) = .ok d ∧
    Reachable d e ∧ e.tree.get? 0 = some c ∧ c.children = some [1, 2, 3, 4, 5] ∧
    ∃ bs, List.Forall₂ (fun i b => e.tree.get? i = some b) [1, 2, 3, 4, 5] bs ∧
      CellTree.Ascending bs := by
  have hrun : ((ofFormula {} {} (.ofNames ["x", "y"]) (.quantified .exists [0, 1]
      (.and [.atom (.ofPower 0 2 - .const 2) .eq,
        .atom (.var 1 - .var 0) .gt]))).toOption.bind fun d =>
      ((stateAfter ((Call.liftPath [2]).run (stateAfter ((Call.liftPath [5]).run d)))).tree.get?
        0).bind (·.children)) = some [1, 2, 3, 4, 5] := by decide +kernel
  obtain ⟨d, hd, hrun⟩ := Option.bind_eq_some_iff.1 hrun
  obtain ⟨c, hc, hids⟩ := Option.bind_eq_some_iff.1 hrun
  have he := Reachable.step (.liftPath [2]) (.step (.liftPath [5]) (.refl (d := d)))
  exact ⟨d, _, c, ok_of_toOption hd, he, hc, hids,
    stack_ascends_of_reachable (ok_of_toOption hd) he hc hids⟩

end Decomposition

end Cylindrical
