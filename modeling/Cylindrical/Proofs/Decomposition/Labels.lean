import Mathlib
import Cylindrical.Proofs.Decomposition.Consistent

/-!
# Labels of cells

On every cell the truth is that of the matrix, if the matrix is decided, and otherwise what follows
from the stack over the cell.  New cells are evaluated, and their parent and its ancestors are
decided from their stacks as far as they are open, which keeps this.
-/

namespace Cylindrical

namespace Decomposition

variable {d e : Decomposition} {i j : ℕ} {c : Cell} {ids : List ℕ}

/-- The truth of a cell is that of the matrix, or else that of the stack over it. -/
def LabelledAt (d : Decomposition) (i : ℕ) : Prop :=
  ∀ {c}, d.tree.get? i = some c → c.truth = (d.matrixTruth? i).or (d.stackTruth? c)

def Labelled (d : Decomposition) : Prop := ∀ i, d.LabelledAt i

/-- The truth of a cell is that of the matrix; that of the stack over it may not be stored yet. -/
structure PartlyLabelledAt (d : Decomposition) (i : ℕ) : Prop where
  of_some : ∀ {c b}, d.tree.get? i = some c → c.truth = some b →
    (d.matrixTruth? i).or (d.stackTruth? c) = some b
  of_none : ∀ {c}, d.tree.get? i = some c → c.truth = none → d.matrixTruth? i = none

theorem LabelledAt.partly (h : d.LabelledAt i) : d.PartlyLabelledAt i where
  of_some hc hb := (h hc).symm.trans hb
  of_none hc hb := (Option.or_eq_none_iff.1 ((h hc).symm.trans hb)).1

/-! ## Truth from the stack -/

theorem stackTruth?_of_leaf (h : c.children = none) : d.stackTruth? c = none := by
  rw [stackTruth?, h]
  rfl

theorem stackTruth?_of_children (h : c.children = some ids) : d.stackTruth? c =
    truthFrom d.config.shortCircuit (d.quantifier c.depth) (ids.map d.tree.truthOf) := by
  rw [stackTruth?, h]
  rfl

/-- The truth from the stack hangs on the truths of its cells alone. -/
theorem SameTask.stackTruth?_congr {b : Cell} (h : SameTask d e) (hstem : c.stem = b.stem)
    (hchildren : c.children = b.children)
    (htruth : ∀ ids, b.children = some ids → ∀ j ∈ ids, e.tree.truthOf j = d.tree.truthOf j) :
    e.stackTruth? c = d.stackTruth? b := by
  cases hb : b.children with
  | none => rw [stackTruth?_of_leaf hb, stackTruth?_of_leaf (hchildren.trans hb)]
  | some ids =>
    rw [stackTruth?_of_children hb, stackTruth?_of_children (hchildren.trans hb), h.config,
      h.quantifier, Cell.depth_of_stem hstem, List.map_congr_left (htruth ids hb)]

/-- The truth from the stack stays when more of its cells are decided. -/
theorem SameTask.stackTruth?_mono {b : Cell} {v : Bool} (h : SameTask d e)
    (hstem : c.stem = b.stem) (hchildren : c.children = b.children)
    (hgrows : d.tree.TruthGrows e.tree) (hv : d.stackTruth? b = some v) :
    e.stackTruth? c = some v := by
  cases hb : b.children with
  | none =>
    rw [stackTruth?_of_leaf hb] at hv
    cases hv
  | some ids =>
    rw [stackTruth?_of_children hb] at hv
    rw [stackTruth?_of_children (hchildren.trans hb), h.config, h.quantifier,
      Cell.depth_of_stem hstem]
    refine truthFrom_mono _ ?_ hv
    exact List.forall₂_map_left_iff.2 (List.forall₂_map_right_iff.2
      (List.forall₂_same.2 fun j _ v hj => hgrows hj))

theorem Labelled.of_sameShape (h : d.Labelled) (hd : d.Consistent) (he : SameTask d e)
    (hs : d.tree.SameShape e.tree) (htruth : ∀ j, e.tree.truthOf j = d.tree.truthOf j) :
    e.Labelled := fun i c hc => by
  obtain ⟨b, hb, hstem, hchildren⟩ := hs.symm.exists_get? hc
  have htrees : c.truth = b.truth := by
    rw [← CellTree.truthOf_eq hc, ← CellTree.truthOf_eq hb, htruth]
  rw [htrees, h i hb, he.matrixTruth?_eq hd.tree (hs.wellFormed hd.tree) hs.extends hb,
    he.stackTruth?_congr hstem.symm hchildren.symm fun _ _ j _ => htruth j]

/-! ## Evaluation of new cells -/

theorem ends_evaluate {Q : Option Bool → Decomposition → Prop} {E : Decomposition → Prop}
    (h : d.Consistent) (hp : d.projection.isSome = true) (hc : d.tree.get? i = some c)
    (hQ : Q (d.matrixTruth? i) { d with tree := d.tree.setTruth i (d.matrixTruth? i) }) :
    Ends (evaluate i) d Q E := by
  rw [evaluate]
  refine .bind (ends_get ?_)
  have hdecided : ¬((d.matrixTruth? i).isNone &&
      decide (((d.tree.get? i).map (·.depth)).getD 0 = d.size)) = true := fun hnone => by
    rw [Bool.and_eq_true, decide_eq_true_eq, hc] at hnone
    have hsome := h.matrixTruth?_isSome hp hc hnone.2
    rw [← Option.not_isNone, hnone.1] at hsome
    cases hsome
  simp only [hdecided, Bool.false_eq_true, if_false]
  exact .bind (ends_modify (ends_pure hQ))

/-- The states differ in counts, coordinates and truths only. -/
structure SameCells (d e : Decomposition) : Prop where
  task : SameTask d e
  shape : d.tree.SameShape e.tree
  worklist : e.worklist = d.worklist

theorem SameCells.refl (d : Decomposition) : SameCells d d := ⟨.refl d, .refl _, rfl⟩

theorem SameCells.trans {f : Decomposition} (h₁ : SameCells d e) (h₂ : SameCells e f) :
    SameCells d f :=
  ⟨h₁.task.trans h₂.task, h₁.shape.trans h₂.shape, h₂.worklist.trans h₁.worklist⟩

theorem SameCells.setTruth (d : Decomposition) (i : ℕ) (v : Option Bool) :
    SameCells d { d with tree := d.tree.setTruth i v } :=
  ⟨⟨rfl, rfl, rfl⟩, CellTree.sameShape_setTruth .., rfl⟩

theorem SameCells.matrixTruth?_eq (h : SameCells d e) (hd : d.Consistent)
    (hc : d.tree.get? i = some c) : e.matrixTruth? i = d.matrixTruth? i :=
  h.task.matrixTruth?_eq hd.tree (h.shape.wellFormed hd.tree) h.shape.extends hc

theorem ends_evaluateAll {Q : PUnit → Decomposition → Prop} {E : Decomposition → Prop}
    (h : d.Consistent) (hp : d.projection.isSome = true)
    (hids : ∀ i ∈ ids, ∃ c, d.tree.get? i = some c)
    (hQ : ∀ e, SameCells d e → (∀ j ∈ ids, e.tree.truthOf j = d.matrixTruth? j) →
      (∀ j ∉ ids, e.tree.truthOf j = d.tree.truthOf j) → Q ⟨⟩ e) :
    Ends (ids.forM fun i => discard (evaluate i)) d Q E := by
  induction ids generalizing d with
  | nil => exact ends_pure (hQ d (.refl d) nofun fun _ _ => rfl)
  | cons i ids ih =>
    obtain ⟨c, hc⟩ := hids i (.head _)
    rw [List.forM]
    refine .bind (ends_discard (ends_evaluate h hp hc ?_))
    have hset := SameCells.setTruth d i (d.matrixTruth? i)
    refine ih (h.of_sameShape hset.task hset.shape) hp (fun j hj => ?_) fun e he hin hout => ?_
    · obtain ⟨b, hb⟩ := hids j (.tail _ hj)
      obtain ⟨b', hb', -⟩ := hset.shape.exists_get? hb
      exact ⟨b', hb'⟩
    · refine hQ e (hset.trans he) (fun j hj => ?_) fun j hj => ?_
      · by_cases hjs : j ∈ ids
        · obtain ⟨b, hb⟩ := hids j hj
          rw [hin j hjs, hset.matrixTruth?_eq h hb]
        · obtain rfl := (List.mem_cons.1 hj).resolve_right hjs
          rw [hout j hjs, CellTree.truthOf_setTruth_self hc]
      · rw [hout j fun hjs => hj (.tail _ hjs),
          CellTree.truthOf_setTruth_of_ne fun hij : i = j => hj (hij ▸ .head _)]

/-! ## Propagation -/

/-- Storing the truth that follows from its stack labels a cell, and leaves all cells labelled but
its parent. -/
theorem SameCells.labelled_setTruth {v : Bool} (hs : SameCells d e)
    (he : e.tree = d.tree.setTruth i (some v)) (h : d.Consistent) (hc : d.tree.get? i = some c)
    (hi : d.PartlyLabelledAt i) (hothers : ∀ j, j ≠ i → d.LabelledAt j) (hnone : c.truth = none)
    (hv : d.stackTruth? c = some v) :
    d.tree.TruthGrows e.tree ∧ (∀ p, c.parent = some p → e.PartlyLabelledAt p) ∧
      ∀ j, c.parent ≠ some j → e.LabelledAt j := by
  have hself : e.tree.truthOf i = some v := by rw [he, CellTree.truthOf_setTruth_self hc]
  have hother : ∀ {j}, j ≠ i → e.tree.truthOf j = d.tree.truthOf j := fun hj => by
    rw [he, CellTree.truthOf_setTruth_of_ne (Ne.symm hj)]
  have hgrows : d.tree.TruthGrows e.tree := fun {j w} hw => by
    by_cases hj : j = i
    · rw [hj, CellTree.truthOf_eq hc, hnone] at hw
      cases hw
    · rw [hother hj, hw]
  refine ⟨hgrows, fun p hp => ⟨fun {b w} hb hw => ?_, fun {b} hb hw => ?_⟩, fun j hj b hb => ?_⟩
  · obtain ⟨a, ha, hstem, hchildren⟩ := hs.shape.symm.exists_get? hb
    have hpi : p ≠ i := fun hpi => by
      obtain ⟨b, ids, hb, -, -, hdepth⟩ := h.tree.parent_some hc hp
      rw [hpi, hc] at hb
      obtain rfl := Option.some.inj hb
      omega
    have hold := hother hpi
    rw [CellTree.truthOf_eq hb, CellTree.truthOf_eq ha, hw] at hold
    have hlabel := (hothers p hpi ha).symm.trans hold.symm
    rw [hs.matrixTruth?_eq h ha]
    rcases Option.or_eq_some_iff.1 hlabel with hm | ⟨hm, hstack⟩
    · rw [hm, Option.some_or]
    · rw [hm, Option.none_or]
      exact hs.task.stackTruth?_mono hstem.symm hchildren.symm hgrows hstack
  · obtain ⟨a, ha, -⟩ := hs.shape.symm.exists_get? hb
    have hpi : p ≠ i := fun hpi => by
      rw [← hpi, CellTree.truthOf_eq hb, hw] at hself
      cases hself
    have hold := hother hpi
    rw [CellTree.truthOf_eq hb, CellTree.truthOf_eq ha, hw] at hold
    rw [hs.matrixTruth?_eq h ha]
    have hlabel : d.LabelledAt p := hothers p hpi
    exact hlabel.partly.of_none ha hold.symm
  · obtain ⟨a, ha, hstem, hchildren⟩ := hs.shape.symm.exists_get? hb
    have hstack : e.stackTruth? b = d.stackTruth? a :=
      hs.task.stackTruth?_congr hstem.symm hchildren.symm fun ids hids k hk => by
        refine hother fun hki => hj ?_
        obtain ⟨n, hn⟩ := List.getElem?_of_mem hk
        obtain ⟨b', hb', hparent, -⟩ := h.tree.child ha hids hn
        rw [hki, hc] at hb'
        rw [Option.some.inj hb', hparent]
    rw [hs.matrixTruth?_eq h ha, hstack, ← CellTree.truthOf_eq hb]
    by_cases hji : j = i
    · subst hji
      obtain rfl := Option.some.inj (ha.symm.trans hc)
      rw [hself, hi.of_none hc hnone, hv, Option.none_or]
    · rw [hother hji, CellTree.truthOf_eq ha, hothers j hji ha]

/-- Propagation from a cell labels it and its ancestors. -/
theorem ends_propagate {Q : Unit → Decomposition → Prop} {E : Decomposition → Prop}
    (h : d.Consistent) (hc : d.tree.get? i = some c) (hi : d.PartlyLabelledAt i)
    (hothers : ∀ j, j ≠ i → d.LabelledAt j) (hids : ids = (d.tree.lineage i).map (·.id))
    (hQ : ∀ e, SameCells d e → d.tree.TruthGrows e.tree → e.Labelled → Q () e) :
    Ends (propagate ids) d Q E := by
  -- along the ancestors; the last cell of the way has no parent that could be left open
  induction ids generalizing d i c with
  | nil =>
    rw [CellTree.lineage_eq h.tree.parented hc] at hids
    cases hids
  | cons id ids ih =>
    rw [CellTree.lineage_eq h.tree.parented hc, List.map_cons, h.tree.id_eq hc] at hids
    obtain ⟨rfl, hrest⟩ := List.cons.inj hids
    have hlabelled : c.truth = (d.matrixTruth? id).or (d.stackTruth? c) → d.Labelled :=
      fun hlabel j b hb => by
        by_cases hj : j = id
        · subst hj
          rw [hc] at hb
          obtain rfl := Option.some.inj hb
          exact hlabel
        · exact hothers j hj hb
    rw [propagate]
    refine .bind (ends_get ?_)
    simp only [hc]
    cases htruth : c.truth with
    | some b =>
      refine ends_pure (hQ d (.refl d) (fun h => h) (hlabelled ?_))
      rw [htruth, hi.of_some hc htruth]
    | none =>
      cases hstack : d.stackTruth? c with
      | none =>
        refine ends_pure (hQ d (.refl d) (fun h => h) (hlabelled ?_))
        rw [htruth, hi.of_none hc htruth, hstack]
        rfl
      | some v =>
        rw [count]
        refine .bind (ends_modify (.bind (ends_modify ?_)))
        have hs : SameCells d { d with
            tree := d.tree.setTruth id (some v)
            stats := { d.stats with truthPropagations := d.stats.truthPropagations + 1 } } :=
          ⟨⟨rfl, rfl, rfl⟩, CellTree.sameShape_setTruth .., rfl⟩
        obtain ⟨hgrows, hparent, hlabels⟩ := hs.labelled_setTruth rfl h hc hi hothers htruth hstack
        cases hp : c.parent with
        | none =>
          rw [hp] at hrest
          obtain rfl : ids = [] := hrest
          exact ends_pure (hQ _ hs hgrows fun j => hlabels j (by rw [hp]; nofun))
        | some p =>
          obtain ⟨b, as, hb, -⟩ := h.tree.parent_some hc hp
          obtain ⟨b', hb', -⟩ := hs.shape.exists_get? hb
          refine ih (h.of_sameShape hs.task hs.shape) hb' (hparent p hp)
            (fun j hj => hlabels j fun hjp => hj ?_) ?_ fun e he hge hle =>
              hQ e (hs.trans he) (hgrows.trans hge) hle
          · exact Option.some.inj (hjp.symm.trans hp)
          · rw [hrest, hp, Option.map_some, Option.getD_some,
              hs.shape.map_id_lineage h.tree.parented]

end Decomposition

end Cylindrical
