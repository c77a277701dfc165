import Mathlib
import Cylindrical.Proofs.Decomposition.Labels
import Cylindrical.Proofs.Stack.Signature

/-!
# Lifting a cell

Lifting adds a stack over a cell and labels its cells; what it makes undecided is put on the
worklist.  A failure changes nothing but coordinates and counts.
-/

namespace Cylindrical

namespace Decomposition

variable {d e : Decomposition} {c : Cell} {p : Projection} {links : List ℕ}

/-- The states differ in counts and coordinates only. -/
structure SameTruths (d e : Decomposition) : Prop extends SameCells d e where
  truth : ∀ j, e.tree.truthOf j = d.tree.truthOf j

theorem SameTruths.refl (d : Decomposition) : SameTruths d d := ⟨.refl d, fun _ => rfl⟩

theorem SameTruths.trans {f : Decomposition} (h₁ : SameTruths d e) (h₂ : SameTruths e f) :
    SameTruths d f :=
  ⟨h₁.toSameCells.trans h₂.toSameCells, fun j => (h₂.truth j).trans (h₁.truth j)⟩

theorem sameTruths_of_eq (ht : SameTask d e) (htree : e.tree = d.tree)
    (hw : e.worklist = d.worklist) : SameTruths d e :=
  ⟨⟨ht, htree ▸ .refl _, hw⟩, fun _ => by rw [htree]⟩

theorem SameTruths.consistent (h : SameTruths d e) (hd : d.Consistent) : e.Consistent :=
  hd.of_sameShape h.task h.shape

theorem SameTruths.labelled (h : SameTruths d e) (hd : d.Consistent) (hl : d.Labelled) :
    e.Labelled := hl.of_sameShape hd h.task h.shape h.truth

/-- The state `e` is `d` with a stack over the cell `c`, the positions of which are `ids`, and with
the truths that are known then. -/
structure Lifted (d e : Decomposition) (c : Cell) (ids : List ℕ) : Prop where
  task : SameTask d e
  consistent : e.Consistent
  labelled : e.Labelled
  grows : d.tree.Extends e.tree
  truthGrows : d.tree.TruthGrows e.tree
  size : e.tree.size = d.tree.size + ids.length
  size_le : e.tree.size ≤ d.tree.maxCells
  ids_ne_nil : ids ≠ []
  parent : ∀ {b}, e.tree.get? c.id = some b → b.children = some ids
  cases : ∀ {j b}, e.tree.get? j = some b →
    (∃ a, d.tree.get? j = some a ∧ (j ≠ c.id → b.children = a.children)) ∨
      (j ∈ ids ∧ b.parent = some c.id)
  worklist : e.worklist = (if c.depth + 1 < d.size && !e.tree.isSettled c.id then
    undecided e.tree ids else []) ++ d.worklist

/-- Building a stack changes counts only, and all signs on its cells are known. -/
theorem ends_buildStack {Q : List StackCell × List (ℕ × Coordinate) → Decomposition → Prop}
    {E : Decomposition → Prop}
    (hok : ∀ e stack changes, SameTruths d e → stack ≠ [] →
      (∀ s ∈ stack, ∃ signs : List Sign,
        s.signature = signs.map some ∧ signs.length = (p.factors c.depth).length) →
      Q (stack, changes) e)
    (herr : ∀ e, SameTruths d e → E e) : Ends (buildStack p c) d Q E := by
  rw [buildStack]
  refine .bind (ends_get (ends_focus (fun a t h => ?_) fun err t _ => herr _ ?_))
  · obtain ⟨stack, σ, hstack, h⟩ := run_bind_eq_ok h
    rw [run_get_bind] at h
    obtain ⟨rfl, -⟩ := run_pure_eq_ok h
    obtain ⟨hne, hsigns⟩ := Stack.cells_spec hstack
    exact hok _ _ _ (sameTruths_of_eq ⟨rfl, rfl, rfl⟩ rfl rfl) hne hsigns
  · exact sameTruths_of_eq ⟨rfl, rfl, rfl⟩ rfl rfl

variable {stack : List StackCell} {ids : List ℕ}

/-- After the evaluation of a new stack all cells are labelled, but that its truth is not stored on
the cell below. -/
theorem labelled_of_stacks {f : Decomposition} (h : d.Consistent) (hl : d.Labelled)
    (he : SameTask d e) (hc : d.tree.get? c.id = some c) (hleaf : c.children = none)
    (hs : d.tree.Stacks e.tree c stack ids) (hwf : e.Consistent) (hf : SameCells e f)
    (hin : ∀ j ∈ ids, f.tree.truthOf j = e.matrixTruth? j)
    (hout : ∀ j ∉ ids, f.tree.truthOf j = e.tree.truthOf j) :
    f.PartlyLabelledAt c.id ∧ ∀ j, j ≠ c.id → f.LabelledAt j := by
  have hold : ∀ {j a}, d.tree.get? j = some a →
      f.tree.truthOf j = a.truth ∧ f.matrixTruth? j = d.matrixTruth? j := fun {j a} ha => by
    refine ⟨?_, ?_⟩
    · rw [hout j (hs.not_mem_ids ha), hs.truthOf_old ha, CellTree.truthOf_eq ha]
    · rw [hf.matrixTruth?_eq hwf (hs.old ha),
        he.matrixTruth?_eq h.tree hwf.tree (fun hb => hs.extends hb) ha]
  have hcell : ∀ {b}, f.tree.get? c.id = some b →
      b.truth = d.matrixTruth? c.id ∧ f.matrixTruth? c.id = d.matrixTruth? c.id := fun {b} hb => by
    obtain ⟨htruth, hmatrix⟩ := hold hc
    rw [← CellTree.truthOf_eq hb, htruth, hl _ hc, stackTruth?_of_leaf hleaf, Option.or_none]
    exact ⟨rfl, hmatrix⟩
  refine ⟨⟨fun hb hv => ?_, fun hb hnone => ?_⟩, fun j hj b hb => ?_⟩
  · obtain ⟨htruth, hmatrix⟩ := hcell hb
    rw [hmatrix, ← htruth, hv, Option.some_or]
  · obtain ⟨htruth, hmatrix⟩ := hcell hb
    rw [hmatrix, ← htruth, hnone]
  · obtain ⟨b₁, hb₁, hstem, hchildren⟩ := hf.shape.symm.exists_get? hb
    rcases hs.cases hb₁ with ⟨a, ha, rfl⟩ | ⟨k, s, hk, rfl, rfl⟩
    · rw [if_neg (Ne.symm hj)] at hstem hchildren
      obtain ⟨htruth, hmatrix⟩ := hold ha
      rw [← CellTree.truthOf_eq hb, htruth, hmatrix, hl j ha]
      refine congrArg _ ((he.trans hf.task).stackTruth?_congr hstem.symm hchildren.symm
        fun as has k hk => ?_).symm
      obtain ⟨n, hn⟩ := List.getElem?_of_mem hk
      obtain ⟨a', ha', -⟩ := h.tree.child ha has hn
      rw [(hold ha').1, CellTree.truthOf_eq ha']
    · have hmem := hs.mem_ids.2 ⟨k, s, hk, rfl⟩
      rw [← CellTree.truthOf_eq hb, hin _ hmem, hf.matrixTruth?_eq hwf hb₁,
        stackTruth?_of_leaf hchildren.symm, Option.or_none]

/-- A stack, the evaluation of its cells and the propagation of truth make up one lifting. -/
theorem lifted_of_stacks {f g : Decomposition} {ws : List ℕ} (he : SameTask d e)
    (hc : d.tree.get? c.id = some c) (hs : d.tree.Stacks e.tree c stack ids) (hne : stack ≠ [])
    (hwf : e.Consistent) (hf : SameCells e f)
    (hout : ∀ j ∉ ids, f.tree.truthOf j = e.tree.truthOf j) (hg : SameCells f g)
    (hgrows : f.tree.TruthGrows g.tree) (hlabelled : g.Labelled)
    (hws : ws = (if c.depth + 1 < g.size && !g.tree.isSettled c.id then
      undecided g.tree ids else []) ++ d.worklist) :
    Lifted d { g with worklist := ws } c ids where
  task := ⟨(he.trans (hf.trans hg).task).config, (he.trans (hf.trans hg).task).formula,
    (he.trans (hf.trans hg).task).projection⟩
  consistent := hwf.of_sameShape ⟨(hf.trans hg).task.config, (hf.trans hg).task.formula,
    (hf.trans hg).task.projection⟩ (hf.trans hg).shape
  labelled := fun j _ hb => hlabelled j hb
  grows hb := by
    obtain ⟨b₁, hb₁, hstem₁⟩ := hs.extends hb
    obtain ⟨b₂, hb₂, hstem₂⟩ := (hf.trans hg).shape.extends hb₁
    exact ⟨b₂, hb₂, hstem₂.trans hstem₁⟩
  truthGrows {j v} hv := by
    obtain ⟨b, hb, -⟩ := Option.bind_eq_some_iff.1 hv
    refine hgrows ?_
    rw [hout j (hs.not_mem_ids hb), hs.truthOf_old hb, hv]
  size := by
    rw [(hf.trans hg).shape.size, hs.size, hs.ids_eq, List.length_map, List.length_range]
  size_le := by
    rw [(hf.trans hg).shape.size]
    exact hs.size_le
  ids_ne_nil hnil := by
    rw [hs.ids_eq, List.map_eq_nil_iff, List.range_eq_nil, List.length_eq_zero_iff] at hnil
    exact hne hnil
  parent hb := by
    obtain ⟨b₁, hb₁, -, hchildren⟩ := (hf.trans hg).shape.symm.exists_get? hb
    rw [hs.parent hc] at hb₁
    rw [← hchildren, ← Option.some.inj hb₁]
  cases {j b} hb := by
    obtain ⟨b₁, hb₁, hstem, hchildren⟩ := (hf.trans hg).shape.symm.exists_get? hb
    rcases hs.cases hb₁ with ⟨a, ha, rfl⟩ | ⟨k, s, hk, rfl, rfl⟩
    · refine .inl ⟨a, ha, fun hj => ?_⟩
      rw [if_neg (Ne.symm hj)] at hchildren
      exact hchildren.symm
    · exact .inr ⟨hs.mem_ids.2 ⟨k, s, hk, rfl⟩, (Cell.parent_of_stem hstem).symm⟩
  worklist := by
    rw [hws, ((he.trans (hf.trans hg).task)).size]

/-- Coordinates and counts may have changed before. -/
theorem Lifted.of_sameTruths {b : Cell} {f : Decomposition} (h : Lifted e f b ids)
    (he : SameTruths d e) (hb : b.stem = c.stem) : Lifted d f c ids where
  task := he.task.trans h.task
  consistent := h.consistent
  labelled := h.labelled
  grows := CellTree.Extends.trans (fun ha => he.shape.extends ha) h.grows
  truthGrows {j v} hv := h.truthGrows ((he.truth j).trans hv)
  size := by rw [h.size, he.shape.size]
  size_le := by
    rw [← he.shape.maxCells]
    exact h.size_le
  ids_ne_nil := h.ids_ne_nil
  parent {a} ha := h.parent (by rw [Cell.id_of_stem hb, ha])
  cases {j a} ha := by
    rw [← Cell.id_of_stem hb]
    rcases h.cases ha with ⟨a₁, ha₁, hchildren⟩ | hnew
    · obtain ⟨a₂, ha₂, -, hch⟩ := he.shape.symm.exists_get? ha₁
      exact .inl ⟨a₂, ha₂, fun hj => (hchildren hj).trans hch.symm⟩
    · exact .inr hnew
  worklist := by
    rw [h.worklist, he.worklist, he.task.size, Cell.id_of_stem hb, Cell.depth_of_stem hb]

/-- Once the stack stands over the cell, no step can fail. -/
theorem ends_labelStack {d₂ : Decomposition} {tree : CellTree} {E : Decomposition → Prop}
    (h : d.Consistent) (hl : d.Labelled) (hp : d.projection = some (p, links))
    (hc : d.tree.get? c.id = some c) (hleaf : c.children = none) (h₂ : SameTruths d d₂)
    (hne : stack ≠ [])
    (hsigns : ∀ s ∈ stack, ∃ signs : List Sign,
      s.signature = signs.map some ∧ signs.length = (p.factors c.depth).length)
    (hr : d₂.tree.addChildren c.id stack = .ok (ids, tree)) :
    Ends (do
        modify fun d => { d with tree }
        count fun s => { s with
          cellsLifted := s.cellsLifted + 1
          cellsCreated := s.cellsCreated + ids.length }
        ids.forM fun i => discard (evaluate i)
        propagate (((← get).tree.lineage c.id).map (·.id))
        let d ← get
        if c.depth + 1 < d.size && !d.tree.isSettled c.id then
          modify fun d => { d with worklist := undecided d.tree ids ++ d.worklist } :
        DecompositionM Unit) d₂ (fun _ e => ∃ ids, Lifted d e c ids) E := by
  obtain ⟨c₂, hc₂, hstem, hchildren⟩ := h₂.shape.exists_get? hc
  have hid : c.id = c₂.id := (Cell.id_of_stem hstem).symm
  have hleaf₂ : c₂.children = none := hchildren.trans hleaf
  rw [hid] at hr hc₂
  have hs := CellTree.stacks_of_addChildren hc₂ hr
  have hp₂ : d₂.projection = some (p, links) := h₂.task.projection.trans hp
  rw [count]
  refine .bind (ends_modify (.bind (ends_modify ?_)))
  -- the state with the new stack, before its cells are evaluated
  have htask : SameTask d₂ { d₂ with
      tree
      stats := { d₂.stats with
        cellsLifted := d₂.stats.cellsLifted + 1
        cellsCreated := d₂.stats.cellsCreated + ids.length } } := ⟨rfl, rfl, rfl⟩
  have hwf := (h₂.consistent h).of_stacks htask hc₂ hleaf₂ hs fun hq => by
    obtain rfl := (Prod.mk.inj (Option.some.inj (hq.symm.trans hp₂))).1
    rw [Cell.depth_of_stem hstem]
    exact hsigns
  refine .bind (ends_evaluateAll hwf (Option.isSome_iff_exists.2 ⟨_, hp₂⟩) (fun j hj => ?_)
    fun f hf hin hout => ?_)
  · obtain ⟨k, s, hk, rfl⟩ := hs.mem_ids.1 hj
    exact ⟨_, hs.new hk⟩
  obtain ⟨hpart, hothers⟩ := labelled_of_stacks (h₂.consistent h) (h₂.labelled h hl)
    htask hc₂ hleaf₂ hs hwf hf hin hout
  obtain ⟨b, hb, -⟩ := hf.shape.exists_get? (hs.parent hc₂)
  rw [hid]
  refine .bind (ends_get (.bind (ends_propagate (hwf.of_sameShape hf.task hf.shape) hb hpart
    hothers rfl fun g hg hgrows hlabelled => .bind (ends_get ?_))))
  have hlifted : ∀ ws, ws = (if c₂.depth + 1 < g.size && !g.tree.isSettled c₂.id then
      undecided g.tree ids else []) ++ d₂.worklist →
      Lifted d { g with worklist := ws } c ids := fun ws hws =>
    (lifted_of_stacks htask hc₂ hs hne hwf hf hout hg hgrows hlabelled hws).of_sameTruths h₂ hstem
  have hworklist : g.worklist = d₂.worklist := (hf.trans hg).worklist
  rw [← Cell.depth_of_stem hstem]
  split_ifs with hopen
  · exact ends_modify ⟨ids, hlifted _ (by rw [if_pos hopen, hworklist])⟩
  · exact ends_pure ⟨ids, hlifted g.worklist (by rw [if_neg hopen, hworklist, List.nil_append])⟩

theorem sameTruths_replaceCoords {e : Decomposition} (h : SameTruths d e) (id : ℕ)
    (changes : List (ℕ × Coordinate)) :
    SameTruths d { e with tree := e.tree.replaceCoords id changes } :=
  h.trans ⟨⟨⟨rfl, rfl, rfl⟩, CellTree.sameShape_replaceCoords .., rfl⟩,
    fun _ => CellTree.truthOf_replaceCoords ..⟩

theorem ends_liftCell (h : d.Consistent) (hl : d.Labelled)
    (hp : d.projection = some (p, links)) (hc : d.tree.get? c.id = some c)
    (hleaf : c.children = none) :
    Ends (liftCell c) d (fun _ e => ∃ ids, Lifted d e c ids) (SameTruths d) := by
  rw [liftCell]
  refine .bind (ends_get ?_)
  simp only [hp]
  refine .bind (ends_buildStack (fun d₁ stack changes h₁ hne hsigns => ?_) fun e he => he)
  have h₂ := sameTruths_replaceCoords h₁ c.id changes
  refine .bind (ends_modify (.bind (ends_get (.bind (ends_lift (fun r hr => ?_) fun _ _ => h₂)))))
  exact ends_labelStack h hl hp hc hleaf h₂ hne hsigns hr

end Decomposition

end Cylindrical
