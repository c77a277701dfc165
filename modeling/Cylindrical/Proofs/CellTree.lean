import Mathlib
import Cylindrical.CellTree
import Cylindrical.Proofs.Focus

/-!
# Trees of cells

In a well-formed tree parents and children name each other, so every cell has a way to the root.
What is read off along this way (the signs of factors, the path) depends on the stems of cells
alone, which no change of the tree touches.
-/

namespace Cylindrical

namespace Cell

/-- What no change of a tree touches: all but the children, the coordinate and the truth. -/
def stem (c : Cell) : Cell := { c with children := none, coord := none, truth := none }

/-- What stays when only coordinates and truths change. -/
def shape (c : Cell) : Cell := { c with coord := none, truth := none }

variable {c d : Cell}

theorem stem_of_shape (h : d.shape = c.shape) : d.stem = c.stem :=
  show d.shape.stem = c.shape.stem by rw [h]

theorem children_of_shape (h : d.shape = c.shape) : d.children = c.children :=
  show d.shape.children = c.shape.children by rw [h]

theorem parent_of_stem (h : d.stem = c.stem) : d.parent = c.parent :=
  show d.stem.parent = c.stem.parent by rw [h]

theorem depth_of_stem (h : d.stem = c.stem) : d.depth = c.depth :=
  show d.stem.depth = c.stem.depth by rw [h]

theorem index_of_stem (h : d.stem = c.stem) : d.index = c.index :=
  show d.stem.index = c.stem.index by rw [h]

theorem id_of_stem (h : d.stem = c.stem) : d.id = c.id :=
  show d.stem.id = c.stem.id by rw [h]

theorem signature_of_stem (h : d.stem = c.stem) : d.signature = c.signature :=
  show d.stem.signature = c.stem.signature by rw [h]

end Cell

namespace CellTree

variable {t u : CellTree} {i j : ℕ} {b c : Cell}

/-- Parents and children name each other, and the root is the only cell without parent. -/
structure WellFormed (t : CellTree) : Prop where
  root : ∃ c, t.get? 0 = some c
  id_eq : ∀ {i c}, t.get? i = some c → c.id = i
  depth_le : ∀ {i c}, t.get? i = some c → c.depth ≤ t.dimension
  parent_none : ∀ {i c}, t.get? i = some c → c.parent = none → i = 0 ∧ c.depth = 0
  parent_some : ∀ {i c p}, t.get? i = some c → c.parent = some p → ∃ b ids,
    t.get? p = some b ∧ b.children = some ids ∧ ids[c.index]? = some i ∧ c.depth = b.depth + 1
  child : ∀ {i c ids k j}, t.get? i = some c → c.children = some ids → ids[k]? = some j →
    ∃ b, t.get? j = some b ∧ b.parent = some i ∧ b.index = k

/-- Parents are cells one level below.  The stacks over cells are left open. -/
structure Parented (t : CellTree) : Prop where
  id_eq : ∀ {i c}, t.get? i = some c → c.id = i
  depth_root : ∀ {i c}, t.get? i = some c → c.parent = none → c.depth = 0
  depth_child : ∀ {i c p}, t.get? i = some c → c.parent = some p →
    ∃ b, t.get? p = some b ∧ c.depth = b.depth + 1

theorem WellFormed.parented (h : t.WellFormed) : t.Parented where
  id_eq := h.id_eq
  depth_root hc hp := (h.parent_none hc hp).2
  depth_child hc hp := by
    obtain ⟨b, ids, hb, -, -, hd⟩ := h.parent_some hc hp
    exact ⟨b, hb, hd⟩

/-- All cells are kept, with their stems. -/
def Extends (t u : CellTree) : Prop :=
  ∀ {i c}, t.get? i = some c → ∃ d, u.get? i = some d ∧ d.stem = c.stem

/-- The truth of a cell, if the cell exists and its truth is known. -/
def truthOf (t : CellTree) (i : ℕ) : Option Bool := (t.get? i).bind (·.truth)

/-- The truth that is known stays. -/
def TruthGrows (t u : CellTree) : Prop := ∀ {i v}, t.truthOf i = some v → u.truthOf i = some v

theorem truthOf_eq (hc : t.get? i = some c) : t.truthOf i = c.truth := by rw [truthOf, hc]; rfl

theorem Extends.refl (t : CellTree) : t.Extends t := fun h => ⟨_, h, rfl⟩

theorem Extends.trans {s : CellTree} (h₁ : s.Extends t) (h₂ : t.Extends u) : s.Extends u :=
  fun hc => by
    obtain ⟨d, hd, hs⟩ := h₁ hc
    obtain ⟨e, he, hs'⟩ := h₂ hd
    exact ⟨e, he, hs'.trans hs⟩

theorem TruthGrows.trans {s : CellTree} (h₁ : s.TruthGrows t) (h₂ : t.TruthGrows u) :
    s.TruthGrows u := fun h => h₂ (h₁ h)

/-! ## The way to the root -/

section Lineage

/-- Induction along the way from the root to a cell. -/
theorem lineage_induction {motive : ℕ → Cell → Prop}
    (step : ∀ i c, t.get? i = some c →
      (∀ p b, c.parent = some p → t.get? p = some b → c.depth = b.depth + 1 → motive p b) →
      motive i c)
    (hc : t.get? i = some c) : motive i c := by
  induction hn : c.depth generalizing i c with
  | zero =>
    refine step i c hc fun p b hp hb hd => ?_
    omega
  | succ n ih => exact step i c hc fun p b _ hb hd => ih hb (by omega)

theorem lineage_eq (h : t.Parented) (hc : t.get? i = some c) :
    t.lineage i = c :: (c.parent.map t.lineage).getD [] := by
  rw [lineage, hc, Option.map_some, Option.getD_some]
  cases hp : c.parent with
  | none =>
    rw [h.depth_root hc hp, lineageUpTo, hc]
    rfl
  | some p =>
    obtain ⟨b, hb, hd⟩ := h.depth_child hc hp
    rw [hd, lineageUpTo, hc]
    simp only [hp, Option.map_some, Option.getD_some]
    rw [lineage, hb, Option.map_some, Option.getD_some]

theorem lineage_of_parent_none (h : t.Parented) (hc : t.get? i = some c) (hp : c.parent = none) :
    t.lineage i = [c] := by
  rw [lineage_eq h hc, hp]
  rfl

theorem lineage_of_parent_some {p : ℕ} (h : t.Parented) (hc : t.get? i = some c)
    (hp : c.parent = some p) : t.lineage i = c :: t.lineage p := by
  rw [lineage_eq h hc, hp]
  rfl

/-- The stems of a cell and its ancestors stay. -/
theorem Extends.map_stem_lineage (hu : t.Extends u) (ht : t.Parented) (hwf : u.Parented)
    (hc : t.get? i = some c) :
    (u.lineage i).map Cell.stem = (t.lineage i).map Cell.stem := by
  refine lineage_induction (motive := fun i _ => (u.lineage i).map Cell.stem =
    (t.lineage i).map Cell.stem) (fun i c hc ih => ?_) hc
  obtain ⟨d, hd, hs⟩ := hu hc
  have hparent : d.parent = c.parent := Cell.parent_of_stem hs
  cases hp : c.parent with
  | none =>
    rw [lineage_of_parent_none ht hc hp, lineage_of_parent_none hwf hd (hparent.trans hp)]
    exact congrArg (fun c => [c]) hs
  | some p =>
    obtain ⟨b, hb, hdepth⟩ := ht.depth_child hc hp
    rw [lineage_of_parent_some ht hc hp, lineage_of_parent_some hwf hd (hparent.trans hp),
      List.map_cons, List.map_cons, hs, ih p b hp hb hdepth]

theorem ancestorAt?_map_stem (t : CellTree) (i depth : ℕ) :
    (t.ancestorAt? i depth).map Cell.stem =
      ((t.lineage i).map Cell.stem).find? (·.depth == depth) := by
  rw [ancestorAt?, List.find?_map]
  rfl

theorem factorSign_eq (t : CellTree) (i : ℕ) (f : FactorRef) :
    t.factorSign i f =
      ((((t.lineage i).map Cell.stem).find? (·.depth == f.level + 1)).bind fun c =>
        c.signature[f.index]?).join := by
  rw [← ancestorAt?_map_stem, factorSign, Option.bind_map]
  rfl

/-- The signs of factors on a cell stay. -/
theorem Extends.factorSign_eq (hu : t.Extends u) (ht : t.WellFormed) (hwf : u.WellFormed)
    (hc : t.get? i = some c) : u.factorSign i = t.factorSign i := by
  funext f
  rw [CellTree.factorSign_eq, CellTree.factorSign_eq,
    hu.map_stem_lineage ht.parented hwf.parented hc]

theorem get?_of_mem_lineage (h : t.Parented) (hc : t.get? i = some c) (hb : b ∈ t.lineage i) :
    t.get? b.id = some b := by
  refine lineage_induction (motive := fun i _ => b ∈ t.lineage i → t.get? b.id = some b)
    (fun i c hc ih hb => ?_) hc hb
  cases hp : c.parent with
  | none =>
    rw [lineage_of_parent_none h hc hp, List.mem_singleton] at hb
    rw [hb, h.id_eq hc, hc]
  | some p =>
    rw [lineage_of_parent_some h hc hp] at hb
    rcases List.mem_cons.1 hb with rfl | hb
    · rw [h.id_eq hc, hc]
    · obtain ⟨a, ha, hd⟩ := h.depth_child hc hp
      exact ih p a hp ha hd hb

theorem depth_le_of_mem_lineage (h : t.Parented) (hc : t.get? i = some c)
    (hb : b ∈ t.lineage i) : b.depth ≤ c.depth := by
  refine lineage_induction (motive := fun i c => b ∈ t.lineage i → b.depth ≤ c.depth)
    (fun i c hc ih hb => ?_) hc hb
  cases hp : c.parent with
  | none =>
    rw [lineage_of_parent_none h hc hp, List.mem_singleton] at hb
    rw [hb]
  | some p =>
    obtain ⟨a, ha, hd⟩ := h.depth_child hc hp
    rw [lineage_of_parent_some h hc hp] at hb
    rcases List.mem_cons.1 hb with rfl | hb
    · exact le_rfl
    · exact (ih p a hp ha hd hb).trans (by omega)

/-- Only cells that exist have ancestors, and these exist too. -/
theorem get?_of_ancestorAt? (h : t.Parented) {depth : ℕ} (hb : t.ancestorAt? i depth = some b) :
    (∃ c, t.get? i = some c) ∧ t.get? b.id = some b ∧ b.depth = depth := by
  have hi : ∃ c, t.get? i = some c := by
    cases hc : t.get? i with
    | some c => exact ⟨c, rfl⟩
    | none =>
      rw [ancestorAt?, lineage, hc, Option.map_none, Option.getD_none, lineageUpTo, hc] at hb
      cases hb
  obtain ⟨c, hc⟩ := hi
  exact ⟨⟨c, hc⟩, get?_of_mem_lineage h hc (List.mem_of_find?_eq_some hb), by
    simpa using List.find?_some hb⟩

theorem ancestorAt?_eq_none (h : t.Parented) (hc : t.get? i = some c) {depth : ℕ}
    (hd : c.depth < depth) : t.ancestorAt? i depth = none :=
  List.find?_eq_none.2 fun b hb hbd => by
    have := depth_le_of_mem_lineage h hc hb
    have := beq_iff_eq.1 hbd
    omega

/-- Every depth up to that of a cell has an ancestor. -/
theorem exists_ancestorAt? (h : t.Parented) (hc : t.get? i = some c) {depth : ℕ}
    (hd : depth ≤ c.depth) :
    ∃ b, t.ancestorAt? i depth = some b ∧ t.get? b.id = some b ∧ b.depth = depth := by
  have hsome : (t.ancestorAt? i depth).isSome := by
    rw [ancestorAt?, List.find?_isSome]
    refine lineage_induction (motive := fun i c => depth ≤ c.depth →
      ∃ b ∈ t.lineage i, (b.depth == depth) = true) (fun i c hc ih hd => ?_) hc hd
    rcases Nat.eq_or_lt_of_le hd with rfl | hlt
    · exact ⟨c, by rw [lineage_eq h hc]; exact .head _, beq_self_eq_true _⟩
    · cases hp : c.parent with
      | none => exact absurd (h.depth_root hc hp) (by omega)
      | some p =>
        obtain ⟨a, ha, hdepth⟩ := h.depth_child hc hp
        obtain ⟨b, hb, hbd⟩ := ih p a hp ha hdepth (by omega)
        exact ⟨b, by rw [lineage_of_parent_some h hc hp]; exact .tail _ hb, hbd⟩
  obtain ⟨b, hb⟩ := Option.isSome_iff_exists.1 hsome
  refine ⟨b, hb, get?_of_mem_lineage h hc (List.mem_of_find?_eq_some hb), ?_⟩
  simpa using List.find?_some hb

theorem isSettled_eq (h : t.WellFormed) (hc : t.get? i = some c) :
    t.isSettled i = (c.truth.isSome || (c.parent.map t.isSettled).getD false) := by
  rw [isSettled, lineage_eq h.parented hc, List.any_cons]
  cases c.parent <;> rfl

/-- A settled cell stays settled. -/
theorem Extends.isSettled (hu : t.Extends u) (hg : t.TruthGrows u) (ht : t.WellFormed)
    (hwf : u.WellFormed) (hc : t.get? i = some c) (hi : t.isSettled i = true) :
    u.isSettled i = true := by
  refine lineage_induction (motive := fun i _ => t.isSettled i = true → u.isSettled i = true)
    (fun i c hc ih hi => ?_) hc hi
  obtain ⟨d, hd, hs⟩ := hu hc
  have hparent : d.parent = c.parent := Cell.parent_of_stem hs
  rw [isSettled_eq ht hc, Bool.or_eq_true] at hi
  rw [isSettled_eq hwf hd, Bool.or_eq_true]
  rcases hi with hi | hi
  · obtain ⟨v, hv⟩ := Option.isSome_iff_exists.1 hi
    have hdv := hg ((truthOf_eq hc).trans hv)
    rw [truthOf_eq hd] at hdv
    exact .inl (by rw [hdv]; rfl)
  · refine .inr ?_
    cases hp : c.parent with
    | none =>
      rw [hp] at hi
      cases hi
    | some p =>
      rw [hp] at hi
      obtain ⟨b, hb, hdepth⟩ := ht.parented.depth_child hc hp
      rw [hparent, hp]
      exact ih p b hp hb hdepth hi

theorem root_parent (h : t.WellFormed) (hc : t.get? 0 = some c) : c.parent = none := by
  have hroot : ∃ r, t.get? 0 = some r ∧ r.parent = none := by
    refine lineage_induction (motive := fun _ _ => ∃ r, t.get? 0 = some r ∧ r.parent = none)
      (fun i c hc ih => ?_) hc
    cases hp : c.parent with
    | none =>
      obtain ⟨rfl, -⟩ := h.parent_none hc hp
      exact ⟨c, hc, hp⟩
    | some p =>
      obtain ⟨b, ids, hb, -, -, hd⟩ := h.parent_some hc hp
      exact ih p b hp hb hd
  obtain ⟨r, hr, hp⟩ := hroot
  rw [Option.some.inj (hc.symm.trans hr), hp]

/-- The cells of the stack over a cell have it as their parent. -/
theorem exists_child {ids : List ℕ} {j : ℕ} (h : t.WellFormed) (hc : t.get? i = some c)
    (hids : c.children = some ids) (hj : j ∈ ids) :
    ∃ b, t.get? j = some b ∧ b.parent = some i ∧ b.depth = c.depth + 1 := by
  obtain ⟨k, hk⟩ := List.getElem?_of_mem hj
  obtain ⟨b, hb, hp, -⟩ := h.child hc hids hk
  obtain ⟨a, as, ha, -, -, hd⟩ := h.parent_some hb hp
  obtain rfl := Option.some.inj (ha.symm.trans hc)
  exact ⟨b, hb, hp, hd⟩

theorem path_of_parent_none (h : t.Parented) (hc : t.get? i = some c) (hp : c.parent = none) :
    t.path i = [] := by
  rw [path, lineage_of_parent_none h hc hp, List.reverse_singleton, List.filterMap_cons, hp]
  rfl

theorem path_of_parent_some {p : ℕ} (h : t.Parented) (hc : t.get? i = some c)
    (hp : c.parent = some p) : t.path i = t.path p ++ [c.index] := by
  rw [path, lineage_of_parent_some h hc hp, List.reverse_cons, List.filterMap_append,
    List.filterMap_cons, hp]
  rfl

theorem path_child {ids : List ℕ} {k : ℕ} (h : t.WellFormed) (hc : t.get? i = some c)
    (hids : c.children = some ids) (hk : ids[k]? = some j) : t.path j = t.path i ++ [k] := by
  obtain ⟨b, hb, hp, hindex⟩ := h.child hc hids hk
  rw [path_of_parent_some h.parented hb hp, hindex]

/-- The signs of factors on a cell are its signature and the signs on its parent. -/
theorem factorSign_child (h : t.WellFormed) (hb : t.get? j = some b) (hp : b.parent = some i)
    (f : FactorRef) : t.factorSign j f =
      if b.depth = f.level + 1 then (b.signature[f.index]?).join else t.factorSign i f := by
  rw [factorSign, ancestorAt?, lineage_of_parent_some h.parented hb hp, List.find?_cons]
  by_cases hd : b.depth = f.level + 1
  · rw [if_pos hd, beq_iff_eq.2 hd]
    rfl
  · rw [if_neg hd, beq_eq_false_iff_ne.2 hd]
    rfl

/-- Induction from the cells of the stack over a cell to the cell. -/
theorem children_induction {motive : ℕ → Cell → Prop} (h : t.WellFormed)
    (step : ∀ i c, t.get? i = some c →
      (∀ ids j b, c.children = some ids → j ∈ ids → t.get? j = some b → b.depth = c.depth + 1 →
        motive j b) → motive i c)
    (hc : t.get? i = some c) : motive i c := by
  induction hn : t.dimension - c.depth generalizing i c with
  | zero =>
    refine step i c hc fun ids j b _ _ hb hd => ?_
    have := h.depth_le hb
    omega
  | succ n ih => exact step i c hc fun ids j b _ _ hb hd => ih hb (by omega)

end Lineage

/-! ## Changes of coordinates and truths -/

section Changes

/-- The trees differ in coordinates and truths only. -/
structure SameShape (t u : CellTree) : Prop where
  dimension : u.dimension = t.dimension
  maxCells : u.maxCells = t.maxCells
  size : u.size = t.size
  shape : ∀ j, (u.get? j).map Cell.shape = (t.get? j).map Cell.shape

theorem SameShape.refl (t : CellTree) : t.SameShape t := ⟨rfl, rfl, rfl, fun _ => rfl⟩

theorem SameShape.symm (h : t.SameShape u) : u.SameShape t :=
  ⟨h.dimension.symm, h.maxCells.symm, h.size.symm, fun j => (h.shape j).symm⟩

theorem SameShape.trans {s : CellTree} (h₁ : s.SameShape t) (h₂ : t.SameShape u) :
    s.SameShape u :=
  ⟨h₂.dimension.trans h₁.dimension, h₂.maxCells.trans h₁.maxCells, h₂.size.trans h₁.size,
    fun j => (h₂.shape j).trans (h₁.shape j)⟩

theorem SameShape.exists_get? (h : t.SameShape u) (hc : t.get? j = some c) :
    ∃ d, u.get? j = some d ∧ d.stem = c.stem ∧ d.children = c.children := by
  have hj := h.shape j
  rw [hc, Option.map_some, Option.map_eq_some_iff] at hj
  obtain ⟨d, hd, hdc⟩ := hj
  exact ⟨d, hd, Cell.stem_of_shape hdc, Cell.children_of_shape hdc⟩

theorem SameShape.extends (h : t.SameShape u) : t.Extends u := fun hc => by
  obtain ⟨d, hd, hs, -⟩ := h.exists_get? hc
  exact ⟨d, hd, hs⟩

theorem SameShape.wellFormed (h : t.SameShape u) (ht : t.WellFormed) : u.WellFormed where
  root := by
    obtain ⟨c, hc⟩ := ht.root
    obtain ⟨d, hd, -⟩ := h.exists_get? hc
    exact ⟨d, hd⟩
  id_eq hd := by
    obtain ⟨c, hc, hs, -⟩ := h.symm.exists_get? hd
    rw [← Cell.id_of_stem hs, ht.id_eq hc]
  depth_le hd := by
    obtain ⟨c, hc, hs, -⟩ := h.symm.exists_get? hd
    rw [← Cell.depth_of_stem hs, h.dimension]
    exact ht.depth_le hc
  parent_none hd hp := by
    obtain ⟨c, hc, hs, -⟩ := h.symm.exists_get? hd
    rw [← Cell.depth_of_stem hs]
    exact ht.parent_none hc ((Cell.parent_of_stem hs).trans hp)
  parent_some hd hp := by
    obtain ⟨c, hc, hs, -⟩ := h.symm.exists_get? hd
    obtain ⟨b, ids, hb, hids, hidx, hdepth⟩ := ht.parent_some hc ((Cell.parent_of_stem hs).trans hp)
    obtain ⟨e, he, hse, hch⟩ := h.exists_get? hb
    refine ⟨e, ids, he, hch.trans hids, ?_, ?_⟩
    · rw [← Cell.index_of_stem hs, hidx]
    · rw [← Cell.depth_of_stem hs, Cell.depth_of_stem hse, hdepth]
  child hd hids hk := by
    obtain ⟨c, hc, -, hch⟩ := h.symm.exists_get? hd
    obtain ⟨b, hb, hp, hidx⟩ := ht.child hc (hch.trans hids) hk
    obtain ⟨e, he, hse, -⟩ := h.exists_get? hb
    exact ⟨e, he, (Cell.parent_of_stem hse).trans hp, (Cell.index_of_stem hse).trans hidx⟩

theorem SameShape.parented (h : t.SameShape u) (ht : t.Parented) : u.Parented where
  id_eq hd := by
    obtain ⟨c, hc, hs, -⟩ := h.symm.exists_get? hd
    rw [← Cell.id_of_stem hs, ht.id_eq hc]
  depth_root hd hp := by
    obtain ⟨c, hc, hs, -⟩ := h.symm.exists_get? hd
    rw [← Cell.depth_of_stem hs]
    exact ht.depth_root hc ((Cell.parent_of_stem hs).trans hp)
  depth_child hd hp := by
    obtain ⟨c, hc, hs, -⟩ := h.symm.exists_get? hd
    obtain ⟨b, hb, hdepth⟩ := ht.depth_child hc ((Cell.parent_of_stem hs).trans hp)
    obtain ⟨e, he, hse, -⟩ := h.exists_get? hb
    exact ⟨e, he, by rw [← Cell.depth_of_stem hs, Cell.depth_of_stem hse, hdepth]⟩

/-- The ways to the root stay when coordinates and truths change. -/
theorem SameShape.map_stem_lineage (h : t.SameShape u) (ht : t.Parented) (i : ℕ) :
    (u.lineage i).map Cell.stem = (t.lineage i).map Cell.stem := by
  cases hc : t.get? i with
  | some c =>
    have hext : t.Extends u := fun hc => h.extends hc
    exact hext.map_stem_lineage ht (h.parented ht) hc
  | none =>
    have hd : u.get? i = none := by
      have hi := h.shape i
      rw [hc, Option.map_none, Option.map_eq_none_iff] at hi
      exact hi
    rw [lineage, lineage, hc, hd, Option.map_none, Option.getD_none, lineageUpTo, lineageUpTo, hc,
      hd]

theorem SameShape.map_id_lineage (h : t.SameShape u) (ht : t.Parented) (i : ℕ) :
    (u.lineage i).map (·.id) = (t.lineage i).map (·.id) := by
  have hids : ∀ cells : List Cell, cells.map (·.id) = (cells.map Cell.stem).map (·.id) :=
    fun cells => by
      rw [List.map_map]
      rfl
  rw [hids (u.lineage i), hids (t.lineage i), h.map_stem_lineage ht]

theorem get?_setTruth (t : CellTree) (i j : ℕ) (v : Option Bool) :
    (t.setTruth i v).get? j =
      if i = j then (t.get? j).map fun c => { c with truth := v } else t.get? j :=
  Array.getElem?_modify

theorem sameShape_setTruth (t : CellTree) (i : ℕ) (v : Option Bool) :
    t.SameShape (t.setTruth i v) where
  dimension := rfl
  maxCells := rfl
  size := Array.size_modify
  shape j := by
    rw [get?_setTruth]
    split_ifs
    · rw [Option.map_map]
      rfl
    · rfl

theorem truthOf_setTruth_self (hc : t.get? i = some c) (v : Option Bool) :
    (t.setTruth i v).truthOf i = v := by
  rw [truthOf, get?_setTruth, if_pos rfl, hc]
  rfl

theorem truthOf_setTruth_of_ne (h : i ≠ j) (v : Option Bool) :
    (t.setTruth i v).truthOf j = t.truthOf j := by
  rw [truthOf, get?_setTruth, if_neg h, truthOf]

theorem get?_replaceCoord (t : CellTree) (i j : ℕ) (x : ℕ × Coordinate) :
    ∃ f : Option Coordinate → Option Coordinate, (t.replaceCoord i x).get? j =
      (t.get? j).map fun c => { c with coord := f c.coord } := by
  rw [replaceCoord]
  split
  · exact ⟨id, Option.map_id'.symm⟩
  · rename_i a _
    have h : (t.cells.modify a.id fun c => { c with coord := some x.2 })[j]? =
        if a.id = j then (t.cells[j]?).map fun c => { c with coord := some x.2 } else t.cells[j]? :=
      Array.getElem?_modify
    simp only [get?]
    rw [h]
    split_ifs
    · exact ⟨fun _ => some x.2, rfl⟩
    · exact ⟨id, Option.map_id'.symm⟩

theorem sameShape_replaceCoord (t : CellTree) (i : ℕ) (x : ℕ × Coordinate) :
    t.SameShape (t.replaceCoord i x) where
  dimension := by rw [replaceCoord]; split <;> rfl
  maxCells := by rw [replaceCoord]; split <;> rfl
  size := by
    rw [replaceCoord]
    split
    · rfl
    · exact Array.size_modify
  shape j := by
    obtain ⟨f, hf⟩ := t.get?_replaceCoord i j x
    rw [hf, Option.map_map]
    rfl

theorem truthOf_replaceCoord (t : CellTree) (i j : ℕ) (x : ℕ × Coordinate) :
    (t.replaceCoord i x).truthOf j = t.truthOf j := by
  obtain ⟨f, hf⟩ := t.get?_replaceCoord i j x
  rw [truthOf, hf, Option.bind_map, truthOf]
  rfl

theorem sameShape_replaceCoords (t : CellTree) (i : ℕ) (xs : List (ℕ × Coordinate)) :
    t.SameShape (t.replaceCoords i xs) := by
  induction xs generalizing t with
  | nil => exact .refl t
  | cons x xs ih => exact (t.sameShape_replaceCoord i x).trans (ih _)

theorem truthOf_replaceCoords (t : CellTree) (i j : ℕ) (xs : List (ℕ × Coordinate)) :
    (t.replaceCoords i xs).truthOf j = t.truthOf j := by
  induction xs generalizing t with
  | nil => rfl
  | cons x xs ih => exact (ih _).trans (t.truthOf_replaceCoord i j x)

end Changes

/-! ## New stacks -/

section Stacks

variable {stack : List StackCell} {ids : List ℕ}

theorem lt_size_iff : i < t.size ↔ ∃ c, t.get? i = some c := by
  rw [get?, size]
  exact ⟨fun h => ⟨_, Array.getElem?_eq_getElem h⟩, fun ⟨c, h⟩ =>
    (Array.getElem?_eq_some_iff.1 h).1⟩

/-- The cell number `k` of a stack over the cell `c`. -/
def stackCell (t : CellTree) (c : Cell) (k : ℕ) (s : StackCell) : Cell :=
  { id := t.size + k, parent := some c.id, depth := c.depth + 1, index := k, coord := some s.coord,
    signature := s.signature, multiplicity := s.multiplicity }

/-- The cells of a stack as they are stored, where the first one gets the position `id`. -/
def storedCells (parent depth : ℕ) : ℕ → ℕ → List StackCell → List Cell
  | _, _, [] => []
  | id, index, c :: cs =>
    { id, parent := some parent, depth, index, coord := some c.coord, signature := c.signature,
      multiplicity := c.multiplicity } :: storedCells parent depth (id + 1) (index + 1) cs

theorem length_storedCells (parent depth id index : ℕ) (stack : List StackCell) :
    (storedCells parent depth id index stack).length = stack.length := by
  induction stack generalizing id index with
  | nil => rfl
  | cons c cs ih => rw [storedCells, List.length_cons, ih, List.length_cons]

theorem getElem?_storedCells (parent depth id index : ℕ) (stack : List StackCell) (k : ℕ) :
    (storedCells parent depth id index stack)[k]? = stack[k]?.map fun c =>
      { id := id + k, parent := some parent, depth, index := index + k, coord := some c.coord,
        signature := c.signature, multiplicity := c.multiplicity } := by
  induction stack generalizing id index k with
  | nil => rfl
  | cons c cs ih =>
    rw [storedCells]
    cases k with
    | zero => rfl
    | succ k =>
      rw [List.getElem?_cons_succ, ih, List.getElem?_cons_succ, Nat.add_right_comm id,
        Nat.add_right_comm index]
      rfl

/-- Each cell is stored at the next position, which goes to the end of the list of its depth. -/
theorem storeCells_eq (parent depth index : ℕ) (stack : List StackCell) (t : CellTree) :
    storeCells parent depth index stack t = .ok (List.range' t.size stack.length)
      { t with
        cells := t.cells ++ (storedCells parent depth t.size index stack).toArray
        byDepth := t.byDepth.modify depth (· ++ List.range' t.size stack.length) } := by
  induction stack generalizing index t with
  | nil =>
    have hmodify : t.byDepth.modify depth (· ++ ([] : List ℕ)) = t.byDepth :=
      Array.ext_getElem? fun d => by
        rw [Array.getElem?_modify]
        split_ifs <;> simp
    rw [storeCells, storedCells, List.length_nil, List.range'_zero, hmodify]
    rfl
  | cons c cs ih =>
    have hmodify : (t.byDepth.modify depth (·.push t.size)).modify depth
        (· ++ List.range' (t.size + 1) cs.length) =
          t.byDepth.modify depth (· ++ List.range' t.size (cs.length + 1)) :=
      Array.ext_getElem? fun d => by
        simp only [Array.getElem?_modify]
        split_ifs
        · rw [Option.map_map, List.range'_succ]
          refine congrArg (Option.map · _) (funext fun ids => ?_)
          simp
        · rfl
    obtain ⟨u, hrun, hu⟩ : ∃ u, storeCell parent depth index c t = .ok t.size u ∧ u = { t with
        cells := t.cells.push { id := t.size, parent := some parent, depth, index,
                                coord := some c.coord, signature := c.signature,
                                multiplicity := c.multiplicity }
        byDepth := t.byDepth.modify depth (·.push t.size) } := ⟨_, rfl, rfl⟩
    have hsize : u.size = t.size + 1 := by rw [hu, size, Array.size_push, size]
    have hpush (b : Cell) (bs : List Cell) :
        t.cells ++ (b :: bs).toArray = t.cells.push b ++ bs.toArray := Array.toList_inj.1 (by simp)
    rw [storeCells, run_bind_of_ok hrun, run_bind_of_ok (ih _ _), hsize, hu, hmodify, storedCells,
      List.length_cons, hpush]
    rfl

/-- A cell of the old tree is changed as if the new cells were not there. -/
theorem modify_append_of_lt {cells : Array Cell} (h : i < cells.size) (new : Array Cell)
    (f : Cell → Cell) : (cells ++ new).modify i f = cells.modify i f ++ new :=
  Array.ext_getElem? fun j => by
    rw [Array.getElem?_modify, Array.getElem?_append, Array.getElem?_append,
      Array.getElem?_modify, Array.size_modify]
    split_ifs <;> first | rfl | omega

/-- A stack is added as a whole, or an error leaves the tree as it was. -/
theorem addStack_eq (parent : ℕ) (stack : List StackCell) (t : CellTree) :
    addStack parent stack t =
      let depth := ((t.get? parent).map (·.depth)).getD 0 + 1
      let ids := List.range' t.size stack.length
      if t.maxCells < t.size + stack.length then .error (.inconclusive (.cellLimit t.maxCells)) t
      else if t.dimension < depth then .error (.invalidAddress (.fullDepth parent)) t
      else .ok ids { t with
        cells := (t.cells ++ (storedCells parent depth t.size 0 stack).toArray).modify parent
          fun c => { c with children := some ids }
        byDepth := t.byDepth.modify depth (· ++ ids)
        cellsCreated := t.cellsCreated + stack.length } := by
  rw [addStack, run_get_bind]
  dsimp only
  split_ifs
  · rfl
  · rfl
  · rw [run_bind_of_ok (storeCells_eq ..), run_modify_bind, List.length_range']
    rfl

/-- The tree `u` is `t` with a stack over the cell `c`, the positions of which are `ids`. -/
structure Stacks (t u : CellTree) (c : Cell) (stack : List StackCell) (ids : List ℕ) : Prop where
  dimension : u.dimension = t.dimension
  maxCells : u.maxCells = t.maxCells
  size : u.size = t.size + stack.length
  size_le : u.size ≤ t.maxCells
  byDepth : u.byDepth = t.byDepth.modify (c.depth + 1) (· ++ ids)
  depth_lt : c.depth < t.dimension
  ids_eq : ids = (List.range stack.length).map (t.size + ·)
  old : ∀ {j b}, t.get? j = some b →
    u.get? j = some (if c.id = j then { b with children := some ids } else b)
  new : ∀ {k s}, stack[k]? = some s → u.get? (t.size + k) = some (t.stackCell c k s)

theorem stacks_of_addStack (hc : t.get? c.id = some c)
    (h : addStack c.id stack t = .ok ids u) : t.Stacks u c stack ids := by
  have hparent : c.id < t.cells.size := lt_size_iff.2 ⟨c, hc⟩
  rw [addStack_eq, hc, Option.map_some, Option.getD_some] at h
  dsimp only at h
  rw [modify_append_of_lt hparent] at h
  split_ifs at h with hroom hdepth
  cases h
  refine ⟨rfl, rfl, ?_, ?_, rfl, by omega, List.range'_eq_map_range, fun {j b} hj => ?_,
    fun {k s} hk => ?_⟩
  · simp [size, length_storedCells]
  · simp only [size, Array.size_append, Array.size_modify, List.size_toArray, length_storedCells]
    rw [size] at hroom
    omega
  · have hlt : j < t.cells.size := lt_size_iff.2 ⟨b, hj⟩
    rw [get?] at hj ⊢
    simp only
    rw [Array.getElem?_append, Array.size_modify, if_pos hlt, Array.getElem?_modify, hj]
    split_ifs <;> rfl
  · rw [get?]
    simp only
    have hsize : ¬t.size + k < t.cells.size := by rw [size]; omega
    have hsub : t.size + k - t.cells.size = k := by rw [size]; omega
    rw [Array.getElem?_append, Array.size_modify, if_neg hsize, hsub, List.getElem?_toArray,
      getElem?_storedCells, hk, Nat.zero_add]
    rfl

theorem addChildren_eq_ok (h : t.addChildren i stack = .ok (ids, u)) :
    addStack i stack t = .ok ids u := by
  rw [addChildren] at h
  split at h
  · rename_i hrun
    cases h
    exact hrun
  · cases h

theorem stacks_of_addChildren (hc : t.get? c.id = some c)
    (h : t.addChildren c.id stack = .ok (ids, u)) : t.Stacks u c stack ids :=
  stacks_of_addStack hc (addChildren_eq_ok h)

theorem Stacks.mem_ids (h : t.Stacks u c stack ids) :
    j ∈ ids ↔ ∃ k s, stack[k]? = some s ∧ j = t.size + k := by
  rw [h.ids_eq, List.mem_map]
  constructor
  · rintro ⟨k, hk, rfl⟩
    exact ⟨k, _, List.getElem?_eq_getElem (List.mem_range.1 hk), rfl⟩
  · rintro ⟨k, s, hk, rfl⟩
    exact ⟨k, List.mem_range.2 (List.getElem?_eq_some_iff.1 hk).1, rfl⟩

theorem Stacks.not_mem_ids (h : t.Stacks u c stack ids) (hb : t.get? j = some b) : j ∉ ids :=
  fun hj => by
    obtain ⟨k, s, -, rfl⟩ := h.mem_ids.1 hj
    have := lt_size_iff.2 ⟨b, hb⟩
    omega

theorem stem_lifted (c b : Cell) (j : ℕ) (ids : List ℕ) :
    (if c.id = j then { b with children := some ids } else b).stem = b.stem := by
  split_ifs <;> rfl

/-- A cell of the new tree is one of the old tree or one of the stack. -/
theorem Stacks.cases (h : t.Stacks u c stack ids) {d : Cell} (hd : u.get? j = some d) :
    (∃ b, t.get? j = some b ∧ d = if c.id = j then { b with children := some ids } else b) ∨
      ∃ k s, stack[k]? = some s ∧ j = t.size + k ∧ d = t.stackCell c k s := by
  rcases Nat.lt_or_ge j t.size with hlt | hge
  · obtain ⟨b, hb⟩ := lt_size_iff.1 hlt
    exact .inl ⟨b, hb, Option.some.inj (hd.symm.trans (h.old hb))⟩
  · have hlt : j < t.size + stack.length := by
      rw [← h.size]
      exact lt_size_iff.2 ⟨d, hd⟩
    obtain ⟨k, rfl⟩ := Nat.exists_eq_add_of_le hge
    have hk := List.getElem?_eq_getElem (l := stack) (i := k) (by omega)
    exact .inr ⟨k, _, hk, rfl, Option.some.inj (hd.symm.trans (h.new hk))⟩

theorem Stacks.extends (h : t.Stacks u c stack ids) : t.Extends u := fun hb =>
  ⟨_, h.old hb, stem_lifted ..⟩

theorem Stacks.truthOf_old (h : t.Stacks u c stack ids) (hb : t.get? j = some b) :
    u.truthOf j = t.truthOf j := by
  rw [truthOf_eq (h.old hb), truthOf_eq hb]
  split_ifs <;> rfl

theorem Stacks.truthGrows (h : t.Stacks u c stack ids) : t.TruthGrows u := fun {i v} hv => by
  obtain ⟨b, hb, -⟩ := Option.bind_eq_some_iff.1 hv
  rw [h.truthOf_old hb, hv]

theorem Stacks.parent (h : t.Stacks u c stack ids) (hc : t.get? c.id = some c) :
    u.get? c.id = some { c with children := some ids } := by
  rw [h.old hc, if_pos rfl]

theorem Stacks.parented (h : t.Stacks u c stack ids) (ht : t.Parented)
    (hc : t.get? c.id = some c) : u.Parented where
  id_eq hd := by
    rcases h.cases hd with ⟨b, hb, rfl⟩ | ⟨k, s, -, rfl, rfl⟩
    · rw [Cell.id_of_stem (stem_lifted ..), ht.id_eq hb]
    · rfl
  depth_root hd hp := by
    rcases h.cases hd with ⟨b, hb, rfl⟩ | ⟨k, s, -, rfl, rfl⟩
    · rw [Cell.depth_of_stem (stem_lifted ..)]
      exact ht.depth_root hb (by rwa [Cell.parent_of_stem (stem_lifted ..)] at hp)
    · cases hp
  depth_child hd hp := by
    rcases h.cases hd with ⟨b, hb, rfl⟩ | ⟨k, s, -, rfl, rfl⟩
    · obtain ⟨a, ha, hdepth⟩ :=
        ht.depth_child hb (by rwa [Cell.parent_of_stem (stem_lifted ..)] at hp)
      refine ⟨_, h.old ha, ?_⟩
      rw [Cell.depth_of_stem (stem_lifted ..), Cell.depth_of_stem (stem_lifted ..), hdepth]
    · obtain rfl := Option.some.inj hp
      exact ⟨_, h.parent hc, rfl⟩

theorem Stacks.wellFormed (h : t.Stacks u c stack ids) (ht : t.WellFormed)
    (hc : t.get? c.id = some c) (hleaf : c.children.getD [] = []) : u.WellFormed where
  root := by
    obtain ⟨b, hb⟩ := ht.root
    exact ⟨_, h.old hb⟩
  id_eq := (h.parented ht.parented hc).id_eq
  depth_le hd := by
    rcases h.cases hd with ⟨b, hb, rfl⟩ | ⟨k, s, -, rfl, rfl⟩
    · rw [h.dimension, Cell.depth_of_stem (stem_lifted ..)]
      exact ht.depth_le hb
    · rw [h.dimension]
      exact h.depth_lt
  parent_none hd hp := by
    rcases h.cases hd with ⟨b, hb, rfl⟩ | ⟨k, s, -, rfl, rfl⟩
    · rw [Cell.parent_of_stem (stem_lifted ..)] at hp
      rw [Cell.depth_of_stem (stem_lifted ..)]
      exact ht.parent_none hb hp
    · cases hp
  parent_some {j d p} hd hp := by
    rcases h.cases hd with ⟨b, hb, rfl⟩ | ⟨k, s, hk, rfl, rfl⟩
    · rw [Cell.parent_of_stem (stem_lifted ..)] at hp
      obtain ⟨a, as, ha, has, hidx, hdepth⟩ := ht.parent_some hb hp
      have hne : ¬c.id = p := fun he => by
        rw [← he, hc] at ha
        obtain rfl := Option.some.inj ha
        rw [has, Option.getD_some] at hleaf
        rw [hleaf] at hidx
        cases hidx
      refine ⟨a, as, by rw [h.old ha, if_neg hne], has, ?_, ?_⟩
      · rw [Cell.index_of_stem (stem_lifted ..), hidx]
      · rw [Cell.depth_of_stem (stem_lifted ..), hdepth]
    · obtain rfl := Option.some.inj hp
      refine ⟨_, ids, h.parent hc, rfl, ?_, rfl⟩
      have hlt := (List.getElem?_eq_some_iff.1 hk).1
      rw [h.ids_eq]
      simp [stackCell, hlt]
  child {j d as k i} hd has hk := by
    rcases h.cases hd with ⟨b, hb, rfl⟩ | ⟨l, s, -, rfl, rfl⟩
    · split_ifs at has with he
      · obtain rfl := Option.some.inj has
        have hlt := (List.getElem?_eq_some_iff.1 hk).1
        rw [h.ids_eq] at hk hlt
        simp only [List.length_map, List.length_range] at hlt
        rw [List.getElem?_map, List.getElem?_range hlt] at hk
        obtain rfl := Option.some.inj hk
        exact ⟨_, h.new (List.getElem?_eq_getElem hlt), by rw [stackCell, he], rfl⟩
      · obtain ⟨a, ha, hp, hidx⟩ := ht.child hb has hk
        refine ⟨_, h.old ha, ?_, ?_⟩
        · rw [Cell.parent_of_stem (stem_lifted ..), hp]
        · rw [Cell.index_of_stem (stem_lifted ..), hidx]
    · cases has

end Stacks

/-! ## The root alone -/

theorem eq_of_get?_root {dimension maxCells : ℕ}
    (h : ({ dimension, maxCells } : CellTree).get? i = some c) :
    i = 0 ∧ c = { id := 0 } := by
  cases i with
  | zero => exact ⟨rfl, (Option.some.inj h).symm⟩
  | succ i => cases h

theorem wellFormed_root (dimension maxCells : ℕ) :
    ({ dimension, maxCells } : CellTree).WellFormed := by
  refine ⟨⟨_, rfl⟩, fun h => ?_, fun h => ?_, fun h _ => ?_, fun h hp => ?_, fun h hids => ?_⟩ <;>
    obtain ⟨rfl, rfl⟩ := eq_of_get?_root h
  · rfl
  · exact Nat.zero_le _
  · exact ⟨rfl, rfl⟩
  · cases hp
  · cases hids

end CellTree

end Cylindrical
