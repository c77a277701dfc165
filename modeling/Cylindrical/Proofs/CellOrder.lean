import Mathlib
import Cylindrical.Proofs.CellTree.SamplePoints
import Cylindrical.Proofs.Stack.Sections

/-!
# Order of cells

In an ordered tree each stack stands in increasing order.  A stack is put over a cell once; later
only coordinates change, and only by refining or redefining those of a sample point, which makes
their enclosures shrink.  Shrinking keeps the order of siblings.
-/

namespace Cylindrical

open Coordinate

namespace Cell

/-- The cell stands at the coordinate `x`: a sector at a rational number where no factor of its
level has a root, a section at one where some factor has a root. -/
structure At (b : Cell) (x : Coordinate) : Prop where
  coord : b.coord = some x
  proper : x.Proper
  sector : b.isSection = false → x.isRational = true ∧ ∀ m ∈ b.multiplicity, m = 0
  root : b.isSection = true → ∃ m ∈ b.multiplicity, m ≠ 0

/-- The coordinate of the cell is valid for the number `ξ`, over some values of lower variables. -/
def Denotes (b : Cell) (ξ : ℝ) : Prop := ∃ x v p, b.coord = some x ∧ x.Denotes v p ∧ p v = ξ

variable {b c : Cell} {x y : Coordinate}

theorem isSection_of_stem (h : c.stem = b.stem) : c.isSection = b.isSection := by
  rw [isSection, isSection, index_of_stem h]

theorem multiplicity_of_stem (h : c.stem = b.stem) : c.multiplicity = b.multiplicity :=
  show c.stem.multiplicity = b.stem.multiplicity by rw [h]

/-- A cell stays where it is when its coordinate shrinks. -/
theorem At.of_shrinks (h : b.At x) (hs : c.stem = b.stem) (hc : c.coord = some y)
    (hy : y.Shrinks x) : c.At y where
  coord := hc
  proper := hy.proper h.proper
  sector hsector := by
    rw [isSection_of_stem hs] at hsector
    rw [multiplicity_of_stem hs]
    refine (h.sector hsector).imp_left fun hx => ?_
    cases x with
    | rational r => rw [hy.rational r rfl, isRational]
    | algebraic a => cases hx
  root hroot := by
    rw [isSection_of_stem hs] at hroot
    rw [multiplicity_of_stem hs]
    exact h.root hroot

end Cell

namespace CellTree

variable {t u : CellTree} {i j v : ℕ} {b c : Cell} {x y : Coordinate} {ids : List ℕ}

/-- The cells of a stack, from left to right. -/
structure Siblings (t : CellTree) (ids : List ℕ) : Prop where
  odd : ids.length % 2 = 1
  below : ids.Pairwise fun i j => ∀ x ∈ t.coordOf? i, ∀ y ∈ t.coordOf? j, x.Below y

/-- Each cell but the root has a coordinate, and the stacks are in order. -/
structure Ordered (t : CellTree) : Prop where
  root : ∀ {i c}, t.get? i = some c → c.parent = none → c.coord = none
  cell : ∀ {i c p}, t.get? i = some c → c.parent = some p → ∃ x, c.At x
  siblings : ∀ {i c ids}, t.get? i = some c → c.children = some ids → t.Siblings ids

theorem ordered_root (dimension maxCells : ℕ) :
    ({ dimension, maxCells } : CellTree).Ordered := by
  refine ⟨fun h _ => ?_, fun h hp => ?_, fun h hids => ?_⟩ <;>
    obtain ⟨rfl, rfl⟩ := eq_of_get?_root h
  · rfl
  · cases hp
  · cases hids

/-! ## Sample points -/

theorem Ordered.placed (h : t.Ordered) (ht : t.WellFormed) : t.Placed where
  toParented := ht.parented
  coord_root := h.root
  coord_child hc hp := by
    obtain ⟨x, hx⟩ := h.cell hc hp
    exact ⟨x, hx.coord⟩

/-- No enclosure of a sample point is empty. -/
theorem Ordered.proper_sample (h : t.Ordered) (ht : t.WellFormed) (hc : t.get? i = some c) :
    (t.sample i).Proper := fun v x hx => by
  rw [(h.placed ht).get?_sample hc, Option.bind_eq_some_iff] at hx
  obtain ⟨b, hb, hx⟩ := hx
  have hget := get?_of_mem_lineage ht.parented hc (List.mem_of_find?_eq_some hb)
  cases hp : b.parent with
  | none => cases (h.root hget hp).symm.trans hx
  | some p =>
    obtain ⟨y, hy⟩ := h.cell hget hp
    obtain rfl := Option.some.inj (hy.coord.symm.trans hx)
    exact hy.proper

/-! ## Changes of coordinates -/

/-- The tree `u` differs from `t` in truths and in coordinates that have shrunk. -/
structure Shrinks (u t : CellTree) : Prop extends SameShape t u where
  coord : ∀ i, Option.Rel Coordinate.Shrinks (u.coordOf? i) (t.coordOf? i)

theorem Shrinks.refl (t : CellTree) : t.Shrinks t :=
  ⟨.refl t, fun i => by
    cases t.coordOf? i with
    | none => exact .none
    | some x => exact .some (.refl x)⟩

theorem Shrinks.exists_coord (h : u.Shrinks t) (hy : y ∈ u.coordOf? i) :
    ∃ x ∈ t.coordOf? i, y.Shrinks x := by
  have hi := h.coord i
  rw [Option.mem_def.1 hy] at hi
  cases hx : t.coordOf? i with
  | none =>
    rw [hx] at hi
    cases hi
  | some x =>
    rw [hx] at hi
    cases hi with
    | some hyx => exact ⟨x, rfl, hyx⟩

theorem Ordered.of_shrinks (h : t.Ordered) (hu : u.Shrinks t) : u.Ordered where
  root {i d} hd hp := by
    obtain ⟨c, hc, hs, -⟩ := hu.symm.exists_get? hd
    have hi := hu.coord i
    rw [coordOf?_eq hd, coordOf?_eq hc, h.root hc ((Cell.parent_of_stem hs).trans hp)] at hi
    cases hd : d.coord with
    | none => rfl
    | some y =>
      rw [hd] at hi
      cases hi
  cell {i d p} hd hp := by
    obtain ⟨c, hc, hs, -⟩ := hu.symm.exists_get? hd
    obtain ⟨x, hx⟩ := h.cell hc ((Cell.parent_of_stem hs).trans hp)
    have hi := hu.coord i
    rw [coordOf?_eq hd, coordOf?_eq hc, hx.coord] at hi
    cases hy : d.coord with
    | none =>
      rw [hy] at hi
      cases hi
    | some y =>
      rw [hy] at hi
      cases hi with
      | some hyx => exact ⟨y, hx.of_shrinks hs.symm hy hyx⟩
  siblings {i d ids} hd hids := by
    obtain ⟨c, hc, -, hch⟩ := hu.symm.exists_get? hd
    obtain ⟨hodd, hbelow⟩ := h.siblings hc (hch.trans hids)
    refine ⟨hodd, hbelow.imp fun hij y hy y' hy' => ?_⟩
    obtain ⟨x, hx, hyx⟩ := hu.exists_coord hy
    obtain ⟨x', hx', hyx'⟩ := hu.exists_coord hy'
    exact (hij x hx x' hx').mono hyx.narrows hyx'.narrows

theorem shrinks_setTruth (t : CellTree) (i : ℕ) (v : Option Bool) : (t.setTruth i v).Shrinks t where
  toSameShape := t.sameShape_setTruth i v
  coord j := by
    have hj : (t.setTruth i v).coordOf? j = t.coordOf? j := by
      rw [coordOf?, coordOf?, get?_setTruth]
      split_ifs
      · rw [Option.bind_map]
        rfl
      · rfl
    rw [hj]
    exact (Shrinks.refl t).coord j

/-- Coordinates of a sample point that have shrunk may replace the former ones, in a tree where
some have been replaced before. -/
theorem Shrinks.replaceCoord {e : ℕ × Coordinate} (h : u.Shrinks t) (ht : t.WellFormed)
    (hc : t.get? i = some c) (hx : (t.ancestorAt? i (e.1 + 1)).bind (·.coord) = some x)
    (he : e.2.Shrinks x) : (u.replaceCoord i e).Shrinks t where
  toSameShape := h.toSameShape.trans (u.sameShape_replaceCoord i e)
  coord j := by
    have hu := h.wellFormed ht
    obtain ⟨d, hd, -⟩ := h.exists_get? hc
    obtain ⟨b, hb, hbx⟩ := Option.bind_eq_some_iff.1 hx
    -- the cell that owns the coordinate has the same position in both trees
    have hstem : (u.ancestorAt? i (e.1 + 1)).map Cell.stem = some b.stem := by
      have hext : t.Extends u := fun hc => h.extends hc
      rw [ancestorAt?_map_stem, hext.map_stem_lineage ht.parented hu.parented hc,
        ← ancestorAt?_map_stem, hb]
      rfl
    obtain ⟨a, ha, hab⟩ := Option.map_eq_some_iff.1 hstem
    have hget := get?_of_mem_lineage ht.parented hc (List.mem_of_find?_eq_some hb)
    rw [coordOf?_replaceCoord ha (get?_of_mem_lineage hu.parented hd (List.mem_of_find?_eq_some ha))]
    split_ifs with hj
    · rw [← hj, Cell.id_of_stem hab, coordOf?_eq hget, hbx]
      exact .some he
    · exact h.coord j

theorem shrinks_replaceCoords {changes : List (ℕ × Coordinate)} (ht : t.WellFormed)
    (hc : t.get? i = some c)
    (h : ∀ e ∈ changes, ∃ x, (t.ancestorAt? i (e.1 + 1)).bind (·.coord) = some x ∧
      e.2.Shrinks x) : (t.replaceCoords i changes).Shrinks t :=
  List.foldlRecOn (motive := fun u : CellTree => u.Shrinks t) changes _ (.refl t)
    fun u hu e he => by
      obtain ⟨x, hx, hex⟩ := h e he
      exact hu.replaceCoord ht hc hx hex

/-- The changes of a copy of a sample point that has shrunk are adopted. -/
theorem Ordered.shrinks_changes (h : t.Ordered) (ht : t.WellFormed) (hc : t.get? i = some c)
    {s : SamplePoint} (hs : s.Shrinks (t.sample i)) :
    (t.replaceCoords i s.changes).Shrinks t := by
  refine shrinks_replaceCoords ht hc fun e he => ?_
  have hget : s.get? e.1 = some e.2 := SamplePoint.get?_of_mem_changes he
  obtain ⟨x, hx⟩ := SamplePoint.exists_get? (hs.size ▸ SamplePoint.lt_size_of_get? hget)
  obtain ⟨y, hy, hyx⟩ := hs.coord e.1 x hx
  obtain rfl := Option.some.inj (hget.symm.trans hy)
  exact ⟨x, ((h.placed ht).get?_sample hc e.1).symm.trans hx, hyx⟩

/-! ## New stacks -/

theorem Stacks.siblings {stack : List StackCell} (h : t.Stacks u c stack ids)
    (hstack : Stack.Alternates stack) : u.Siblings ids where
  odd := by
    rw [h.ids_eq, List.length_map, List.length_range]
    exact hstack.odd
  below := by
    rw [h.ids_eq, List.pairwise_map, List.pairwise_iff_getElem]
    intro k l hk hl hkl x hx y hy
    simp only [List.getElem_range, List.length_range] at hx hy hk hl
    rw [h.coordOf?_new (List.getElem?_eq_getElem hk)] at hx
    rw [h.coordOf?_new (List.getElem?_eq_getElem hl)] at hy
    cases hx
    cases hy
    exact List.pairwise_iff_getElem.1 hstack.below k l hk hl hkl

theorem at_stackCell {stack : List StackCell} {k : ℕ} {s : StackCell}
    (hstack : Stack.Alternates stack) (hk : stack[k]? = some s) :
    (t.stackCell c k s).At s.coord where
  coord := rfl
  proper := hstack.proper s (List.mem_of_getElem? hk)
  sector hsector := hstack.sector k s hk (by simpa [Cell.isSection, stackCell] using hsector)
  root hroot := hstack.root k s hk (by simpa [Cell.isSection, stackCell] using hroot)

theorem Ordered.of_stacks {stack : List StackCell} (h : t.Ordered) (ht : t.WellFormed)
    (hs : t.Stacks u c stack ids) (hstack : Stack.Alternates stack) : u.Ordered where
  root hd hp := by
    rcases hs.cases hd with ⟨b, hb, rfl⟩ | ⟨k, s, hk, rfl, rfl⟩
    · have := h.root hb (by rwa [Cell.parent_of_stem (stem_lifted ..)] at hp)
      split_ifs <;> exact this
    · cases hp
  cell hd hp := by
    rcases hs.cases hd with ⟨b, hb, rfl⟩ | ⟨k, s, hk, rfl, rfl⟩
    · obtain ⟨x, hx⟩ := h.cell hb (by rwa [Cell.parent_of_stem (stem_lifted ..)] at hp)
      refine ⟨x, hx.of_shrinks (stem_lifted ..) ?_ (.refl x)⟩
      split_ifs <;> exact hx.coord
    · exact ⟨s.coord, at_stackCell hstack hk⟩
  siblings {j d as} hd has := by
    rcases hs.cases hd with ⟨b, hb, rfl⟩ | ⟨k, s, hk, rfl, rfl⟩
    · split_ifs at has with hj
      · obtain rfl := Option.some.inj has
        exact hs.siblings hstack
      · obtain ⟨hodd, hbelow⟩ := h.siblings hb has
        refine ⟨hodd, hbelow.imp_of_mem fun hi hj hij => ?_⟩
        obtain ⟨a, ha, -⟩ := exists_child ht hb has hi
        obtain ⟨a', ha', -⟩ := exists_child ht hb has hj
        rwa [hs.coordOf?_old ha, hs.coordOf?_old ha']
    · cases has

/-! ## Stacks from left to right -/

/-- The cells of a stack: sectors and sections in turn, in increasing order, with enclosures that
meet in an end at most. -/
structure Ascending (bs : List Cell) : Prop where
  odd : bs.length % 2 = 1
  index : ∀ k (b : Cell), bs[k]? = some b → b.index = k
  stands : ∀ b ∈ bs, ∃ x, b.At x
  below : bs.Pairwise fun b c => ∀ x ∈ b.coord, ∀ y ∈ c.coord, x.Below y
  increase : bs.Pairwise fun b c => ∀ ξ η, b.Denotes ξ → c.Denotes η → ξ < η
  touch : bs.Pairwise fun b c => ∀ x ∈ b.coord, ∀ y ∈ c.coord, x.upper ≤ y.lower

/-- In an ordered tree the cells of the stack over a cell exist and ascend. -/
theorem Ordered.ascending (h : t.Ordered) (ht : t.WellFormed) (hc : t.get? i = some c)
    (hids : c.children = some ids) :
    ∃ bs, List.Forall₂ (fun i b => t.get? i = some b) ids bs ∧ Ascending bs := by
  have hcell : ∀ j ∈ ids, ∃ b, t.get? j = some b ∧ b.parent = some i := fun j hj => by
    obtain ⟨b, hb, hp, -⟩ := exists_child ht hc hids hj
    exact ⟨b, hb, hp⟩
  have hget : ∀ j ∈ ids, t.get? j = some ((t.get? j).getD default) := fun j hj => by
    obtain ⟨b, hb, -⟩ := hcell j hj
    rw [hb, Option.getD_some]
  have hstands : ∀ j ∈ ids, ∃ x, ((t.get? j).getD default).At x := fun j hj => by
    obtain ⟨b, hb, hp⟩ := hcell j hj
    rw [hb, Option.getD_some]
    exact h.cell hb hp
  have hsiblings := h.siblings hc hids
  have hbelow : ids.Pairwise fun j k => ∀ x ∈ ((t.get? j).getD default).coord,
      ∀ y ∈ ((t.get? k).getD default).coord, x.Below y :=
    hsiblings.below.imp_of_mem fun hj hk hjk => by
      rwa [coordOf?_eq (hget _ hj), coordOf?_eq (hget _ hk)] at hjk
  refine ⟨ids.map fun j => (t.get? j).getD default, ?_, ?_, ?_, ?_, ?_, ?_, ?_⟩
  · exact List.forall₂_map_right_iff.2 (List.forall₂_same.2 hget)
  · rw [List.length_map]
    exact hsiblings.odd
  · intro k b hb
    rw [List.getElem?_map, Option.map_eq_some_iff] at hb
    obtain ⟨j, hj, rfl⟩ := hb
    obtain ⟨b, hb, -, hindex⟩ := ht.child hc hids hj
    rw [hb, Option.getD_some, hindex]
  · exact List.forall_mem_map.2 hstands
  · exact List.pairwise_map.2 hbelow
  · refine List.pairwise_map.2 (hbelow.imp fun hjk ξ η hξ hη => ?_)
    obtain ⟨x, v, p, hx, hp, rfl⟩ := hξ
    obtain ⟨y, w, q, hy, hq, rfl⟩ := hη
    exact hjk x hx y hy _ _ hp.allows hq.allows
  · refine List.pairwise_map.2 (hbelow.imp_of_mem fun hj hk hjk x hx y hy => ?_)
    obtain ⟨x', hx'⟩ := hstands _ hj
    obtain ⟨y', hy'⟩ := hstands _ hk
    rw [← Option.some.inj (hx'.coord.symm.trans hx)]
    rw [← Option.some.inj (hy'.coord.symm.trans hy)]
    exact (hjk x' hx'.coord y' hy'.coord).upper_le_lower hx'.proper hy'.proper

end CellTree

end Cylindrical
