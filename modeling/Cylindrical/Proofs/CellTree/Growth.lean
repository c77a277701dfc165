import Mathlib
import Cylindrical.Proofs.CellTree.SamplePoints

/-!
# Growing trees

A tree starts as the root alone.  Stacks are added over cells that are free for one, coordinates are
replaced, and truths are set.  What holds of the root and is kept by these steps holds of every tree
that is built (`CellTree.Built.invariant`): all cells but the root have a coordinate, and the lists
by depth hold all cells.
-/

namespace Cylindrical

/-- There are no cells over the cell. -/
def Cell.Childless (c : Cell) : Prop := c.children.getD [] = []

namespace CellTree

variable {t u : CellTree} {i j d : ℕ} {b c : Cell} {stack : List StackCell} {ids : List ℕ}
  {Free : Cell → Prop}

theorem addStack_eq_error {e : DecompositionError} (h : addStack i stack t = .error e u) :
    u = t := by
  rw [addStack_eq] at h
  dsimp only at h
  split_ifs at h <;> cases h <;> rfl

/-- A stack is stored as a whole, or the tree stays as it is. -/
theorem ends_addStack (hc : t.get? c.id = some c) (stack : List StackCell) :
    Ends (addStack c.id stack) t (fun ids u => t.Stacks u c stack ids) fun u => u = t := by
  rw [Ends]
  cases hrun : addStack c.id stack t with
  | ok ids u => exact stacks_of_addStack hc hrun
  | error e u => exact addStack_eq_error hrun

/-- The trees that come about from the root alone by adding stacks over free cells, whether this
fails or not, by replacing coordinates and by setting truths. -/
inductive Built (Free : Cell → Prop) : CellTree → Prop
  | root (dimension maxCells : ℕ) : Built Free { dimension, maxCells }
  | addStack {t : CellTree} {c : Cell} (h : Built Free t) (hc : t.get? c.id = some c)
      (hfree : Free c) (stack : List StackCell) : Built Free (stateAfter (addStack c.id stack t))
  | replaceCoords {t : CellTree} (h : Built Free t) (i : ℕ) (changes : List (ℕ × Coordinate)) :
      Built Free (t.replaceCoords i changes)
  | setTruth {t : CellTree} (h : Built Free t) (i : ℕ) (truth : Option Bool) :
      Built Free (t.setTruth i truth)

/-- What holds of the root alone and is kept by each step holds of the trees that are built. -/
theorem Built.invariant {P : CellTree → Prop} (h : t.Built Free)
    (onRoot : ∀ dimension maxCells, P { dimension, maxCells })
    (onStack : ∀ {t u : CellTree} {c : Cell} {stack : List StackCell} {ids : List ℕ}, P t →
      t.get? c.id = some c → Free c → t.Stacks u c stack ids → P u)
    (onCoord : ∀ {t : CellTree} i e, P t → P (t.replaceCoord i e))
    (onTruth : ∀ {t : CellTree} i v, P t → P (t.setTruth i v)) : P t := by
  induction h with
  | root dimension maxCells => exact onRoot dimension maxCells
  | addStack h hc hfree stack ih =>
    refine Ends.stateAfter ((ends_addStack hc stack).mono (fun ids u hs => ?_) fun u hu => ?_)
    · exact onStack ih hc hfree hs
    · exact hu ▸ ih
  | replaceCoords h i changes ih =>
    exact List.foldlRecOn (motive := P) changes _ ih fun t ht e _ => onCoord i e ht
  | setTruth h i truth ih => exact onTruth i truth ih

/-! ## Coordinates -/

theorem placed_root (dimension maxCells : ℕ) : ({ dimension, maxCells } : CellTree).Placed where
  toParented := (wellFormed_root dimension maxCells).parented
  coord_root h _ := by
    obtain ⟨-, rfl⟩ := eq_of_get?_root h
    rfl
  coord_child h hp := by
    obtain ⟨-, rfl⟩ := eq_of_get?_root h
    cases hp

theorem Placed.of_stacks (h : t.Placed) (hc : t.get? c.id = some c)
    (hs : t.Stacks u c stack ids) : u.Placed where
  toParented := hs.parented h.toParented hc
  coord_root hd hp := by
    rcases hs.cases hd with ⟨b, hb, rfl⟩ | ⟨k, s, -, rfl, rfl⟩
    · have := h.coord_root hb (by rwa [Cell.parent_of_stem (stem_lifted ..)] at hp)
      split_ifs <;> exact this
    · cases hp
  coord_child hd hp := by
    rcases hs.cases hd with ⟨b, hb, rfl⟩ | ⟨k, s, -, rfl, rfl⟩
    · have := h.coord_child hb (by rwa [Cell.parent_of_stem (stem_lifted ..)] at hp)
      split_ifs <;> exact this
    · exact ⟨s.coord, rfl⟩

/-- Trees of one shape where the same cells have coordinates. -/
theorem Placed.of_sameShape (h : t.Placed) (hu : t.SameShape u)
    (hcoord : ∀ {i c}, t.get? i = some c → ((u.coordOf? i).isSome ↔ c.coord.isSome)) :
    u.Placed where
  toParented := hu.parented h.toParented
  coord_root {i d} hd hp := by
    obtain ⟨c, hc, hs, -⟩ := hu.symm.exists_get? hd
    have hnone := hcoord hc
    rw [coordOf?_eq hd, h.coord_root hc ((Cell.parent_of_stem hs).trans hp)] at hnone
    simpa using hnone
  coord_child {i d p} hd hp := by
    obtain ⟨c, hc, hs, -⟩ := hu.symm.exists_get? hd
    obtain ⟨x, hx⟩ := h.coord_child hc ((Cell.parent_of_stem hs).trans hp)
    have hsome := hcoord hc
    rw [coordOf?_eq hd, hx] at hsome
    exact Option.isSome_iff_exists.1 (hsome.2 rfl)

theorem Placed.replaceCoord (h : t.Placed) (i : ℕ) (e : ℕ × Coordinate) :
    (t.replaceCoord i e).Placed := by
  refine h.of_sameShape (t.sameShape_replaceCoord i e) fun {j c} hc => ?_
  cases ha : t.ancestorAt? i (e.1 + 1) with
  | none =>
    rw [CellTree.replaceCoord, ha, coordOf?_eq hc]
  | some b =>
    obtain ⟨-, hb, hdepth⟩ := get?_of_ancestorAt? h.toParented ha
    rw [coordOf?_replaceCoord ha hb]
    split_ifs with hj
    · -- the root owns no coordinate
      obtain rfl := Option.some.inj ((hj ▸ hb).symm.trans hc)
      cases hp : b.parent with
      | none => exact absurd (h.depth_root hb hp) (by omega)
      | some p =>
        obtain ⟨x, hx⟩ := h.coord_child hb hp
        simp [hx]
    · rw [coordOf?_eq hc]

theorem coordOf?_setTruth (t : CellTree) (i : ℕ) (v : Option Bool) (j : ℕ) :
    (t.setTruth i v).coordOf? j = t.coordOf? j := by
  rw [coordOf?, coordOf?, get?_setTruth]
  split_ifs
  · rw [Option.bind_map]
    rfl
  · rfl

/-- In every tree that is built all cells but the root have a coordinate. -/
theorem Built.placed (h : t.Built Free) : t.Placed :=
  h.invariant placed_root (fun ht hc _ hs => ht.of_stacks hc hs)
    (fun i e ht => ht.replaceCoord i e) fun {t} i v ht =>
      ht.of_sameShape (t.sameShape_setTruth i v) fun {j c} hc => by
        rw [coordOf?_setTruth, coordOf?_eq hc]

/-! ## Lists by depth -/

/-- The cells of a depth, from the oldest to the newest. -/
def ofDepth (t : CellTree) (d : ℕ) : List ℕ :=
  (List.range t.size).filter fun i => (t.get? i).any (·.depth == d)

/-- For each depth there is a list of its cells. -/
structure Levelled (t : CellTree) : Prop where
  size_byDepth : t.byDepth.size = t.dimension + 1
  depth_le : ∀ {i c}, t.get? i = some c → c.depth ≤ t.dimension
  atDepth : ∀ d, t.atDepth d = t.ofDepth d

theorem levelled_root (dimension maxCells : ℕ) :
    ({ dimension, maxCells } : CellTree).Levelled where
  size_byDepth := by simp; omega
  depth_le h := by
    obtain ⟨-, rfl⟩ := eq_of_get?_root h
    exact Nat.zero_le _
  atDepth d := by
    rw [CellTree.atDepth, Array.getD_eq_getD_getElem?]
    cases d with
    | zero =>
      rw [Array.getElem?_append_left Nat.zero_lt_one]
      rfl
    | succ d =>
      rw [Array.getElem?_append_right (Nat.succ_pos d), Array.getElem?_replicate]
      split_ifs <;> rfl

theorem SameShape.ofDepth (h : t.SameShape u) (d : ℕ) : u.ofDepth d = t.ofDepth d := by
  rw [CellTree.ofDepth, CellTree.ofDepth, h.size]
  refine List.filter_congr fun i _ => ?_
  have hi := congrArg (Option.any (·.depth == d)) (h.shape i)
  rw [Option.any_map, Option.any_map] at hi
  exact hi

theorem byDepth_replaceCoord (t : CellTree) (i : ℕ) (e : ℕ × Coordinate) :
    (t.replaceCoord i e).byDepth = t.byDepth := by
  rw [replaceCoord]
  split <;> rfl

theorem Levelled.of_sameShape (h : t.Levelled) (hu : t.SameShape u) (hd : u.byDepth = t.byDepth) :
    u.Levelled where
  size_byDepth := by rw [hd, hu.dimension, h.size_byDepth]
  depth_le hc := by
    obtain ⟨b, hb, hs, -⟩ := hu.symm.exists_get? hc
    rw [hu.dimension, ← Cell.depth_of_stem hs]
    exact h.depth_le hb
  atDepth d := by rw [hu.ofDepth, CellTree.atDepth, hd, ← CellTree.atDepth, h.atDepth]

theorem Levelled.of_stacks (h : t.Levelled) (hs : t.Stacks u c stack ids) : u.Levelled where
  size_byDepth := by rw [hs.byDepth, Array.size_modify, hs.dimension, h.size_byDepth]
  depth_le hd := by
    rw [hs.dimension]
    rcases hs.cases hd with ⟨b, hb, rfl⟩ | ⟨k, s, -, rfl, rfl⟩
    · rw [Cell.depth_of_stem (stem_lifted ..)]
      exact h.depth_le hb
    · exact hs.depth_lt
  atDepth d := by
    have hmodify : u.atDepth d =
        if c.depth + 1 = d then t.atDepth d ++ ids else t.atDepth d := by
      have hlt : c.depth + 1 < t.byDepth.size := by
        rw [h.size_byDepth]
        exact Nat.succ_lt_succ hs.depth_lt
      rw [CellTree.atDepth, hs.byDepth, Array.getD_eq_getD_getElem?, Array.getElem?_modify,
        CellTree.atDepth, Array.getD_eq_getD_getElem?]
      split_ifs with hd
      · rw [← hd, Array.getElem?_eq_getElem hlt]
        simp
      · rfl
    have hold : (List.range t.size).filter (fun i => (u.get? i).any (·.depth == d)) =
        t.ofDepth d := List.filter_congr fun i hi => by
      obtain ⟨b, hb⟩ := lt_size_iff.1 (List.mem_range.1 hi)
      rw [hs.old hb, hb, Option.any_some, Option.any_some, Cell.depth_of_stem (stem_lifted ..)]
    have hnew : ∀ i ∈ ids, (u.get? i).any (·.depth == d) = (c.depth + 1 == d) := fun i hi => by
      obtain ⟨k, s, hk, rfl⟩ := hs.mem_ids.1 hi
      rw [hs.new hk]
      rfl
    have happend : u.ofDepth d = t.ofDepth d ++ ids.filter fun _ => c.depth + 1 == d := by
      rw [CellTree.ofDepth, hs.size, List.range_add, List.filter_append, hold, ← hs.ids_eq,
        List.filter_congr hnew]
    rw [hmodify, h.atDepth, happend]
    split_ifs with hd
    · simp [hd]
    · simp [hd]

/-- In every tree that is built the lists by depth hold all cells. -/
theorem Built.levelled (h : t.Built Free) : t.Levelled :=
  h.invariant levelled_root (fun ht _ _ hs => ht.of_stacks hs)
    (fun {t} i e ht => ht.of_sameShape (t.sameShape_replaceCoord i e) (t.byDepth_replaceCoord i e))
    fun {t} i v ht => ht.of_sameShape (t.sameShape_setTruth i v) rfl

/-! ## A small tree -/

/-- A sector, a section and a sector, and one sector over the section. -/
def smallTree : CellTree :=
  stateAfter (addStack 2 [⟨.rational 5, [], []⟩]
    (stateAfter (addStack 0 [⟨.rational (-1), [], []⟩, ⟨.rational 0, [], []⟩, ⟨.rational 1, [], []⟩]
      { dimension := 2, maxCells := 5 })))

theorem built_smallTree : smallTree.Built Cell.Childless := by
  have hroot : Built Cell.Childless { dimension := 2, maxCells := 5 } := .root 2 5
  have hstack := hroot.addStack (c := { id := 0 }) rfl rfl
    [⟨.rational (-1), [], []⟩, ⟨.rational 0, [], []⟩, ⟨.rational 1, [], []⟩]
  exact hstack.addStack (c := { id := 2, parent := some 0, depth := 1, index := 1,
                                coord := some (.rational 0) }) rfl rfl [⟨.rational 5, [], []⟩]

end CellTree

end Cylindrical
