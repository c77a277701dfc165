import Mathlib
import Cylindrical.Proofs.CellTree.Growth
import Cylindrical.Proofs.Sample.WorkingCopy

/-!
# Coordinates written back

The cells on the way to a cell own the coordinates of its sample point.  Coordinates that replace
some of them get into the sample points of all cells over the owners, at the levels of the owners,
and nowhere else.  With the changes of a working copy the sample point of the cell becomes the copy.
-/

namespace Cylindrical

namespace Cell

/-- All of a cell but its coordinate. -/
def frame (c : Cell) : Cell := { c with coord := none }

end Cell

namespace CellTree

variable {t u : CellTree} {i j k v depth : ℕ} {c : Cell} {x y : SamplePoint} {Free : Cell → Prop}

/-! ## Ancestors -/

/-- The position of the ancestor of a cell at a depth. -/
def ancestorId? (t : CellTree) (i depth : ℕ) : Option ℕ := (t.ancestorAt? i depth).map (·.id)

/-- Two cells have the same ancestor at a depth. -/
def Shares (t : CellTree) (i j depth : ℕ) : Prop :=
  ∃ k, t.ancestorId? i depth = some k ∧ t.ancestorId? j depth = some k

theorem ancestorId?_eq (t : CellTree) (i depth : ℕ) : t.ancestorId? i depth =
    (((t.lineage i).map Cell.stem).find? (·.depth == depth)).map (·.id) := by
  rw [← ancestorAt?_map_stem, Option.map_map]
  rfl

theorem SameShape.ancestorId? (h : t.SameShape u) (ht : t.Parented) (i depth : ℕ) :
    u.ancestorId? i depth = t.ancestorId? i depth := by
  rw [ancestorId?_eq, ancestorId?_eq, h.map_stem_lineage ht]

theorem SameShape.shares_iff (h : t.SameShape u) (ht : t.Parented) :
    u.Shares i j depth ↔ t.Shares i j depth := by
  rw [Shares, Shares, h.ancestorId? ht, h.ancestorId? ht]

theorem SameShape.path (h : t.SameShape u) (ht : t.Parented) (i : ℕ) : u.path i = t.path i := by
  have hstem : ∀ cs : List Cell, cs.reverse.filterMap (fun c => c.parent.map fun _ => c.index) =
      (cs.map Cell.stem).reverse.filterMap fun c => c.parent.map fun _ => c.index := fun cs => by
    rw [← List.map_reverse, List.filterMap_map]
    rfl
  rw [CellTree.path, CellTree.path, hstem, h.map_stem_lineage ht, ← hstem]

/-- The coordinates of a sample point, from their owners. -/
theorem Placed.get?_sample_eq (h : t.Placed) (i v : ℕ) :
    (t.sample i).get? v = (t.ancestorId? i (v + 1)).bind t.coordOf? := by
  cases hc : t.get? i with
  | some c =>
    rw [h.get?_sample hc, ancestorId?]
    cases ha : t.ancestorAt? i (v + 1) with
    | none => rfl
    | some b => exact (coordOf?_eq (get?_of_ancestorAt? h.toParented ha).2.1).symm
  | none =>
    have hlineage : t.lineage i = [] := by
      rw [lineage, hc, Option.map_none, Option.getD_none, lineageUpTo, hc]
      rfl
    rw [sample, ancestorId?, ancestorAt?, hlineage]
    rfl

theorem exists_of_ancestorId? (h : t.Parented) (hk : t.ancestorId? i depth = some k) :
    ∃ b, t.get? k = some b ∧ b.depth = depth := by
  obtain ⟨b, hb, rfl⟩ := Option.map_eq_some_iff.1 hk
  obtain ⟨-, hget, hdepth⟩ := get?_of_ancestorAt? h hb
  exact ⟨b, hget, hdepth⟩

/-- The ancestor of a cell at a positive depth owns a coordinate. -/
theorem Placed.shares_self_iff (h : t.Placed) (hc : t.get? i = some c) :
    t.Shares i i (v + 1) ↔ v < (t.sample i).size := by
  rw [h.size_sample hc]
  constructor
  · rintro ⟨k, hk, -⟩
    by_contra hle
    rw [ancestorId?, ancestorAt?_eq_none h.toParented hc (by omega)] at hk
    cases hk
  · intro hlt
    obtain ⟨b, hb, -⟩ := exists_ancestorAt? h.toParented hc (show v + 1 ≤ c.depth from hlt)
    exact ⟨b.id, by rw [ancestorId?, hb]; rfl, by rw [ancestorId?, hb]; rfl⟩

/-! ## One coordinate -/

theorem Placed.coordOf?_replaceCoord_eq (h : t.Placed) (i : ℕ) (e : ℕ × Coordinate) (k : ℕ) :
    (t.replaceCoord i e).coordOf? k =
      if t.ancestorId? i (e.1 + 1) = some k then some e.2 else t.coordOf? k := by
  cases ha : t.ancestorAt? i (e.1 + 1) with
  | none => rw [CellTree.replaceCoord, ha, ancestorId?, ha, if_neg (by simp)]
  | some b =>
    rw [coordOf?_replaceCoord ha (get?_of_ancestorAt? h.toParented ha).2.1, ancestorId?, ha]
    simp

/-- A coordinate gets into the sample points of the cells over its owner. -/
theorem Placed.get?_sample_replaceCoord (h : t.Placed) (i : ℕ) (e : ℕ × Coordinate) (j v : ℕ)
    [Decidable (t.Shares i j (v + 1))] : ((t.replaceCoord i e).sample j).get? v =
      if e.1 = v ∧ t.Shares i j (v + 1) then some e.2 else (t.sample j).get? v := by
  rw [(h.replaceCoord i e).get?_sample_eq, h.get?_sample_eq,
    (t.sameShape_replaceCoord i e).ancestorId? h.toParented]
  cases hk : t.ancestorId? j (v + 1) with
  | none =>
    rw [if_neg fun hs => by simp [Shares, hk] at hs]
    rfl
  | some k =>
    rw [Option.bind_some, Option.bind_some, h.coordOf?_replaceCoord_eq]
    refine if_congr ⟨fun hi => ?_, fun ⟨hv, l, hi, hl⟩ => ?_⟩ rfl rfl
    · obtain ⟨b, hb, hdepth⟩ := exists_of_ancestorId? h.toParented hi
      obtain ⟨b', hb', hdepth'⟩ := exists_of_ancestorId? h.toParented hk
      obtain rfl := Option.some.inj (hb.symm.trans hb')
      obtain rfl : e.1 = v := by omega
      exact ⟨rfl, k, hi, hk⟩
    · rw [hv, hi, ← hl, hk]

/-! ## The changes of a sample point -/

/-- The tree `u` is `t` where the sample point of the cell `i` has become `x`, and with it the part
of the other sample points that belongs to common ancestors. -/
structure WrittenBack (t u : CellTree) (i : ℕ) (x : SamplePoint) : Prop where
  coords : (u.sample i).coords = x.coords
  shared : ∀ {j v}, t.Shares i j (v + 1) → (u.sample j).get? v = x.get? v
  apart : ∀ {j v}, ¬t.Shares i j (v + 1) → (u.sample j).get? v = (t.sample j).get? v
  frame : ∀ j, (u.get? j).map Cell.frame = (t.get? j).map Cell.frame
  path : ∀ j, u.path j = t.path j
  atDepth : ∀ d, u.atDepth d = t.atDepth d

theorem frame_replaceCoords (t : CellTree) (i : ℕ) (changes : List (ℕ × Coordinate)) (j : ℕ) :
    ((t.replaceCoords i changes).get? j).map Cell.frame = (t.get? j).map Cell.frame := by
  induction changes generalizing t with
  | nil => rfl
  | cons e es ih =>
    obtain ⟨f, hf⟩ := t.get?_replaceCoord i j e
    rw [replaceCoords, List.foldl_cons, ← replaceCoords, ih, hf, Option.map_map]
    rfl

theorem byDepth_replaceCoords (t : CellTree) (i : ℕ) (changes : List (ℕ × Coordinate)) :
    (t.replaceCoords i changes).byDepth = t.byDepth := by
  induction changes generalizing t with
  | nil => rfl
  | cons e es ih => exact (ih _).trans (t.byDepth_replaceCoord i e)

theorem Placed.coords_sample_replaceCoord (h : t.Placed) (hc : t.get? i = some c)
    (e : ℕ × Coordinate) :
    ((t.replaceCoord i e).sample i).coords = ((t.sample i).set e.1 e.2).coords :=
  List.ext_getElem? fun v => by
    classical
    have hnew := h.get?_sample_replaceCoord i e i v
    have hset := SamplePoint.get?_set (v := e.1) (w := v) (c := e.2) (s := t.sample i)
    refine hnew.trans (Eq.trans (if_congr ?_ rfl rfl) hset.symm)
    rw [h.shares_self_iff hc]
    constructor <;>
    · rintro ⟨rfl, hlt⟩
      exact ⟨rfl, hlt⟩

/-- Where the ancestor is common, the new sample point has the coordinate of the changed one. -/
theorem Placed.get?_sample_replaceCoords (h : t.Placed) (hc : t.get? i = some c)
    (changes : List (ℕ × Coordinate)) (j v : ℕ) [Decidable (t.Shares i j (v + 1))] :
    ((t.replaceCoords i changes).sample j).get? v =
      if t.Shares i j (v + 1) then ((t.sample i).apply changes).get? v
      else (t.sample j).get? v := by
  classical
  induction changes generalizing t c with
  | nil =>
    split_ifs with hs
    · obtain ⟨k, hi, hj⟩ := hs
      rw [SamplePoint.apply, List.foldl_nil, replaceCoords, List.foldl_nil, h.get?_sample_eq,
        h.get?_sample_eq, hi, hj]
    · rfl
  | cons e es ih =>
    have hshape := t.sameShape_replaceCoord i e
    obtain ⟨d, hd, -⟩ := hshape.exists_get? hc
    rw [replaceCoords, List.foldl_cons, ← replaceCoords, ih (h.replaceCoord i e) hd]
    by_cases hs : t.Shares i j (v + 1)
    · rw [if_pos ((hshape.shares_iff h.toParented).2 hs), if_pos hs]
      have hcoords := SamplePoint.coords_apply_congr (h.coords_sample_replaceCoord hc e) es
      exact congrArg (·[v]?) hcoords
    · rw [if_neg (mt (hshape.shares_iff h.toParented).1 hs), if_neg hs,
        h.get?_sample_replaceCoord, if_neg fun hes => hs hes.2]

theorem Placed.writtenBack (h : t.Placed) (hc : t.get? i = some c)
    (changes : List (ℕ × Coordinate)) :
    t.WrittenBack (t.replaceCoords i changes) i ((t.sample i).apply changes) where
  coords := List.ext_getElem? fun v => by
    classical
    have hget := h.get?_sample_replaceCoords hc changes i v
    refine hget.trans ?_
    split_ifs with hs
    · rfl
    · -- there is no such coordinate, before and after
      have hge := not_lt.1 (mt (h.shares_self_iff hc).2 hs)
      rw [SamplePoint.get?, List.getElem?_eq_none hge, List.getElem?_eq_none]
      exact (SamplePoint.size_apply ..).trans_le hge
  shared hs := by
    classical
    rw [h.get?_sample_replaceCoords hc, if_pos hs]
  apart hs := by
    classical
    rw [h.get?_sample_replaceCoords hc, if_neg hs]
  frame := t.frame_replaceCoords i changes
  path := (t.sameShape_replaceCoords i changes).path h.toParented
  atDepth d := by rw [atDepth, byDepth_replaceCoords, atDepth]

/-- The changes of a working copy of a sample point make it the copy. -/
theorem Placed.writtenBack_copy (h : t.Placed) (hc : t.get? i = some c) {es : List PointEdit}
    (hes : PointEdit.Matched es) (hy : y = es.foldl PointEdit.run (t.sample i)) :
    t.WrittenBack (t.replaceCoords i y.changes) i y := by
  have hcopy : SamplePoint.CopyOf (t.sample i).coords 0 (t.sample i) := ⟨rfl, fun _ _ _ => rfl⟩
  have hcoords : ((t.sample i).apply y.changes).coords = y.coords := by
    rw [hy]
    exact (hcopy.foldl_run hes).coords_apply
  have hwritten := h.writtenBack hc y.changes
  exact { hwritten with
    coords := hwritten.coords.trans hcoords
    shared := fun hs => (hwritten.shared hs).trans (congrArg (·[_]?) hcoords) }

/-- Whatever is done to a working copy of a point, the point gets the coordinates of the copy with
its changes.  Changes of a sample point, written back to the owners of the coordinates, give the
cell the changed sample point; the sample points of other cells change at the levels of common
ancestors, and nothing else does. -/
theorem replaceCoords_spec {es : List PointEdit} (hes : PointEdit.Matched es) :
    (∀ x y : SamplePoint, y.coords = x.coords →
      (x.apply (es.foldl PointEdit.run y).changes).coords = (es.foldl PointEdit.run y).coords ∧
        (es.foldl PointEdit.run y).coords = es.foldl PointEdit.onCoords x.coords) ∧
      ∀ t : CellTree, t.Built Free → ∀ i c, t.get? i = some c → ∀ changes,
        t.WrittenBack (t.replaceCoords i changes) i ((t.sample i).apply changes) := by
  refine ⟨fun x y hy => ?_, fun t ht i c hc changes => ht.placed.writtenBack hc changes⟩
  have hcopy : SamplePoint.CopyOf x.coords 0 y :=
    ⟨congrArg List.length hy, fun v _ _ => congrArg (·[v]?) hy⟩
  exact ⟨(hcopy.foldl_run hes).coords_apply, hy ▸ SamplePoint.coords_foldl_run y es⟩

/-- A new coordinate of the section gets into the sample point of the sector over it. -/
theorem replaceCoords_spec_smallTree :
    ((SamplePoint.ofCoords [.rational 1, .rational 2]).apply
      (([.push (.rational 3), .set 1 (.rational 4), .refineAllTo 8, .pop] : List PointEdit).foldl
        PointEdit.run (.ofCoords [.rational 1, .rational 2])).changes).coords =
          [.rational 1, .rational 4] ∧
      ((smallTree.replaceCoords 2 [(0, .rational 7)]).sample 4).get? 0 = some (.rational 7) ∧
      ((smallTree.replaceCoords 2 [(0, .rational 7)]).sample 4).get? 1 =
        (smallTree.sample 4).get? 1 := by
  obtain ⟨hcopy, htree⟩ := @replaceCoords_spec Cell.Childless
    [.push (.rational 3), .set 1 (.rational 4), .refineAllTo 8, .pop] (by decide)
  have hwritten := htree smallTree built_smallTree 2 _ rfl [(0, .rational 7)]
  refine ⟨(hcopy _ _ rfl).1.trans rfl, (hwritten.shared ⟨2, rfl, rfl⟩).trans rfl,
    hwritten.apart fun ⟨k, hk, _⟩ => ?_⟩
  have hnone : smallTree.ancestorId? 2 2 = none := rfl
  exact absurd (hnone.symm.trans hk) (by nofun)

end CellTree

end Cylindrical
