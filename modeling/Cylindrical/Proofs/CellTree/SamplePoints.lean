import Mathlib
import Cylindrical.Proofs.CellTree
import Cylindrical.Proofs.Sample.Denotation

/-!
# Sample points of cells

The root has no coordinate and every other cell has one, so the sample point of a cell has as many
coordinates as the cell has depth, and each of them is that of the ancestor that fixes its variable.
-/

namespace Cylindrical

namespace CellTree

variable {t u : CellTree} {i j : ℕ} {b c : Cell} {ids : List ℕ}

/-! ## Coordinates of cells -/

/-- The coordinate of a cell. -/
def coordOf? (t : CellTree) (i : ℕ) : Option Coordinate := (t.get? i).bind (·.coord)

theorem coordOf?_eq (hc : t.get? i = some c) : t.coordOf? i = c.coord := by rw [coordOf?, hc]; rfl

theorem coordOf?_replaceCoord {e : ℕ × Coordinate} (ha : t.ancestorAt? i (e.1 + 1) = some b)
    (hb : t.get? b.id = some b) (j : ℕ) :
    (t.replaceCoord i e).coordOf? j = if b.id = j then some e.2 else t.coordOf? j := by
  have hmodify : (t.cells.modify b.id fun c => { c with coord := some e.2 })[j]? =
      if b.id = j then (t.cells[j]?).map fun c => { c with coord := some e.2 } else t.cells[j]? :=
    Array.getElem?_modify
  simp only [coordOf?, replaceCoord, ha, get?]
  rw [hmodify]
  split_ifs with hj
  · subst hj
    rw [get?] at hb
    rw [hb]
    rfl
  · rfl

theorem Stacks.coordOf?_new {stack : List StackCell} {k : ℕ} {s : StackCell}
    (h : t.Stacks u c stack ids) (hk : stack[k]? = some s) :
    u.coordOf? (t.size + k) = some s.coord := coordOf?_eq (h.new hk)

theorem Stacks.coordOf?_old {stack : List StackCell} (h : t.Stacks u c stack ids)
    (hb : t.get? j = some b) : u.coordOf? j = t.coordOf? j := by
  rw [coordOf?_eq (h.old hb), coordOf?_eq hb]
  split_ifs <;> rfl

/-! ## Sample points -/

/-- All cells but the root have a coordinate. -/
structure Placed (t : CellTree) : Prop extends Parented t where
  coord_root : ∀ {i c}, t.get? i = some c → c.parent = none → c.coord = none
  coord_child : ∀ {i c p}, t.get? i = some c → c.parent = some p → ∃ x, c.coord = some x

/-- The coordinates of the sample point of a cell are those of the cells on the way to it. -/
theorem Placed.getElem?_coords (h : t.Placed) (hc : t.get? i = some c) :
    ((t.lineage i).reverse.filterMap (·.coord)).length = c.depth ∧
      ∀ v, ((t.lineage i).reverse.filterMap (·.coord))[v]? =
        (t.ancestorAt? i (v + 1)).bind (·.coord) := by
  have ht := h.toParented
  refine lineage_induction (motive := fun i c =>
    ((t.lineage i).reverse.filterMap (·.coord)).length = c.depth ∧
      ∀ v, ((t.lineage i).reverse.filterMap (·.coord))[v]? =
        (t.ancestorAt? i (v + 1)).bind (·.coord)) (fun i c hc ih => ?_) hc
  cases hp : c.parent with
  | none =>
    have hdepth := h.depth_root hc hp
    simp [ancestorAt?, lineage_of_parent_none ht hc hp, h.coord_root hc hp, hdepth]
  | some p =>
    obtain ⟨b, hb, hdepth⟩ := h.depth_child hc hp
    obtain ⟨hlen, hcoords⟩ := ih p b hp hb hdepth
    obtain ⟨x, hx⟩ := h.coord_child hc hp
    have hlineage : (t.lineage i).reverse.filterMap (·.coord) =
        (t.lineage p).reverse.filterMap (·.coord) ++ [x] := by
      rw [lineage_of_parent_some ht hc hp, List.reverse_cons, List.filterMap_append]
      simp [hx]
    refine ⟨by rw [hlineage, List.length_append, hlen, hdepth]; rfl, fun v => ?_⟩
    rw [hlineage, ancestorAt?, lineage_of_parent_some ht hc hp, List.find?_cons]
    rcases eq_or_ne v b.depth with rfl | hv
    · rw [← hlen, List.getElem?_concat_length, hlen, hdepth, beq_self_eq_true, Option.bind_some,
        hx]
    · rw [beq_eq_false_iff_ne.2 (by omega), ← ancestorAt?, ← hcoords]
      rcases lt_or_gt_of_ne hv with hlt | hgt
      · rw [List.getElem?_append_left (by omega)]
      · rw [List.getElem?_eq_none (by rw [List.length_append, hlen]; simpa using hgt),
          List.getElem?_eq_none (by omega)]

theorem Placed.get?_sample (h : t.Placed) (hc : t.get? i = some c) (v : ℕ) :
    (t.sample i).get? v = (t.ancestorAt? i (v + 1)).bind (·.coord) := by
  rw [sample, SamplePoint.get?_ofCoords, (h.getElem?_coords hc).2]

theorem Placed.size_sample (h : t.Placed) (hc : t.get? i = some c) :
    (t.sample i).size = c.depth :=
  (h.getElem?_coords hc).1

end CellTree

end Cylindrical
