import Mathlib
import Cylindrical.Proofs.Decomposition.FoldedTruth
import Cylindrical.Proofs.Decomposition.Worklist

/-!
# Trees that agree

Two runs on one sentence, with and without the short circuit say, lift different cells.  Which cells
they lift has no influence on the answer: if the runs end with one projection, and the trees agree
on the cells that both of them have, the answers are equal.
-/

namespace Cylindrical

/-! ## Places in two trees -/

namespace CellTree

variable {t u : CellTree} {i j : ℕ} {b c : Cell}

/-- Cells on the same path have the same signature, and equally many cells over them if both are
lifted. -/
def Agree (t u : CellTree) : Prop :=
  ∀ c ∈ t.cells, ∀ b ∈ u.cells, t.path c.id = u.path b.id →
    c.signature = b.signature ∧ ∀ ids ∈ c.children, ∀ js ∈ b.children, ids.length = js.length

instance : Decidable (Agree t u) :=
  inferInstanceAs (Decidable (∀ c ∈ t.cells, ∀ b ∈ u.cells, t.path c.id = u.path b.id →
    c.signature = b.signature ∧ ∀ ids ∈ c.children, ∀ js ∈ b.children, ids.length = js.length))

theorem Agree.of_get? (h : t.Agree u) (ht : t.WellFormed) (hu : u.WellFormed)
    (hc : t.get? i = some c) (hb : u.get? j = some b) (hpath : t.path i = u.path j) :
    c.signature = b.signature ∧ ∀ ids ∈ c.children, ∀ js ∈ b.children, ids.length = js.length := by
  refine h c (Array.mem_of_getElem? hc) b (Array.mem_of_getElem? hb) ?_
  rw [ht.id_eq hc, hu.id_eq hb, hpath]

/-- Two cells on the same path, on which the factors have the same signs. -/
structure SamePlace (t u : CellTree) (i j : ℕ) (c b : Cell) : Prop where
  left : t.get? i = some c
  right : u.get? j = some b
  path : t.path i = u.path j
  depth : c.depth = b.depth
  factorSign : t.factorSign i = u.factorSign j

theorem samePlace_root (ht : t.WellFormed) (hu : u.WellFormed) (hc : t.get? 0 = some c)
    (hb : u.get? 0 = some b) : SamePlace t u 0 0 c b := by
  have hpc := root_parent ht hc
  have hpb := root_parent hu hb
  obtain ⟨-, hdc⟩ := ht.parent_none hc hpc
  obtain ⟨-, hdb⟩ := hu.parent_none hb hpb
  refine ⟨hc, hb, ?_, hdc.trans hdb.symm, funext fun f => ?_⟩
  · rw [path_of_parent_none ht.parented hc hpc, path_of_parent_none hu.parented hb hpb]
  · rw [CellTree.factorSign, CellTree.factorSign, ancestorAt?, ancestorAt?,
      lineage_of_parent_none ht.parented hc hpc,
      lineage_of_parent_none hu.parented hb hpb]
    simp [hdc, hdb]

/-- In trees that agree the cells over two cells are side by side. -/
theorem SamePlace.child {ids js : List ℕ} {k i' j' : ℕ} (hs : SamePlace t u i j c b)
    (h : t.Agree u) (ht : t.WellFormed) (hu : u.WellFormed) (hids : c.children = some ids)
    (hjs : b.children = some js) (hi : ids[k]? = some i') (hj : js[k]? = some j') :
    ∃ c' b', c'.depth = c.depth + 1 ∧ SamePlace t u i' j' c' b' := by
  obtain ⟨c', hc', hpc, hdc⟩ := exists_child ht hs.left hids (List.mem_of_getElem? hi)
  obtain ⟨b', hb', hpb, hdb⟩ := exists_child hu hs.right hjs (List.mem_of_getElem? hj)
  have hpath : t.path i' = u.path j' := by
    rw [path_child ht hs.left hids hi, path_child hu hs.right hjs hj, hs.path]
  have hdepth : c'.depth = b'.depth := by rw [hdc, hdb, hs.depth]
  obtain ⟨hsig, -⟩ := h.of_get? ht hu hc' hb' hpath
  refine ⟨c', b', hdc, hc', hb', hpath, hdepth, funext fun f => ?_⟩
  rw [factorSign_child ht hc' hpc, factorSign_child hu hb' hpb, hdepth, hsig, hs.factorSign]

end CellTree

namespace Decomposition

open CellTree

variable {d e : Decomposition} {i j : ℕ} {b c : Cell}

/-! ## The fold over both trees -/

/-- Over trees that agree the folds are not decided in different ways. -/
theorem foldedTruth_agree {v w : Bool} (hd : d.Consistent) (he : e.Consistent)
    (hf : e.formula = d.formula) (hp : e.projection = d.projection) (ht : d.tree.Agree e.tree)
    (hs : SamePlace d.tree e.tree i j c b) (hv : d.foldedTruth i = some v)
    (hw : e.foldedTruth j = some w) : v = w := by
  -- on the way up the first tree, for all cells of the second one in the same place
  refine children_induction (motive := fun i c => ∀ j b v w, SamePlace d.tree e.tree i j c b →
    d.foldedTruth i = some v → e.foldedTruth j = some w → v = w) hd.tree
    (fun i c _ ih j b v w hs hv hw => ?_) hs.left j b v w hs hv hw
  have hmatrix : e.matrixTruth? j = d.matrixTruth? i := matrixTruth?_congr hf hp hs.factorSign.symm
  rw [foldedTruth_eq hd hs.left] at hv
  rw [foldedTruth_eq he hs.right, hmatrix] at hw
  cases hm : d.matrixTruth? i with
  | some x =>
    rw [hm, Option.some_or] at hv hw
    exact Option.some.inj (hv.symm.trans hw)
  | none =>
    rw [hm, Option.none_or] at hv hw
    obtain ⟨ids, hids, hv⟩ := Option.bind_eq_some_iff.1 hv
    obtain ⟨js, hjs, hw⟩ := Option.bind_eq_some_iff.1 hw
    have hq : e.quantifier b.depth = d.quantifier c.depth := by
      rw [quantifier, quantifier, hf, hs.depth]
    rw [hq] at hw
    obtain ⟨-, hlen⟩ := ht.of_get? hd.tree he.tree hs.left hs.right hs.path
    refine foldTruth_agree _ (List.forall₂_map_left_iff.2 (List.forall₂_map_right_iff.2
      (List.forall₂_iff_get.2 ⟨hlen ids hids js hjs, fun k hk hk' v w hv hw => ?_⟩))) hv hw
    have hi : ids[k]? = some (ids.get ⟨k, hk⟩) := List.getElem?_eq_getElem hk
    have hj : js[k]? = some (js.get ⟨k, hk'⟩) := List.getElem?_eq_getElem hk'
    obtain ⟨c', b', hdepth, hs'⟩ := hs.child ht hd.tree he.tree hids hjs hi hj
    exact ih ids _ c' hids (List.mem_of_getElem? hi) hs'.left hdepth _ b' v w hs' hv hw

variable {cfg cfg' : Config} {p : Prenex}

/-- States for one formula do not decide it in different ways, if their projections are equal and
their trees agree. -/
theorem truth_agree {v w : Bool} (hd : Sound cfg p d) (he : Sound cfg' p e)
    (hp : e.projection = d.projection) (ht : d.tree.Agree e.tree) (hv : d.truth = some v)
    (hw : e.truth = some w) : v = w := by
  obtain ⟨c, hc⟩ := hd.consistent.tree.root
  obtain ⟨b, hb⟩ := he.consistent.tree.root
  rw [truth, root, hc] at hv
  rw [truth, root, hb] at hw
  exact foldedTruth_agree hd.consistent he.consistent (he.formula.trans hd.formula.symm) hp ht
    (samePlace_root hd.consistent.tree he.consistent.tree hc hb)
    (foldedTruth_of_truth hd.consistent hd.labelled hc hv)
    (foldedTruth_of_truth he.consistent he.labelled hb hw)

/-! ## Two runs -/

theorem sound_of_solve {o : Option Bool} (hd : Sound cfg p d) (h : solve d = .ok o e) :
    Sound cfg p e :=
  ((kept_sound cfg p).ends_liftAll (fun h _ => h.pop _) hd).of_ok (solve_eq_ok h).1

end Decomposition

end Cylindrical
