import Mathlib
import Cylindrical.Proofs.Decomposition.Runs

/-!
# Truth as a fold over the tree

The truth of the formula on a cell is that of the matrix where the matrix is decided, and otherwise
the fold of the truths over the stack by the quantifier of the level.  With the short circuit this
is the truth stored on every cell in every state that calls leave behind; without it the stored
truths agree with the fold, and a quantified cell is decided once all cells over it are.
-/

namespace Cylindrical

namespace Decomposition

/-- The fold of the truth over the tree from a cell on, through `n` levels. -/
def foldedTruthUpTo (d : Decomposition) : ℕ → ℕ → Option Bool
  | 0, i => d.matrixTruth? i
  | n + 1, i => (d.matrixTruth? i).or <| (d.tree.get? i).bind fun c => c.children.bind fun ids =>
      foldTruth (d.quantifier c.depth) (ids.map (foldedTruthUpTo d n))

/-- The truth of the matrix on a cell, or else the fold of the truths over it by the quantifier of
its level. -/
def foldedTruth (d : Decomposition) (i : ℕ) : Option Bool :=
  d.foldedTruthUpTo (d.tree.dimension + 1 - ((d.tree.get? i).map (·.depth)).getD 0) i

variable {d e : Decomposition} {i : ℕ} {c : Cell} {b : Bool}

theorem foldedTruth_eq (h : d.Consistent) (hc : d.tree.get? i = some c) :
    d.foldedTruth i = (d.matrixTruth? i).or
      (c.children.bind fun ids => foldTruth (d.quantifier c.depth) (ids.map d.foldedTruth)) := by
  have hdepth := h.tree.depth_le hc
  rw [foldedTruth, hc, Option.map_some, Option.getD_some,
    show d.tree.dimension + 1 - c.depth = d.tree.dimension - c.depth + 1 by omega,
    foldedTruthUpTo, hc, Option.bind_some]
  cases hids : c.children with
  | none => rfl
  | some ids =>
    rw [Option.bind_some, Option.bind_some]
    refine congrArg (fun ts => (d.matrixTruth? i).or (foldTruth _ ts))
      (List.map_congr_left fun j hj => ?_)
    obtain ⟨a, ha, -, hd⟩ := CellTree.exists_child h.tree hc hids hj
    rw [foldedTruth, ha, Option.map_some, Option.getD_some, hd, Nat.add_sub_add_right]

/-- What is stored on a cell is the fold. -/
theorem foldedTruth_of_truth (h : d.Consistent) (hl : d.Labelled) (hc : d.tree.get? i = some c)
    (hb : c.truth = some b) : d.foldedTruth i = some b := by
  refine CellTree.children_induction (motive := fun i c => ∀ b, c.truth = some b →
    d.foldedTruth i = some b) h.tree (fun i c hc ih b hb => ?_) hc b hb
  rw [foldedTruth_eq h hc]
  rcases Option.or_eq_some_iff.1 ((hl i hc).symm.trans hb) with hm | ⟨hm, hs⟩
  · rw [hm, Option.some_or]
  · rw [hm, Option.none_or]
    cases hids : c.children with
    | none =>
      rw [stackTruth?_of_leaf hids] at hs
      cases hs
    | some ids =>
      rw [stackTruth?_of_children hids] at hs
      have hfold : truthFrom true (d.quantifier c.depth) (ids.map d.tree.truthOf) = some b := by
        cases hsc : d.config.shortCircuit with
        | true => rwa [hsc] at hs
        | false =>
          rw [hsc] at hs
          exact truthFrom_false _ hs
      rw [Option.bind_some, ← truthFrom_true]
      refine truthFrom_mono _ (List.forall₂_map_left_iff.2 (List.forall₂_map_right_iff.2
        (List.forall₂_same.2 fun j hj v hv => ?_))) hfold
      obtain ⟨a, ha, -, hd⟩ := CellTree.exists_child h.tree hc hids hj
      exact ih ids j a hids hj ha hd v ((CellTree.truthOf_eq ha).symm.trans hv)

/-- With the short circuit the fold is stored on every cell. -/
theorem truth_eq_foldedTruth (h : d.Consistent) (hl : d.Labelled)
    (hsc : d.config.shortCircuit = true) (hc : d.tree.get? i = some c) :
    c.truth = d.foldedTruth i := by
  refine CellTree.children_induction (motive := fun i c => c.truth = d.foldedTruth i) h.tree
    (fun i c hc ih => ?_) hc
  rw [foldedTruth_eq h hc, hl i hc]
  refine congrArg (Option.or _) ?_
  cases hids : c.children with
  | none => rw [stackTruth?_of_leaf hids, Option.bind_none]
  | some ids =>
    rw [stackTruth?_of_children hids, hsc, truthFrom_true, Option.bind_some]
    refine congrArg _ (List.map_congr_left fun j hj => ?_)
    obtain ⟨a, ha, -, hd⟩ := CellTree.exists_child h.tree hc hids hj
    rw [CellTree.truthOf_eq ha, ih ids j a hids hj ha hd]

/-- Without the short circuit a quantified cell on which the matrix is not decided is decided once
it is lifted and all cells over it are decided. -/
theorem truth_isSome_iff {q : Quantifier} (hl : d.Labelled) (hsc : d.config.shortCircuit = false)
    (hc : d.tree.get? i = some c) (hq : d.quantifier c.depth = some q)
    (hm : d.matrixTruth? i = none) :
    c.truth.isSome = true ↔
      ∃ ids, c.children = some ids ∧ ∀ j ∈ ids, (d.tree.truthOf j).isSome = true := by
  rw [hl i hc, hm, Option.none_or]
  cases hids : c.children with
  | none =>
    rw [stackTruth?_of_leaf hids]
    exact ⟨nofun, nofun⟩
  | some ids =>
    rw [stackTruth?_of_children hids, hsc, hq, truthFrom_false_isSome, List.forall_mem_map]
    exact ⟨fun h => ⟨ids, rfl, h⟩, fun ⟨_, h, hall⟩ => Option.some.inj h ▸ hall⟩

/-- In every state that calls leave behind, the truths on the cells are the fold with the short
circuit, and part of it without. -/
theorem truths_of_reachable {cfg : Config} {algebra : AlgebraSystem} {names : VariableTable}
    {f : Formula} (h : ofFormula cfg algebra names f = .ok d) (he : Reachable d e) :
    (∀ {i c}, e.tree.get? i = some c → e.foldedTruth i = (e.matrixTruth? i).or
      (c.children.bind fun ids => foldTruth (e.quantifier c.depth) (ids.map e.foldedTruth))) ∧
    (cfg.shortCircuit = true → ∀ {i c}, e.tree.get? i = some c → c.truth = e.foldedTruth i) ∧
    (cfg.shortCircuit = false → ∀ {i c}, e.tree.get? i = some c →
      (∀ b, c.truth = some b → e.foldedTruth i = some b) ∧
      ((e.quantifier c.depth).isSome = true → e.matrixTruth? i = none →
        (c.truth.isSome = true ↔
          ∃ ids, c.children = some ids ∧ ∀ j ∈ ids, (e.tree.truthOf j).isSome = true))) := by
  have hs := sound_of_reachable h he
  refine ⟨fun hc => foldedTruth_eq hs.consistent hc, fun hsc _ _ hc => ?_,
    fun hsc _ _ hc => ⟨fun _ hb => ?_, fun hq hm => ?_⟩⟩
  · exact truth_eq_foldedTruth hs.consistent hs.labelled (hs.config ▸ hsc) hc
  · exact foldedTruth_of_truth hs.consistent hs.labelled hc hb
  · obtain ⟨q, hq⟩ := Option.isSome_iff_exists.1 hq
    exact truth_isSome_iff hs.labelled (hs.config ▸ hsc) hc hq hm

/-- For every `x` that is positive there is a positive `y`: after a call that fails and one that
lifts all cells, the truth on each of them is the fold. -/
theorem truths_of_reachable_positive : ∃ d e : Decomposition,
    ofFormula {} {} (.ofNames ["x", "y"]) (.quantified .forall [0] (.quantified .exists [1]
      (.or [.atom (.var 0) .le, .atom (.var 1) .gt]))) = .ok d ∧ Reachable d e ∧
    e.tree.size = 7 ∧ ∀ {i c}, e.tree.get? i = some c → c.truth = e.foldedTruth i := by
  have hd : ofFormula {} {} (.ofNames ["x", "y"]) (.quantified .forall [0]
      (.quantified .exists [1] (.or [.atom (.var 0) .le, .atom (.var 1) .gt]))) = .ok _ := rfl
  exact ⟨_, _, hd, .step .lift (.step (.liftPath [5]) .refl), by decide +kernel,
    (truths_of_reachable hd (.step .lift (.step (.liftPath [5]) .refl))).2.1 rfl⟩

end Decomposition

end Cylindrical
