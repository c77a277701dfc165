import Mathlib
import Cylindrical.Decomposition.Lifting
import Cylindrical.Proofs.CellTree
import Cylindrical.Proofs.Formula.Truth
import Cylindrical.Proofs.Projection.Closed

/-!
# Consistent decompositions

In a consistent decomposition the tree is well-formed, and the signs of all factors of its level are
known on each cell but the root.  The matrix is then decided on every cell that fixes all variables.
-/

namespace Cylindrical

namespace Link

variable {sign : FactorRef → Option Sign}

theorem evalFactors_isSome {fs : List (FactorRef × ℕ)} (h : ∀ f ∈ fs, (sign f.1).isSome = true)
    {s : Option Sign} (hs : s.isSome = true) : (evalFactors sign s fs).isSome = true := by
  induction fs generalizing s with
  | nil => exact hs
  | cons f fs ih =>
    obtain ⟨t, ht⟩ := Option.isSome_iff_exists.1 (h f (.head _))
    have hlater := fun s hs => ih (fun g hg => h g (.tail _ hg)) (s := s) hs
    rw [evalFactors, ht]
    cases t with
    | zero => rfl
    | negative => exact hlater _ (by rw [Option.isSome_map, hs])
    | positive => exact hlater _ (by rw [Option.isSome_map, hs])

/-- A link over factors with known signs has a sign. -/
theorem eval_isSome {l : Link} (h : ∀ f ∈ l.factors, (sign f.1).isSome = true) :
    (l.eval sign).isSome = true := by
  rw [eval]
  split_ifs
  · rfl
  · exact evalFactors_isSome h rfl

end Link

namespace Projection

theorem LinkClosed.level_lt {levels : List (List ProjectionFactor)} {l : Link}
    (h : LinkClosed levels l) {f : FactorRef × ℕ} (hf : f ∈ l.factors) :
    f.1.level < levels.length := by
  by_contra hge
  have hlt := h f hf
  rw [List.getD_eq_getElem?_getD, List.getElem?_eq_none (not_lt.1 hge)] at hlt
  exact Nat.not_lt_zero _ hlt

end Projection

theorem lookup_zip_isSome {α β : Type} [BEq α] [LawfulBEq α] {xs : List α} {ys : List β}
    (h : ys.length = xs.length) {x : α} (hx : x ∈ xs) : ((xs.zip ys).lookup x).isSome = true := by
  induction xs generalizing ys with
  | nil => cases hx
  | cons a xs ih =>
    cases ys with
    | nil => cases h
    | cons b ys =>
      rw [List.zip_cons_cons, List.lookup_cons]
      cases hxa : x == a with
      | true => rfl
      | false =>
        rcases List.mem_cons.1 hx with rfl | hx
        · rw [beq_self_eq_true] at hxa
          cases hxa
        · exact ih (Nat.succ.inj h) hx

namespace Decomposition

/-- The signs of all factors of its level are known on a cell that fixes a variable. -/
def Signed (p : Projection) (c : Cell) : Prop :=
  0 < c.depth → ∃ signs : List Sign,
    c.signature = signs.map some ∧ signs.length = (p.factors (c.depth - 1)).length

/-- Formula, projection and tree belong together. -/
structure Consistent (d : Decomposition) : Prop where
  tree : d.tree.WellFormed
  dimension : d.tree.dimension = d.size
  maxCells : d.tree.maxCells = d.config.maxCells
  quantifierFree : d.formula.matrix.isQuantifierFree = true
  projected : ∀ {p links}, d.projection = some (p, links) →
    p.Closed ∧ p.levels.length = d.size ∧ links.length = d.formula.atoms.length
  signed : ∀ {p links i c}, d.projection = some (p, links) → d.tree.get? i = some c → Signed p c

/-- Formula, projection and limits are the same. -/
structure SameTask (d e : Decomposition) : Prop where
  config : e.config = d.config
  formula : e.formula = d.formula
  projection : e.projection = d.projection

variable {d e : Decomposition} {i : ℕ} {c : Cell}

theorem SameTask.refl (d : Decomposition) : SameTask d d := ⟨rfl, rfl, rfl⟩

theorem SameTask.trans {f : Decomposition} (h₁ : SameTask d e) (h₂ : SameTask e f) :
    SameTask d f :=
  ⟨h₂.config.trans h₁.config, h₂.formula.trans h₁.formula, h₂.projection.trans h₁.projection⟩

theorem SameTask.size (h : SameTask d e) : e.size = d.size := congrArg Prenex.size h.formula

theorem SameTask.quantifier (h : SameTask d e) (level : ℕ) :
    e.quantifier level = d.quantifier level := by
  rw [Decomposition.quantifier, Decomposition.quantifier, h.formula]

/-! ## The matrix -/

/-- The truth of the matrix on a cell hangs on the signs of the factors there alone. -/
theorem matrixTruth?_congr {j : ℕ} (hf : e.formula = d.formula) (hp : e.projection = d.projection)
    (hs : e.tree.factorSign j = d.tree.factorSign i) : e.matrixTruth? j = d.matrixTruth? i := by
  have hlink : ∀ p, linkSign e.tree p j = linkSign d.tree p i := fun p => by
    funext link
    rw [linkSign, linkSign, hs]
  rw [matrixTruth?, matrixTruth?, hp, hf]
  simp only [hlink]

/-- The truth of the matrix on a cell stays while the tree grows. -/
theorem SameTask.matrixTruth?_eq (h : SameTask d e) (hd : d.tree.WellFormed)
    (he : e.tree.WellFormed) (hext : d.tree.Extends e.tree) (hc : d.tree.get? i = some c) :
    e.matrixTruth? i = d.matrixTruth? i :=
  matrixTruth?_congr h.formula h.projection (hext.factorSign_eq hd he hc)

theorem Consistent.factorSign_isSome (h : d.Consistent) {p : Projection} {links : List ℕ}
    (hp : d.projection = some (p, links)) (hc : d.tree.get? i = some c) (hd : c.depth = d.size)
    {f : FactorRef} (hlevel : f.level < d.size) (hindex : f.index < (p.factors f.level).length) :
    (d.tree.factorSign i f).isSome = true := by
  obtain ⟨b, hb, hget, hdepth⟩ :=
    CellTree.exists_ancestorAt? h.tree.parented hc (show f.level + 1 ≤ c.depth by omega)
  obtain ⟨signs, hsigns, hlen⟩ := h.signed hp hget (by omega)
  rw [hdepth, Nat.add_sub_cancel] at hlen
  have hlt : f.index < signs.length := hlen ▸ hindex
  rw [CellTree.factorSign, hb, Option.bind_some, hsigns, List.getElem?_map,
    List.getElem?_eq_getElem hlt]
  rfl

/-- The matrix is decided on a cell that fixes all variables. -/
theorem Consistent.matrixTruth?_isSome (h : d.Consistent) (hp : d.projection.isSome = true)
    (hc : d.tree.get? i = some c) (hd : c.depth = d.size) :
    (d.matrixTruth? i).isSome = true := by
  obtain ⟨⟨p, links⟩, hp⟩ := Option.isSome_iff_exists.1 hp
  obtain ⟨hclosed, hlevels, hlinks⟩ := h.projected hp
  rw [matrixTruth?, hp]
  refine Formula.evalWith_isSome h.quantifierFree fun a ha => ?_
  have hatom : a.1 ∈ d.formula.atoms := List.mem_map_of_mem ha
  obtain ⟨link, hlink⟩ := Option.isSome_iff_exists.1 (lookup_zip_isSome hlinks hatom)
  rw [Option.isSome_map, hlink, Option.bind_some]
  refine Link.eval_isSome fun f hf => h.factorSign_isSome hp hc hd ?_ (hclosed link f hf)
  rw [← hlevels]
  exact (hclosed link).level_lt hf

/-! ## Changes of the tree -/

theorem Signed.of_stem {p : Projection} {b : Cell} (h : Signed p b) (hs : c.stem = b.stem) :
    Signed p c := by
  rw [Signed, Cell.depth_of_stem hs, Cell.signature_of_stem hs]
  exact h

theorem Consistent.of_sameShape (h : d.Consistent) (he : SameTask d e)
    (hs : d.tree.SameShape e.tree) : e.Consistent where
  tree := hs.wellFormed h.tree
  dimension := by rw [hs.dimension, h.dimension, he.size]
  maxCells := by rw [hs.maxCells, h.maxCells, he.config]
  quantifierFree := by
    rw [he.formula]
    exact h.quantifierFree
  projected hp := by
    rw [he.size, he.formula]
    exact h.projected (he.projection.symm.trans hp)
  signed hp hc := by
    obtain ⟨b, hb, hstem, -⟩ := hs.symm.exists_get? hc
    exact (h.signed (he.projection.symm.trans hp) hb).of_stem hstem.symm

/-- A stack on the cells of which all signs are known may be added. -/
theorem Consistent.of_stacks {stack : List StackCell} {ids : List ℕ} (h : d.Consistent)
    (he : SameTask d e) (hc : d.tree.get? c.id = some c) (hleaf : c.children = none)
    (hs : d.tree.Stacks e.tree c stack ids)
    (hsigns : ∀ {p links}, d.projection = some (p, links) → ∀ s ∈ stack, ∃ signs : List Sign,
      s.signature = signs.map some ∧ signs.length = (p.factors c.depth).length) :
    e.Consistent where
  tree := hs.wellFormed h.tree hc (by rw [hleaf]; rfl)
  dimension := by rw [hs.dimension, h.dimension, he.size]
  maxCells := by rw [hs.maxCells, h.maxCells, he.config]
  quantifierFree := by
    rw [he.formula]
    exact h.quantifierFree
  projected hp := by
    rw [he.size, he.formula]
    exact h.projected (he.projection.symm.trans hp)
  signed hp hb := by
    have hp' := he.projection.symm.trans hp
    rcases hs.cases hb with ⟨a, ha, rfl⟩ | ⟨k, s, hk, rfl, rfl⟩
    · exact (h.signed hp' ha).of_stem (CellTree.stem_lifted ..)
    · exact fun _ => hsigns hp' s (List.mem_of_getElem? hk)

end Decomposition

end Cylindrical
