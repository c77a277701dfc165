import Cylindrical.CellTree
import Cylindrical.Formula.Prenex
import Cylindrical.Projection.Operator
import Cylindrical.Stack.Lifting

/-!
# Cylindrical algebraic decompositions of formulas

A decomposition holds a prenex formula, its projection and the tree of cells over which the formula
is evaluated.  Cells whose truth is not known yet wait to be lifted.  The truth of a cell follows
from that of the cells over it by the quantifier of their level.
-/

namespace Cylindrical

namespace Decomposition

/-- Choices and limits. -/
structure Config where
  operator : ProjectionOperator := .mcCallum
  /-- Whether Hong's operator takes over where McCallum's is not valid. -/
  hongFallback : Bool := true
  /-- Whether one cell with the truth that a quantifier looks for decides the cell below. -/
  shortCircuit : Bool := true
  zeroTest : ZeroTest.Config := {}
  lifting : Stack.Config := {}
  maxCells : Nat := 1048576
deriving DecidableEq

/-- What has been done. -/
structure Stats where
  projections : Nat := 0
  hongFallbacks : Nat := 0
  cellsCreated : Nat := 0
  cellsLifted : Nat := 0
  cellsPruned : Nat := 0
  truthPropagations : Nat := 0
deriving Inhabited

end Decomposition

/-- A decomposition of a formula. -/
structure Decomposition where
  config : Decomposition.Config
  formula : Prenex
  algebra : AlgebraSystem := {}
  /-- The projection, with the links of the atoms. -/
  projection : Option (Projection × List Nat) := none
  tree : CellTree
  /-- The cells to be lifted, the next one first. -/
  worklist : List Nat := []
  stats : Decomposition.Stats := {}
  projectionStats : Projection.Stats := {}
  stackStats : Stack.Stats := {}
  zeroStats : ZeroTest.Stats := {}

namespace Decomposition

/-- The decomposition of a formula before anything is computed. -/
def ofFormula (cfg : Config) (algebra : AlgebraSystem) (names : VariableTable) (f : Formula) :
    Except DecompositionError Decomposition :=
  match Prenex.ofFormula names f with
  | .error e => .error e
  | .ok p => .ok {
      config := cfg
      formula := p
      algebra
      tree := { dimension := p.size, maxCells := cfg.maxCells } }

/-- The number of levels. -/
def size (d : Decomposition) : Nat := d.formula.size

/-- The quantifier of a level, `none` for a free variable. -/
def quantifier (d : Decomposition) (level : Nat) : Option Quantifier :=
  (d.formula.quantifiers[level]?).join

def root (d : Decomposition) : Cell := (d.tree.get? 0).getD default

/-- The truth of the formula, if it is known and does not hang on free variables. -/
def truth (d : Decomposition) : Option Bool := d.root.truth

/-- The cell at the end of a path. -/
def cell (d : Decomposition) (path : List Nat) : Except DecompositionError Cell := do
  return (d.tree.get? (← d.tree.follow path)).getD default

/-- Sets all counts to zero but those of the algebra. -/
def resetStats (d : Decomposition) : Decomposition :=
  { d with stats := {}, projectionStats := {}, stackStats := {}, zeroStats := {} }

/-! ## Truth -/

/-- The signs of links on a cell. -/
def linkSign (tree : CellTree) (p : Projection) (id link : Nat) : Option Sign :=
  (p.links.get link).eval (tree.factorSign id)

/-- The truth of the matrix on a cell, as far as the signs of the factors tell. -/
def matrixTruth? (d : Decomposition) (id : Nat) : Option Bool :=
  match d.projection with
  | none => none
  | some (p, links) =>
    let links := d.formula.atoms.zip links
    d.formula.matrix.evalWith fun q r =>
      ((links.lookup q).bind (linkSign d.tree p id)).map r.holds

/-- The truth of a cell from that of the cells over it. -/
def truthFrom (shortCircuit : Bool) : Option Quantifier → List (Option Bool) → Option Bool
  | none, ts =>
    match ts.head?.join with
    | some b => if ts.all (· == some b) then some b else none
    | none => none
  | some q, ts =>
    if shortCircuit && ts.contains (some q.target) then some q.target
    else if ts.all Option.isSome then
      some (if ts.contains (some q.target) then q.target else !q.target)
    else none

/-- The truth of a cell from that of the stack over it; undecided where there is none. -/
def stackTruth? (d : Decomposition) (c : Cell) : Option Bool :=
  c.children.bind fun ids =>
    truthFrom d.config.shortCircuit (d.quantifier c.depth)
      (ids.map fun i => (d.tree.get? i).bind (·.truth))

/-! ## Written form -/

/-- The tree of cells. -/
def treeText (d : Decomposition) : String := d.tree.text d.formula.names.nameOf

/-- The projection, if there is one, and the tree of cells. -/
def text (d : Decomposition) : String :=
  match d.projection with
  | some (p, _) => p.textIn d.formula.names ++ "\n" ++ d.treeText
  | none => d.treeText

end Decomposition

end Cylindrical
