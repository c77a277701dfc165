import Cylindrical.DecompositionError
import Cylindrical.Formula.VariableTable

/-!
# Prenex formulas

A formula with all its quantifiers in front, where the variables are the levels of a decomposition:
first the free variables in increasing order, then the bound ones from the outermost block inward.
-/

namespace Cylindrical

/-- A prenex formula in levels. -/
structure Prenex where
  /-- The names of the levels. -/
  names : VariableTable
  /-- The quantifiers of the levels, `none` for free variables. -/
  quantifiers : List (Option Quantifier)
  /-- The formula without its quantifiers. -/
  matrix : Formula

namespace Formula

/-- The leading quantifier blocks, and what they range over. -/
def splitBlocks : Formula → List (Quantifier × List Nat) × Formula
  | quantified q vs f => ((q, vs) :: f.splitBlocks.1, f.splitBlocks.2)
  | f => ([], f)

end Formula

namespace Prenex

/-- Adds the variables of one block to those that are bound. -/
def bindBlock (t : VariableTable) (q : Quantifier) :
    List (Nat × Quantifier) → List Nat → Except DecompositionError (List (Nat × Quantifier))
  | bound, [] => .ok bound
  | bound, v :: vs =>
    if !t.contains v then .error (.unknownVariable v)
    else if bound.any (·.1 == v) then .error (.malformedPrefix (.boundTwice (t.nameOf v)))
    else bindBlock t q (bound ++ [(v, q)]) vs

/-- The bound variables of all blocks, outermost first. -/
def bindBlocks (t : VariableTable) :
    List (Nat × Quantifier) → List (Quantifier × List Nat) →
      Except DecompositionError (List (Nat × Quantifier))
  | bound, [] => .ok bound
  | _, (_, []) :: _ => .error (.malformedPrefix .emptyBlock)
  | bound, (q, vs) :: blocks =>
    match bindBlock t q bound vs with
    | .ok bound => bindBlocks t bound blocks
    | .error e => .error e

/-- The prenex form of a formula over the names of a table. -/
def ofFormula (t : VariableTable) (f : Formula) : Except DecompositionError Prenex := do
  let (blocks, matrix) := f.splitBlocks
  if !matrix.isQuantifierFree then throw (.nonPrenex (t.formulaText matrix))
  let bound ← bindBlocks t [] blocks
  match matrix.atomVars.find? (!t.contains ·) with
  | some v => throw (.unknownVariable v)
  | none =>
    let free := matrix.atomVars.filter fun v => !bound.any (·.1 == v)
    let order := free ++ bound.map (·.1)
    return {
      names := .ofNames (order.map t.nameOf)
      quantifiers := free.map (fun _ => none) ++ bound.map (some ·.2)
      matrix := matrix.rename fun v => (order.idxOf? v).getD v }

/-- The number of levels. -/
def size (p : Prenex) : Nat := p.quantifiers.length

/-- The polynomials of the atoms. -/
def atoms (p : Prenex) : List Poly := p.matrix.atoms.map (·.1)

end Prenex

end Cylindrical
