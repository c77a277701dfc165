import Cylindrical.Stack.Root

/-!
# Construction of a stack

The sections are the roots of all factors; a sector lies between two of them, below the first and
above the last.  The sign of a factor is that of its leading coefficient above all its roots, and
changes at each root of odd order.
-/

namespace Cylindrical

namespace Stack

/-- Adds the roots of the factors with numbers from `i` on to the sections, and returns the shapes
of these factors. -/
def addFactors (cfg : Config) (zero : ZeroTest.Config) (c : Cylinder) :
    Nat → List ProjectionFactor → List Section → StackM (List Shape × List Section)
  | _, [], ss => return ([], ss)
  | i, f :: fs, ss => do
    let sh ← shape zero c f
    let rs ← match sh with
      | .constant _ => pure []
      | .roots degree _ => roots zero c i f degree
    let ss ← rs.foldlM (fun ss r => do
      count fun s => { s with roots := s.roots + 1 }
      Section.insert cfg c r ss) ss
    let (shs, ss) ← addFactors cfg zero c (i + 1) fs ss
    return (sh :: shs, ss)

/-- Each of the sections with a number in the sector above it. -/
def sectorsAbove (cfg : Config) (s : Section) : List Section → StackM (List (Section × Rat))
  | [] => return [(s, (s.coord.upper.ceil : Rat) + 1)]
  | t :: ts => do
    let (x, c, d) ← between cfg.maxRefinements s.coord t.coord
    return ({ s with coord := c }, x) :: (← sectorsAbove cfg { t with coord := d } ts)

/-- The coordinates of the cells of a stack, with the section where the cell is one. -/
def cellCoords (cfg : Config) : List Section → StackM (List (Coordinate × Option Section))
  | [] => return [(.rational 0, none)]
  | s :: ss => do
    let below : Rat := (s.coord.lower.floor : Rat) - 1
    let cells ← sectorsAbove cfg s ss
    return (.rational below, none) ::
      (cells.map fun (s, x) => [(s.coord, some s), (.rational x, none)]).flatten

/-- The signs of a factor on cells in increasing order, from its orders there and the sign of its
leading coefficient: the last of these is the sign below all cells. -/
def signsOver (lead : Sign) (orders : List Nat) : List Sign × Sign :=
  orders.foldr (fun m (signs, s) =>
    if m = 0 then (s :: signs, s) else (.zero :: signs, if m % 2 = 1 then -s else s)) ([], lead)

/-- The signs of the factor with the number `i` on the cells of a stack. -/
def factorSigns (cells : List (Coordinate × Option Section)) (i : Nat) : Shape → List Sign
  | .constant s => cells.map fun _ => s
  | .roots _ lead => (signsOver lead (cells.map fun c => (c.2.map (·.order i)).getD 0)).1

/-- The cells with the signs and the orders of all factors. -/
def assemble (cells : List (Coordinate × Option Section)) (shapes : List Shape) : List StackCell :=
  let columns := shapes.zipIdx.map fun (sh, i) => factorSigns cells i sh
  let rows := columns.foldr (List.zipWith (· :: ·)) (cells.map fun _ => [])
  List.zipWith (fun c row =>
    { coord := c.1
      signature := row.map some
      multiplicity := (List.range shapes.length).map fun i => (c.2.map (·.order i)).getD 0 })
    cells rows

/-- The cells of the stack over a cell, at its sample point. -/
def cells (cfg : Config) (zero : ZeroTest.Config) (c : Cylinder) : StackM (List StackCell) := do
  count fun s => { s with stacksBuilt := s.stacksBuilt + 1 }
  if !(← get).point.isRational then
    count fun s => { s with algebraicStacks := s.algebraicStacks + 1 }
  let (shapes, ss) ← addFactors cfg zero c 0 c.factors []
  return assemble (← cellCoords cfg ss) shapes

end Stack

end Cylindrical
