import Cylindrical.Projection.Delineation
import Cylindrical.Sample.ZeroTest

/-!
# Stacks

The cylinder over a cell is cut by the roots of the factors of the next level into sections and
sectors.  A stack is built at the sample point of the cell, which is refined on the way.
-/

namespace Cylindrical

namespace Stack

/-- Limits for the comparison of roots. -/
structure Config where
  /-- The number of bisections before two roots are tested for equality. -/
  refineBudget : Nat := 16
  /-- The number of bisections before an attempt is given up. -/
  maxRefinements : Nat := 4096
deriving DecidableEq

/-- What has been done. -/
structure Stats where
  stacksBuilt : Nat := 0
  algebraicStacks : Nat := 0
  roots : Nat := 0
  rejectedCandidates : Nat := 0
  mergedRoots : Nat := 0
  refinements : Nat := 0
  exactComparisons : Nat := 0
  shortcutSigns : Nat := 0
  nullified : Nat := 0
  towerSplits : Nat := 0
deriving Inhabited

end Stack

/-- A cell with the factors of the next level. -/
structure Cylinder where
  operator : ProjectionOperator
  factors : List ProjectionFactor
  /-- The variable of the next level. -/
  level : Nat
  /-- The dimension of the cell. -/
  dimension : Nat
  /-- The signs of links over the cell, as far as they are known. -/
  sign : Nat → Option Sign

/-- A cell of a stack. -/
structure StackCell where
  coord : Coordinate
  /-- The signs of the factors. -/
  signature : List (Option Sign)
  /-- The orders of the roots of the factors. -/
  multiplicity : List Nat
deriving DecidableEq, Inhabited

/-- A stack that is being built. -/
structure StackState extends PointState where
  counts : Stack.Stats := {}

abbrev StackM := EStateM DecompositionError StackState

namespace Stack

def count (f : Stats → Stats) : StackM Unit := modify fun s => { s with counts := f s.counts }

def countRefinement : StackM Unit := count fun s => { s with refinements := s.refinements + 1 }

/-- A test at the sample point. -/
def atPoint {α : Type} (x : PointM α) : StackM α :=
  focus (·.toPointState) (fun p s => { s with toPointState := p }) id x

/-- A computation of the algebra. -/
def algebraically {α : Type} (x : AlgebraM α) : StackM α := atPoint (PointState.algebraically x)

end Stack

end Cylindrical
