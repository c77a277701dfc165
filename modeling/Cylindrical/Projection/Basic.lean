import Cylindrical.Formula.VariableTable
import Cylindrical.Projection.Link

/-!
# Projection factors

The factors of a projection by level, each with links that tell, over the cells of the level below,
its degree, whether it can have multiple roots, and whether it can share roots with another factor.
-/

namespace Cylindrical

/-- The choice of derived polynomials. -/
inductive ProjectionOperator where
  /-- Leading coefficients, discriminants and resultants: valid for well-oriented polynomials. -/
  | mcCallum
  /-- Coefficients modulo the higher ones and principal subresultant coefficients of reducta. -/
  | hong
deriving DecidableEq, Inhabited

/-- Where a factor comes from. -/
inductive FactorOrigin where
  /-- It divides a polynomial of the formula. -/
  | input
  | projection
deriving DecidableEq, Inhabited

/-- A factor in normal form, with its level as main variable. -/
structure ProjectionFactor where
  poly : Poly
  level : Nat
  origin : FactorOrigin
  /-- Degrees and links of coefficients, from the leading one down; `none` where a coefficient
  vanishes whenever all higher ones do. -/
  coeffLinks : List (Nat × Option Nat) := []
  /-- The discriminant. -/
  discriminant : Option Nat := none
  /-- The principal subresultant coefficients with the derivative. -/
  selfLinks : List Nat := []
  /-- For each factor before this one the resultant, or the principal subresultant coefficients. -/
  pairLinks : List (Nat × List Nat) := []
deriving DecidableEq, Inhabited

namespace ProjectionFactor

/-- The degree in the main variable. -/
def degree (f : ProjectionFactor) : Nat := f.poly.degreeOf f.level

/-- Renames the links. -/
def mapLinks (g : Nat → Nat) (f : ProjectionFactor) : ProjectionFactor where
  poly := f.poly
  level := f.level
  origin := f.origin
  coeffLinks := f.coeffLinks.map fun c => (c.1, c.2.map g)
  discriminant := f.discriminant.map g
  selfLinks := f.selfLinks.map g
  pairLinks := f.pairLinks.map fun p => (p.1, p.2.map g)

end ProjectionFactor

namespace ProjectionOperator

def name : ProjectionOperator → String
  | mcCallum => "McCallum"
  | hong => "Hong"

end ProjectionOperator

/-- The factors by level, and the links they use. -/
structure Projection where
  operator : ProjectionOperator
  levels : List (List ProjectionFactor)
  links : LinkTable := {}
deriving DecidableEq

namespace Projection

/-- The projection with `n` levels that has no factors. -/
def empty (op : ProjectionOperator) (n : Nat) : Projection := ⟨op, List.replicate n [], {}⟩

/-- The factors of a level. -/
def factors (p : Projection) (level : Nat) : List ProjectionFactor := p.levels.getD level []

/-- The factor with a level and a position. -/
def factor? (p : Projection) (f : FactorRef) : Option ProjectionFactor :=
  (p.factors f.level)[f.index]?

def factorCount (p : Projection) : Nat := (p.levels.map List.length).foldl (· + ·) 0

/-! ## Written form -/

/-- The factors of all levels, the highest one first, with a tag for the origin of each. -/
def textWith (polyText : Poly → String) (tag : FactorOrigin → String) (p : Projection) : String :=
  let line (f : ProjectionFactor × Nat) : String :=
    "\n  P[" ++ toString f.1.level ++ "," ++ toString f.2 ++ "]" ++ tag f.1.origin ++ " = " ++
      polyText f.1.poly
  let block (fs : List ProjectionFactor × Nat) : String :=
    "\nlevel " ++ toString fs.2 ++ ":" ++ "".intercalate (fs.1.zipIdx.map line)
  p.operator.name ++ " projection" ++ "".intercalate (p.levels.zipIdx.reverse.map block)

def text (p : Projection) : String := p.textWith Poly.text fun _ => ""

/-- The written form with the names of variables and a letter for the origin of each factor. -/
def textIn (t : VariableTable) (p : Projection) : String :=
  p.textWith t.polyText fun
    | .input => "i"
    | .projection => "p"

end Projection

end Cylindrical
