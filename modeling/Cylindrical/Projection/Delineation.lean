import Cylindrical.Projection.Basic

/-!
# What links tell about the roots of a factor

Over a cell the signs of the links are known.  A nonzero discriminant or first subresultant
coefficient excludes multiple roots, a nonzero resultant excludes common roots, and a quadratic
factor with negative discriminant has the sign of its leading coefficient everywhere.  The
conclusions need a factor that has its formal degree over the cell.
-/

namespace Cylindrical

namespace ProjectionFactor

/-- The link that vanishes exactly where a factor of formal degree has a multiple root. -/
def multipleRootLink? (op : ProjectionOperator) (f : ProjectionFactor) : Option Nat :=
  match op with
  | .mcCallum => f.discriminant
  | .hong => f.selfLinks.head?

/-- The sign of a factor that is known to have no real root.  The first subresultant coefficient of
a quadratic is the discriminant times the negated leading coefficient. -/
def rootlessSign? (op : ProjectionOperator) (sign : Nat → Option Sign) (degree : Nat) (lead : Sign)
    (f : ProjectionFactor) : Option Sign :=
  if degree ≠ 2 || f.degree ≠ 2 || lead = .zero then none
  else
    match (f.multipleRootLink? op).bind sign with
    | none => none
    | some s =>
      let rootless : Bool := match op with
        | .mcCallum => s == .negative
        | .hong => s == lead
      if rootless then some lead else none

/-- A sign that is unknown or zero. -/
def mayVanish : Option Sign → Bool
  | some s => s = .zero
  | none => true

/-- Whether a factor of the given degree over the cell may have a multiple root. -/
def mayHaveMultipleRoot (op : ProjectionOperator) (sign : Nat → Option Sign) (degree : Nat)
    (f : ProjectionFactor) : Bool :=
  if degree < 2 then false
  else if degree ≠ f.degree then true
  else mayVanish ((f.multipleRootLink? op).bind sign)

/-- Whether the factor may have a root in common with a factor before it. -/
def mayShareRoot (sign : Nat → Option Sign) (other : Nat) (f : ProjectionFactor) : Bool :=
  let link? := ((f.pairLinks.find? fun p => p.1 == other).map (·.2.head?)).join
  mayVanish (link?.bind sign)

end ProjectionFactor

end Cylindrical
