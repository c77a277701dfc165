import Cylindrical.Interval.Basic
import Cylindrical.Sign
import Cylindrical.Univariate.Isolation

/-!
# Coordinates of sample points

A coordinate is a rational number, or it is the only root of a square-free polynomial with rational
coefficients, its isolator, in an open interval without roots at the ends.  Bisection narrows the
interval and leaves the isolator alone.  The defining polynomial of the coordinate is a second
polynomial with this root; it may have lower coordinates in it, and has the smaller degree then.
-/

namespace Cylindrical

/-- A real number given as a root. -/
structure AlgebraicNumber where
  /-- Monic in the variable of the coordinate. -/
  defining : Poly
  /-- The coefficients of the isolator, from the constant one up. -/
  isolator : List Rat
  /-- An open interval that isolates the root. -/
  span : Interval
  /-- The sign of the isolator at the lower end. -/
  leftSign : Sign
deriving DecidableEq

namespace AlgebraicNumber

/-- The root of the isolator in an interval. -/
def ofRoot (defining : Poly) (isolator : List Rat) (span : Interval) : AlgebraicNumber :=
  ⟨defining, isolator, span, .ofOrdering (Univariate.signAt isolator span.lo)⟩

/-- Splits the interval and keeps the part with the root. -/
def refine (a : AlgebraicNumber) : AlgebraicNumber :=
  let m := Univariate.splitPoint a.isolator a.span.lo a.span.hi
  if Sign.ofOrdering (Univariate.signAt a.isolator m) = a.leftSign then
    { a with span := ⟨m, a.span.hi⟩ }
  else { a with span := ⟨a.span.lo, m⟩ }

/-- A number of refinements that makes the interval no wider than `2 ^ -bits`: three of them halve
the width at least, since each leaves three quarters of it at most. -/
def refineSteps (bits : Nat) (width : Rat) : Nat := 3 * (bits + bitLength width.num.natAbs)

/-- Refines until the interval is no wider than the given width. -/
def refineWhileWider (width : Rat) : Nat → AlgebraicNumber → AlgebraicNumber
  | 0, a => a
  | steps + 1, a =>
    if width < a.span.width then refineWhileWider width steps a.refine else a

/-- Refines until the interval is no wider than `2 ^ -bits`. -/
def refineTo (bits : Nat) (a : AlgebraicNumber) : AlgebraicNumber :=
  refineWhileWider (1 / twoPow bits) (refineSteps bits a.span.width) a

/-- The isolator as a polynomial in `v`. -/
def isolatorIn (v : Nat) (a : AlgebraicNumber) : Poly := .univariate v a.isolator

/-- Whether the number is `x`, which must not be an end of the interval. -/
def isRoot (x : Rat) (a : AlgebraicNumber) : Bool :=
  a.span.lo < x && x < a.span.hi && Univariate.signAt a.isolator x == .eq

end AlgebraicNumber

/-- A coordinate of a point. -/
inductive Coordinate where
  | rational (x : Rat)
  | algebraic (a : AlgebraicNumber)
deriving DecidableEq

namespace Coordinate

instance : Inhabited Coordinate := ⟨.rational 0⟩

/-- An interval that holds the number. -/
def span : Coordinate → Interval
  | rational x => .point x
  | algebraic a => a.span

/-- The lower end of the enclosure. -/
def lower (c : Coordinate) : Rat := c.span.lo

/-- The upper end of the enclosure. -/
def upper (c : Coordinate) : Rat := c.span.hi

def isRational : Coordinate → Bool
  | rational _ => true
  | algebraic _ => false

/-- Splits the enclosure, unless the number is known exactly. -/
def refine : Coordinate → Coordinate
  | rational x => rational x
  | algebraic a => algebraic a.refine

/-- Refines until the enclosure is no wider than `2 ^ -bits`. -/
def refineTo (bits : Nat) : Coordinate → Coordinate
  | rational x => rational x
  | algebraic a => algebraic (a.refineTo bits)

/-- The written form. -/
def text : Coordinate → String
  | rational x => rationalText x
  | algebraic a =>
    "root of " ++ a.defining.text ++ " in (" ++ rationalText a.span.lo ++ ", " ++
      rationalText a.span.hi ++ ")"

end Coordinate

end Cylindrical
