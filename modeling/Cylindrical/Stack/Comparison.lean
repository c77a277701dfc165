import Cylindrical.Interval.Simplest
import Cylindrical.Stack.Basic

/-!
# Comparison of roots

Two coordinates are compared by narrowing their enclosures until these are apart.  Where the numbers
may be equal this is decided first: they are if both are the same root of the greatest common
divisor of their isolators.  Comparisons return the narrowed coordinates.
-/

namespace Cylindrical

namespace Stack

/-- Compares a rational number with an algebraic one, in a number of steps. -/
def compareRational (x : Rat) : Nat → AlgebraicNumber → StackM (Ordering × AlgebraicNumber)
  | 0, a => return (.lt, a)
  | steps + 1, a => do
    if x ≤ a.span.lo then return (.lt, a)
    else if a.span.hi ≤ x then return (.gt, a)
    else if a.isRoot x then return (.eq, a)
    else
      countRefinement
      compareRational x steps a.refine

/-- The order that enclosures and isolators show: of one isolator with two isolating intervals the
roots are equal if the overlap has a root. -/
def shownOrder? (a b : AlgebraicNumber) : Option Ordering :=
  if a.span.hi ≤ b.span.lo then some .lt
  else if b.span.hi ≤ a.span.lo then some .gt
  else if a.isolator = b.isolator &&
      Univariate.signAt a.isolator (maxRat a.span.lo b.span.lo) !=
        Univariate.signAt a.isolator (minRat a.span.hi b.span.hi) then some .eq
  else none

/-- Narrows an enclosure until it lies in one of some intervals, and returns the position of that
interval. -/
def locateIn (spans : List Interval) : Nat → AlgebraicNumber → StackM (Nat × AlgebraicNumber)
  | 0, _ => throw (.inconclusive .rootNotLocated)
  | steps + 1, a =>
    match spans.findIdx? fun s => s.lo ≤ a.span.lo && a.span.hi ≤ s.hi with
    | some i => return (i, a)
    | none => do
      countRefinement
      locateIn spans steps a.refine

/-- The position of a number among the roots of a polynomial, if it is one of them. -/
def locate? (cfg : Config) (cs : List Rat) (spans : List Interval) (a : AlgebraicNumber) :
    StackM (Option Nat × AlgebraicNumber) := do
  if Univariate.signAt cs a.span.lo = Univariate.signAt cs a.span.hi then return (none, a)
  let (i, a) ← locateIn spans cfg.maxRefinements a
  return (some i, a)

/-- Whether two numbers are equal. -/
def sameRoot (cfg : Config) (a b : AlgebraicNumber) :
    StackM (Bool × AlgebraicNumber × AlgebraicNumber) := do
  let g ← algebraically (AlgebraSystem.gcd (a.isolatorIn 0) (b.isolatorIn 0))
  if g.isNumber then return (false, a, b)
  let cs := (g.univariate? 0).getD []
  let spans := Univariate.isolate cs
  match ← locate? cfg cs spans a with
  | (none, a) => return (false, a, b)
  | (some i, a) =>
    let (j?, b) ← locate? cfg cs spans b
    return (j? = some i, a, b)

/-- Whether two numbers that may be equal are, once the budget of bisections is used up. -/
def testEquality (cfg : Config) (mayEqual : Bool) (steps : Nat) (a b : AlgebraicNumber) :
    StackM (Bool × AlgebraicNumber × AlgebraicNumber) := do
  if mayEqual && steps = cfg.refineBudget then
    count fun s => { s with exactComparisons := s.exactComparisons + 1 }
    sameRoot cfg a b
  else return (false, a, b)

/-- Compares two algebraic numbers after `steps` bisections, with the given number of them left. -/
def compareAlgebraic (cfg : Config) (mayEqual : Bool) (left steps : Nat) (a b : AlgebraicNumber) :
    StackM (Ordering × AlgebraicNumber × AlgebraicNumber) := do
  match shownOrder? a b with
  | some o => return (o, a, b)
  | none =>
    let (same, a, b) ← testEquality cfg mayEqual steps a b
    if same then return (.eq, a, b)
    match left with
    | 0 => throw (.inconclusive (.rootsNotSeparated steps))
    | left + 1 =>
      countRefinement
      if b.span.width ≤ a.span.width then
        compareAlgebraic cfg mayEqual left (steps + 1) a.refine b
      else compareAlgebraic cfg mayEqual left (steps + 1) a b.refine

/-- Compares two coordinates. -/
def compare (cfg : Config) (mayEqual : Bool) (c d : Coordinate) :
    StackM (Ordering × Coordinate × Coordinate) := do
  match c, d with
  | .rational x, .rational y => return (compareZero (x - y), c, d)
  | .rational x, .algebraic b =>
    let (o, b) ← compareRational x (Univariate.separationSteps b.isolator x b.span) b
    return (o, c, .algebraic b)
  | .algebraic a, .rational y =>
    let (o, a) ← compareRational y (Univariate.separationSteps a.isolator y a.span) a
    return (o.swap, .algebraic a, d)
  | .algebraic a, .algebraic b =>
    let (o, a, b) ← compareAlgebraic cfg mayEqual cfg.maxRefinements 0 a b
    return (o, .algebraic a, .algebraic b)

/-- A rational number between two sections that differ. -/
def between : Nat → Coordinate → Coordinate → StackM (Rat × Coordinate × Coordinate)
  | 0, _, _ => throw (.inconclusive .sectionsNotSeparated)
  | steps + 1, c, d =>
    if c.upper < d.lower then return (simplestBetween c.upper d.lower, c, d)
    else if !c.isRational && !d.isRational && c.upper = d.lower then return (c.upper, c, d)
    else do
      countRefinement
      between steps c.refine d.refine

end Stack

end Cylindrical
