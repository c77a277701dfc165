import Cylindrical.Interval.Basic
import Cylindrical.Univariate.Basic

/-!
# Isolation of real roots

Descartes' rule of signs, applied to the transform that sends an open interval to the positive
numbers, counts the roots in the interval up to an even excess; it is exact when it says zero or
one.  Starting from a bound for all roots, intervals are split until it does.  Split points are
never roots, so neither are the ends of the intervals.

The number of splits on the way to an interval is bounded in terms of the degree and the size of
the coefficients (`isolationDepth`): where a square-free polynomial is small its derivative is not.
-/

namespace Cylindrical

namespace Univariate

/-- A power of two above the absolute values of all roots. -/
def rootBound (cs : List Rat) : Rat :=
  match (trim cs).getLast? with
  | none => 1
  | some lead =>
    let height := (trim cs).dropLast.foldl (fun h c =>
      let r := (c / lead).abs
      if h < r then r else h) 0
    twoPow (bitLength (height + 1).ceil.toNat)

/-- The coefficients of `(1 + t) ^ n * p ((lo + hi * t) / (1 + t))`, for `p` of degree `n`. -/
def mobius (cs : List Rat) (lo hi : Rat) : List Rat :=
  ((trim cs).foldr (fun c (acc, power) =>
    (add (mulLinear lo hi acc) (power.map (c * ·)), mulLinear 1 1 power)) ([], [1])).1

/-- Descartes' bound for the number of roots in the open interval from `lo` to `hi`. -/
def descartesBound (cs : List Rat) (lo hi : Rat) : Nat := signVariations (mobius cs lo hi)

/-- The first of `mid + step / 2`, `mid + step / 4`, … that is not a root. -/
def nextSplit (cs : List Rat) (mid : Rat) : Nat → Rat → Rat
  | 0, step => mid + step / 2
  | n + 1, step =>
    if signAt cs (mid + step / 2) = .eq then nextSplit cs mid n (step / 2) else mid + step / 2

/-- A point inside the interval that is not a root: the midpoint, or else the next of the points
that lie a quarter, an eighth, … of the width above it. -/
def splitPoint (cs : List Rat) (lo hi : Rat) : Rat :=
  let mid := (lo + hi) / 2
  if signAt cs mid = .eq then nextSplit cs mid cs.length ((hi - lo) / 2) else mid

/-- The part of an isolating interval that holds the root. -/
def bisect (cs : List Rat) (s : Interval) : Interval :=
  let m := splitPoint cs s.lo s.hi
  if signAt cs s.lo = signAt cs m then ⟨m, s.hi⟩ else ⟨s.lo, m⟩

/-- Splits an interval until Descartes' bound is zero or one on each part. -/
def isolateIn (cs : List Rat) : Nat → Rat → Rat → List Interval
  | 0, lo, hi => [⟨lo, hi⟩]
  | depth + 1, lo, hi =>
    match descartesBound cs lo hi with
    | 0 => []
    | 1 => [⟨lo, hi⟩]
    | _ =>
      let m := splitPoint cs lo hi
      isolateIn cs depth lo m ++ isolateIn cs depth m hi

/-- A bound for the number of successive splits of an interval. -/
def isolationDepth (cs : List Rat) : Nat := 64 * (cs.length + 1) * (bits cs + cs.length + 4)

/-- Isolating intervals, in increasing order, for the roots of a square-free polynomial. -/
def isolate (cs : List Rat) : List Interval :=
  let cs := trim cs
  if cs.length < 2 then []
  else
    let b := rootBound cs
    isolateIn cs (isolationDepth cs) (-b) b

/-- A bound for the number of bisections that part an interval from a number that is not a root. -/
def separationSteps (cs : List Rat) (x : Rat) (s : Interval) : Nat :=
  64 * (cs.length + 1) *
    (bits cs + rationalBits x + rationalBits s.lo + rationalBits s.hi + cs.length + 4)

/-- Bisects an isolating interval until the closed interval does not contain `x`. -/
def bisectAwayFrom (cs : List Rat) (x : Rat) : Nat → Interval → Interval
  | 0, s => s
  | steps + 1, s =>
    if s.lo ≤ x && x ≤ s.hi then bisectAwayFrom cs x steps (bisect cs s) else s

end Univariate

end Cylindrical
