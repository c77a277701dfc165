import Cylindrical.Interval.Basic
import Cylindrical.Univariate.Basic

/-!
# The simplest number in an open interval

The integer closest to zero if there is one, otherwise a binary fraction with the least
denominator.
-/

namespace Cylindrical

/-- The least multiple of `1 / scale`, `1 / (2 * scale)`, … above `lo` that is below `hi`. -/
def binaryFractionBetween (lo hi : Rat) : Nat → Rat → Rat
  | 0, scale => (((lo * scale).floor : Rat) + 1) / scale
  | steps + 1, scale =>
    let x := (((lo * scale).floor : Rat) + 1) / scale
    if x < hi then x else binaryFractionBetween lo hi steps (scale * 2)

/-- The simplest number strictly between `lo` and `hi`. -/
def simplestBetween (lo hi : Rat) : Rat :=
  if lo < 0 && 0 < hi then 0
  else
    let n : Rat := if lo < 0 then (hi.ceil : Rat) - 1 else (lo.floor : Rat) + 1
    if lo < n && n < hi then n
    else binaryFractionBetween lo hi (bitLength (hi - lo).den) 2

end Cylindrical
