import Cylindrical.Poly.Text

/-!
# Intervals with rational ends

Exact interval arithmetic.  `Interval.roundOutward` moves the ends outward to multiples of a power
of one half, which keeps them small and keeps what is enclosed.  `Interval.evalPoly?` encloses the
values of a polynomial over a box.
-/

namespace Cylindrical

/-- The smaller of two rational numbers. -/
def minRat (x y : Rat) : Rat := if y < x then y else x

/-- The larger of two rational numbers. -/
def maxRat (x y : Rat) : Rat := if x < y then y else x

/-- The rational number `2 ^ k`. -/
def twoPow (k : Nat) : Rat := (Nat.pow 2 k : Nat)

/-- An interval, from `lo` to `hi`. -/
structure Interval where
  lo : Rat
  hi : Rat
deriving DecidableEq, Inhabited

namespace Interval

/-- The interval that holds one number. -/
def point (x : Rat) : Interval := ⟨x, x⟩

def contains (x : Rat) (s : Interval) : Bool := s.lo ≤ x && x ≤ s.hi

def containsZero (s : Interval) : Bool := s.lo ≤ 0 && 0 ≤ s.hi

def width (s : Interval) : Rat := s.hi - s.lo

/-- The sign that all numbers of the interval have, if they agree. -/
def sign? (s : Interval) : Option Ordering :=
  if 0 < s.lo then some .gt
  else if s.hi < 0 then some .lt
  else if s.lo = 0 && s.hi = 0 then some .eq
  else none

protected def add (s t : Interval) : Interval := ⟨s.lo + t.lo, s.hi + t.hi⟩

instance : Add Interval := ⟨Interval.add⟩

protected def sub (s t : Interval) : Interval := ⟨s.lo - t.hi, s.hi - t.lo⟩

instance : Sub Interval := ⟨Interval.sub⟩

protected def neg (s : Interval) : Interval := ⟨-s.hi, -s.lo⟩

instance : Neg Interval := ⟨Interval.neg⟩

/-- The span of the products of the ends. -/
protected def mul (s t : Interval) : Interval :=
  let a := s.lo * t.lo
  let b := s.lo * t.hi
  let c := s.hi * t.lo
  let d := s.hi * t.hi
  ⟨minRat (minRat (minRat a b) c) d, maxRat (maxRat (maxRat a b) c) d⟩

instance : Mul Interval := ⟨Interval.mul⟩

/-- The product with a number. -/
def scale (c : Rat) (s : Interval) : Interval :=
  if c < 0 then ⟨s.hi * c, s.lo * c⟩ else ⟨s.lo * c, s.hi * c⟩

/-- The `k`-th powers of the ends, in order; an even power is nowhere negative. -/
protected def pow (s : Interval) (k : Nat) : Interval :=
  if k = 0 then point 1
  else
    let a := signedPow s.lo k
    let b := signedPow s.hi k
    if k % 2 = 1 then ⟨a, b⟩
    else if s.lo < 0 && 0 < s.hi then ⟨0, maxRat a b⟩
    else if a ≤ b then ⟨a, b⟩
    else ⟨b, a⟩

/-- The least interval around this one with ends that are multiples of `2 ^ -prec`. -/
def roundOutward (prec : Nat) (s : Interval) : Interval :=
  ⟨((s.lo * twoPow prec).floor : Rat) / twoPow prec,
    ((s.hi * twoPow prec).ceil : Rat) / twoPow prec⟩

/-! ## Values of polynomials -/

/-- An enclosure of a coefficient times powers, multiplied from the smallest variable up and rounded
at each step. -/
def evalPowers? (prec : Nat) (box : Nat → Option Interval) (c : Rat) :
    List (Nat × Nat) → Option Interval
  | [] => some (point c)
  | p :: ps =>
    match evalPowers? prec box c ps, box p.1 with
    | some t, some x => some ((t * x.pow p.2).roundOutward prec)
    | _, _ => none

/-- An enclosure of a sum of terms, added to `acc`. -/
def evalTerms? (prec : Nat) (box : Nat → Option Interval) (acc : Interval) :
    List Term → Option Interval
  | [] => some acc
  | t :: ts =>
    match evalPowers? prec box t.coeff t.monomial.powers with
    | some s => evalTerms? prec box (acc + s) ts
    | none => none

/-- An enclosure of the values of a polynomial over a box, `none` if a variable that occurs has no
interval. -/
def evalPoly? (prec : Nat) (box : Nat → Option Interval) (p : Poly) : Option Interval :=
  (evalTerms? prec box (point 0) p.terms).map (roundOutward prec)

/-- The written form, a closed interval. -/
def text (s : Interval) : String :=
  "[" ++ rationalText s.lo ++ ", " ++ rationalText s.hi ++ "]"

end Interval

end Cylindrical
