/-!
# Univariate polynomials as coefficient lists

The coefficient of the `i`-th power is the `i`-th member of the list; zeros at the end are allowed.
The signs of the values drive root isolation, and the size of the coefficients in bits bounds the
number of its steps.
-/

namespace Cylindrical

/-- The ordering of a rational number relative to zero. -/
def compareZero (x : Rat) : Ordering := if x < 0 then .lt else if x = 0 then .eq else .gt

/-- The number of binary digits of a natural number, at least one. -/
def bitLength (n : Nat) : Nat := n.log2 + 1

/-- The number of binary digits of numerator and denominator together. -/
def rationalBits (x : Rat) : Nat := bitLength x.num.natAbs + bitLength x.den

namespace Univariate

/-- The value at `x`. -/
def eval (cs : List Rat) (x : Rat) : Rat := cs.foldr (fun c acc => acc * x + c) 0

/-- The sign of the value at `x`. -/
def signAt (cs : List Rat) (x : Rat) : Ordering := compareZero (eval cs x)

/-- The list without the zeros at its end. -/
def trim : List Rat → List Rat
  | [] => []
  | c :: cs =>
    match trim cs with
    | [] => if c = 0 then [] else [c]
    | ds => c :: ds

/-- The number of binary digits of all coefficients together. -/
def bits (cs : List Rat) : Nat := cs.foldl (fun n c => n + rationalBits c) 0

/-- The product with `a + b * x`. -/
def mulLinear (a b : Rat) : List Rat → List Rat
  | [] => []
  | c :: cs => go (a * c) c cs
where
  /-- The coefficients from `low` on, where `prev` is the coefficient that precedes the list. -/
  go (low prev : Rat) : List Rat → List Rat
    | [] => [low, b * prev]
    | c :: cs => low :: go (a * c + b * prev) c cs

/-- The sum. -/
def add : List Rat → List Rat → List Rat
  | [], ds => ds
  | cs, [] => cs
  | c :: cs, d :: ds => (c + d) :: add cs ds

/-- The number of changes between successive nonzero signs, after the sign `last`. -/
def signVariationsAfter (last : Ordering) : List Rat → Nat
  | [] => 0
  | c :: cs =>
    match compareZero c with
    | .eq => signVariationsAfter last cs
    | s => (if last != .eq && last != s then 1 else 0) + signVariationsAfter s cs

/-- The number of sign changes in the list, zeros left out. -/
def signVariations (cs : List Rat) : Nat := signVariationsAfter .eq cs

end Univariate

end Cylindrical
