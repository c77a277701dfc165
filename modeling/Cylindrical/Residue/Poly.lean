import Cylindrical.Poly.Basic
import Cylindrical.Residue.Field

/-!
# Polynomials over a prime field

Dense and recursive: a polynomial is a residue, or has a main variable and coefficients in smaller
variables.  In a normal form every node has at least two coefficients and the last one is not zero;
`ResiduePoly.ofCoeffs` restores it.
-/

namespace Cylindrical

/-- A polynomial with residues as coefficients. -/
inductive ResiduePoly where
  | const (a : Nat)
  /-- A main variable, and the coefficients of its powers from the constant one up. -/
  | node (var : Nat) (coeffs : List ResiduePoly)
deriving Inhabited

namespace ResiduePoly

mutual

/-- Equality of representations. -/
def same : ResiduePoly → ResiduePoly → Bool
  | const a, const b => a == b
  | node v cs, node w ds => v == w && sameList cs ds
  | _, _ => false

/-- Equality of lists of representations. -/
def sameList : List ResiduePoly → List ResiduePoly → Bool
  | [], [] => true
  | c :: cs, d :: ds => same c d && sameList cs ds
  | _, _ => false

end

instance : BEq ResiduePoly := ⟨same⟩

instance : Zero ResiduePoly := ⟨const 0⟩

instance : One ResiduePoly := ⟨const 1⟩

def isZero : ResiduePoly → Bool
  | const a => a == 0
  | node _ _ => false

/-- A list of coefficients without the zeros at its end. -/
def trim : List ResiduePoly → List ResiduePoly
  | [] => []
  | c :: cs =>
    match trim cs with
    | [] => if c.isZero then [] else [c]
    | ds => c :: ds

/-- The polynomial in `v` with the given coefficients, in normal form. -/
def ofCoeffs (v : Nat) (cs : List ResiduePoly) : ResiduePoly :=
  match trim cs with
  | [] => 0
  | [c] => c
  | cs => node v cs

/-- The variable `v`. -/
def var (v : Nat) : ResiduePoly := node v [0, 1]

def mainVar? : ResiduePoly → Option Nat
  | const _ => none
  | node v _ => some v

/-- The degree in `v`, which no variable may exceed. -/
def degreeIn (v : Nat) : ResiduePoly → Nat
  | const _ => 0
  | node w cs => if w = v then cs.length - 1 else 0

/-- The coefficients in `v`, which no variable may exceed. -/
def coeffsIn (v : Nat) : ResiduePoly → List ResiduePoly
  | const a => [const a]
  | node w cs => if w = v then cs else [node w cs]

/-- The leading coefficient in `v`, which no variable may exceed. -/
def leadingCoeffIn (v : Nat) : ResiduePoly → ResiduePoly
  | const a => const a
  | node w cs => if w = v then cs.getLast?.getD 0 else node w cs

/-! ## Ring operations -/

mutual

protected def add (p : Nat) : ResiduePoly → ResiduePoly → ResiduePoly
  | const a, const b => const (Residue.add p a b)
  | const a, node w ds => ofCoeffs w (addHead p (const a) ds)
  | node v cs, const b => ofCoeffs v (addHead p (const b) cs)
  | node v cs, node w ds =>
    if v = w then ofCoeffs v (addList p cs ds)
    else if v < w then ofCoeffs w (addHead p (node v cs) ds)
    else ofCoeffs v (addHead p (node w ds) cs)
termination_by a b => sizeOf a + sizeOf b

/-- Adds a polynomial in smaller variables to the constant coefficient. -/
def addHead (p : Nat) (c : ResiduePoly) : List ResiduePoly → List ResiduePoly
  | [] => [c]
  | d :: ds => ResiduePoly.add p c d :: ds
termination_by ds => sizeOf c + sizeOf ds

/-- Adds coefficient by coefficient. -/
def addList (p : Nat) : List ResiduePoly → List ResiduePoly → List ResiduePoly
  | [], ds => ds
  | cs, [] => cs
  | c :: cs, d :: ds => ResiduePoly.add p c d :: addList p cs ds
termination_by cs ds => sizeOf cs + sizeOf ds

end

mutual

protected def neg (p : Nat) : ResiduePoly → ResiduePoly
  | const a => const (Residue.neg p a)
  | node v cs => node v (negList p cs)

/-- The negated coefficients. -/
def negList (p : Nat) : List ResiduePoly → List ResiduePoly
  | [] => []
  | c :: cs => ResiduePoly.neg p c :: negList p cs

end

protected def sub (p : Nat) (a b : ResiduePoly) : ResiduePoly :=
  ResiduePoly.add p a (ResiduePoly.neg p b)

mutual

/-- All coefficients multiplied by a residue. -/
def scaleCoeffs (p c : Nat) : ResiduePoly → ResiduePoly
  | const a => const (Residue.mul p a c)
  | node v cs => node v (scaleCoeffsList p c cs)

/-- The multiplied coefficients. -/
def scaleCoeffsList (p c : Nat) : List ResiduePoly → List ResiduePoly
  | [] => []
  | d :: ds => scaleCoeffs p c d :: scaleCoeffsList p c ds

end

/-- The product with a residue. -/
def scale (p c : Nat) (a : ResiduePoly) : ResiduePoly := if c = 0 then 0 else scaleCoeffs p c a

/-- Adds a list of coefficients to another from position `i` on. -/
def addAt (p : Nat) : Nat → List ResiduePoly → List ResiduePoly → List ResiduePoly
  | 0, row, acc => addList p acc row
  | _ + 1, _, [] => []
  | i + 1, row, c :: acc => c :: addAt p i row acc

mutual

protected def mul (p : Nat) : ResiduePoly → ResiduePoly → ResiduePoly
  | const a, b => scale p a b
  | a, const b => scale p b a
  | node v cs, node w ds =>
    if v = w then
      ofCoeffs v (mulRows p 0 cs ds (List.replicate (cs.length + ds.length - 1) 0))
    else if v < w then ofCoeffs w (addList p (List.replicate ds.length 0) (mulRow p (node v cs) ds))
    else ofCoeffs v (addList p (List.replicate cs.length 0) (mulColumn p cs (node w ds)))
termination_by a b => sizeOf a + sizeOf b

/-- The products of one polynomial with a list. -/
def mulRow (p : Nat) (c : ResiduePoly) : List ResiduePoly → List ResiduePoly
  | [] => []
  | d :: ds => ResiduePoly.mul p c d :: mulRow p c ds
termination_by ds => sizeOf c + sizeOf ds

/-- The products of a list with one polynomial. -/
def mulColumn (p : Nat) : List ResiduePoly → ResiduePoly → List ResiduePoly
  | [], _ => []
  | c :: cs, d => ResiduePoly.mul p c d :: mulColumn p cs d
termination_by cs d => sizeOf cs + sizeOf d

/-- Adds the products of two lists of coefficients, the first from position `i` on, to `acc`. -/
def mulRows (p i : Nat) :
    List ResiduePoly → List ResiduePoly → List ResiduePoly → List ResiduePoly
  | [], _, acc => acc
  | c :: cs, ds, acc =>
    mulRows p (i + 1) cs ds (if c.isZero then acc else addAt p i (mulRow p c ds) acc)
termination_by cs ds => sizeOf cs + sizeOf ds

end

/-- The product with `v ^ k`. -/
def shift (v k : Nat) (a : ResiduePoly) : ResiduePoly :=
  if k = 0 || a.isZero then a else ofCoeffs v (List.replicate k 0 ++ a.coeffsIn v)

/-- The derivative with respect to the main variable `v`. -/
def derivative (p v : Nat) (a : ResiduePoly) : ResiduePoly :=
  match a with
  | const _ => 0
  | node w cs =>
    if w = v then ofCoeffs v (cs.tail.zipIdx.map fun c => scale p ((c.2 + 1) % p) c.1) else 0

/-! ## Images of rational polynomials -/

/-- The image of a polynomial with fewer than `n` variables, `none` if the prime divides a
denominator. -/
def ofPolyUpTo? (p : Nat) : Nat → Poly → Option ResiduePoly
  | 0, _ => none
  | n + 1, q =>
    match q.mainVar? with
    | none => (Residue.ofRat? p q.constantValue).map const
    | some v => ((q.coeffs v).mapM (ofPolyUpTo? p n)).map (ofCoeffs v)

/-- The image modulo `p`, `none` if the prime divides a denominator. -/
def ofPoly? (p : Nat) (q : Poly) : Option ResiduePoly := ofPolyUpTo? p (q.vars.length + 1) q

mutual

/-- The nonzero coefficients with their monomials, each multiplied by the given powers. -/
def entries (powers : List (Nat × Nat)) : ResiduePoly → List (Monomial × Nat)
  | const a => if a = 0 then [] else [(.ofPowers powers, a)]
  | node v cs => entriesFrom powers v 0 cs

/-- The entries of coefficients of `v ^ i` and the powers after it. -/
def entriesFrom (powers : List (Nat × Nat)) (v i : Nat) :
    List ResiduePoly → List (Monomial × Nat)
  | [] => []
  | c :: cs =>
    entries (if i = 0 then powers else (v, i) :: powers) c ++ entriesFrom powers v (i + 1) cs

end

/-- The nonzero coefficients with their monomials. -/
def image (a : ResiduePoly) : List (Monomial × Nat) := a.entries []

/-- The polynomial with the representatives of least absolute value as coefficients. -/
def toPoly (p : Nat) (a : ResiduePoly) : Poly :=
  .ofTerms .grLex (a.image.map fun e => ⟨(Residue.symmetric p e.2 : Int), e.1⟩)

end ResiduePoly

end Cylindrical
