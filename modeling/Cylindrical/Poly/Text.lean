import Cylindrical.Poly.Basic

/-!
# The written form of polynomials

The terms in their order, `x` with an index for a variable: `x1^2 - 2/3*x0 + 5`.  A coefficient
one is left out in front of a power product, and the sign of a later term becomes the operator.
-/

namespace Cylindrical

/-- `n`, or `n/d` in lowest terms. -/
def rationalText (c : Rat) : String :=
  if c.den = 1 then toString c.num else toString c.num ++ "/" ++ toString c.den

/-- One power, with a name for the variable. -/
def powerText (name : Nat → String) (p : Nat × Nat) : String :=
  if p.2 = 1 then name p.1 else name p.1 ++ "^" ++ toString p.2

/-- The name `x` with the index of the variable. -/
def indexedName (v : Nat) : String := "x" ++ toString v

namespace Monomial

/-- The powers from the smallest variable up, joined by `*`. -/
def textWith (name : Nat → String) (m : Monomial) : String :=
  if m.isUnit then "1" else "*".intercalate (m.powers.reverse.map (powerText name))

def text (m : Monomial) : String := m.textWith indexedName

end Monomial

namespace Term

def textWith (name : Nat → String) (t : Term) : String :=
  if t.monomial.isUnit then rationalText t.coeff
  else if t.coeff = 1 then t.monomial.textWith name
  else if t.coeff = -1 then "-" ++ t.monomial.textWith name
  else rationalText t.coeff ++ "*" ++ t.monomial.textWith name

/-- A term that follows others, with its sign as an operator. -/
def laterTextWith (name : Nat → String) (t : Term) : String :=
  if t.coeff < 0 then " - " ++ textWith name ⟨-t.coeff, t.monomial⟩ else " + " ++ t.textWith name

end Term

namespace Poly

def textWith (name : Nat → String) (p : Poly) : String :=
  match p.terms with
  | [] => "0"
  | t :: ts => t.textWith name ++ String.join (ts.map (Term.laterTextWith name))

def text (p : Poly) : String := p.textWith indexedName

instance : ToString Poly := ⟨text⟩

end Poly

end Cylindrical
