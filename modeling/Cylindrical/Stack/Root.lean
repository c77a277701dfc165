import Cylindrical.Stack.Section

/-!
# Roots of a factor over a cell

Over a rational point a factor is a polynomial in one variable, and its roots are isolated.  Over
any other point the roots of its norm, the product of all conjugates, are candidates, which the zero
test confirms.  If the norm vanishes identically, some coefficient has a factor in common with a
defining polynomial, and testing the coefficients replaces that defining polynomial.
-/

namespace Cylindrical

namespace Stack

/-- The sign of a polynomial in lower variables at the point. -/
def signOf (zero : ZeroTest.Config) (p : Poly) : StackM Sign := atPoint (ZeroTest.signAt zero p)

/-- Whether a polynomial vanishes at the point. -/
def vanishes (zero : ZeroTest.Config) (p : Poly) : StackM Bool :=
  atPoint (ZeroTest.vanishesAt zero p)

/-! ## Degree over the cell -/

/-- The highest degree with a coefficient that does not vanish among the scanned ones, with the sign
of the coefficient. -/
def scannedLead (zero : ZeroTest.Config) (c : Cylinder) (f : ProjectionFactor) :
    List (Nat × Option Nat) → StackM (Option (Nat × Sign))
  | [] => return none
  | (_, none) :: ls => scannedLead zero c f ls
  | (k, some link) :: ls => do
    let s ← match c.sign link with
      | some s => pure s
      | none => signOf zero (f.poly.coeff c.level k)
    if s = .zero then scannedLead zero c f ls else return some (k, s)

/-- The highest degree below `n` with a coefficient that does not vanish. -/
def leadBelow (zero : ZeroTest.Config) (c : Cylinder) (f : ProjectionFactor) :
    Nat → StackM (Option (Nat × Sign))
  | 0 => return none
  | k + 1 => do
    let p := f.poly.coeff c.level k
    if p.isZero then leadBelow zero c f k
    else
      let s ← signOf zero p
      if s = .zero then leadBelow zero c f k else return some (k, s)

/-- The degree of a factor over the cell and the sign of its leading coefficient, `none` if it
vanishes identically. -/
def lead (zero : ZeroTest.Config) (c : Cylinder) (f : ProjectionFactor) :
    StackM (Option (Nat × Sign)) := do
  match ← scannedLead zero c f f.coeffLinks with
  | some l => return some l
  | none => leadBelow zero c f ((f.coeffLinks.getLast?.map (·.1)).getD (f.degree + 1))

/-- A factor over a cell: of one sign on the whole cylinder, or with roots to be found, where the
sign is that of the leading coefficient. -/
inductive Shape where
  | constant (sign : Sign)
  | roots (degree : Nat) (lead : Sign)

/-- The shape of a factor over the cell.  McCallum's operator does not allow a factor to vanish
identically over a cell of positive dimension. -/
def shape (zero : ZeroTest.Config) (c : Cylinder) (f : ProjectionFactor) : StackM Shape := do
  match ← lead zero c f with
  | none =>
    count fun s => { s with nullified := s.nullified + 1 }
    if c.operator = .mcCallum && c.dimension > 0 then throw (.notWellOriented f.poly f.level)
    else return .constant .zero
  | some (0, s) => return .constant s
  | some (degree, s) =>
    match f.rootlessSign? c.operator c.sign degree s with
    | some t =>
      count fun s => { s with shortcutSigns := s.shortcutSigns + 1 }
      return .constant t
    | none => return .roots degree s

/-! ## Roots -/

/-- The real roots of a square-free polynomial in `v` alone. -/
def isolate (v : Nat) (h : Poly) : StackM (List Coordinate) :=
  match h.univariate? v with
  | none => throw (.algebra (.notUnivariate h))
  | some [a, b] => return [.rational (-a / b)]
  | some cs => return (Univariate.isolate cs).map fun s =>
      if s.lo = s.hi then .rational s.lo else .algebraic (.ofRoot h.monic cs s)

/-- Whether no variable other than `v` occurs. -/
def isIn (v : Nat) (p : Poly) : Bool := p.vars.all (· == v)

/-- The resultants with the defining polynomials of the coordinates below `v`, one after the
other. -/
def norm : Nat → Poly → StackM Poly
  | 0, p => return p
  | u + 1, p => do
    let x := (← get).point
    match x.get? u with
    | some (.algebraic a) =>
      if p.containsVar u then
        norm u (← algebraically (AlgebraSystem.resultant u p (x.substituteKnown a.defining)))
      else norm u p
    | _ => norm u p

/-- Tests coefficients until a defining polynomial is replaced, and returns whether one is. -/
def splitTower (zero : ZeroTest.Config) : List Poly → StackM Bool
  | [] => return false
  | c :: cs => do
    if c.isNumber then splitTower zero cs
    else
      let before := (← get).stats.replacements
      let _ ← vanishes zero c
      if before < (← get).stats.replacements then
        count fun s => { s with towerSplits := s.towerSplits + 1 }
        return true
      else splitTower zero cs

/-- The factor at the point, and its norm if the factor has lower coordinates in it: a polynomial
in `v` other than zero. -/
def normAt (zero : ZeroTest.Config) (v : Nat) (f p : Poly) : Nat → StackM (Poly × Option Poly)
  | 0 => throw (.inconclusive (.normVanishes f))
  | steps + 1 => do
    let g := (← get).point.substituteKnown p
    if isIn v g then return (g, none)
    let n ← norm v g
    if !n.isZero && isIn v n then return (g, some n)
    if ← splitTower zero (g.coeffs v).reverse then normAt zero v f p steps
    else throw (.inconclusive (.normVanishes f))

/-- The multiplicity of a root from `m` on, where `p` is the derivative of that order. -/
def multiplicityFrom (zero : ZeroTest.Config) (v : Nat) : Nat → Nat → Poly → StackM Nat
  | 0, m, _ => return m
  | left + 1, m, p => do
    if ← vanishes zero p then multiplicityFrom zero v left (m + 1) (p.derivative v) else return m

/-- The candidate as a root of `g`, if it is one. -/
def confirm (zero : ZeroTest.Config) (c : Cylinder) (i : Nat) (f : ProjectionFactor) (degree : Nat)
    (g : Poly) (candidate : Coordinate) : StackM (Option FactorRoot) := do
  modify fun s => { s with point := s.point.push candidate }
  if ← vanishes zero g then
    let m ← if f.mayHaveMultipleRoot c.operator c.sign degree then
        multiplicityFrom zero c.level (degree - 1) 1 (g.derivative c.level)
      else pure 1
    let coord := ((← get).point.get? c.level).getD candidate
    modify fun s => { s with point := s.point.pop }
    return some ⟨coord, i, m⟩
  else
    modify fun s => { s with point := s.point.pop }
    count fun s => { s with rejectedCandidates := s.rejectedCandidates + 1 }
    return none

/-- The roots of the factor with the number `i` over the cell. -/
def roots (zero : ZeroTest.Config) (c : Cylinder) (i : Nat) (f : ProjectionFactor) (degree : Nat) :
    StackM (List FactorRoot) := do
  let v := c.level
  let p := Poly.ofCoeffs v ((f.poly.coeffs v).take (degree + 1))
  match ← normAt zero v f.poly p (ZeroTest.weight (← get).point + 1) with
  | (g, none) =>
    let h ← algebraically (AlgebraSystem.factor g)
    return (← h.factors.mapM fun (q, m) => do
      return (← isolate v q).map fun x => ⟨x, i, m⟩).flatten
  | (g, some n) =>
    let h ← algebraically (AlgebraSystem.factor n)
    return (← h.factors.mapM fun (q, _) => do
      (← isolate v q).filterMapM (confirm zero c i f degree g)).flatten

end Stack

end Cylindrical
