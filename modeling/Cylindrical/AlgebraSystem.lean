import Cylindrical.Groebner.Basic
import Cylindrical.Poly.Factorization
import Cylindrical.Poly.Subresultant

/-!
# The computer algebra behind a decomposition

Factorization, greatest common divisors, resultants, subresultants and Gröbner bases as counted
calls.  Gröbner bases come with an order of the variables, from the most significant one down: a
proper initial block of them is eliminated, otherwise the order refines the total degree.
-/

namespace Cylindrical

/-- Numbers of calls. -/
structure CallCounts where
  factor : Nat := 0
  gcd : Nat := 0
  resultant : Nat := 0
  subresultant : Nat := 0
  groebner : Nat := 0
  reduce : Nat := 0
deriving Inhabited

/-- Settings and counts of the algebra in use. -/
structure AlgebraSystem where
  groebner : Groebner.Config := {}
  groebnerStats : Groebner.Stats := {}
  calls : CallCounts := {}
deriving Inhabited

/-- Counted calls, which count also when they fail. -/
abbrev AlgebraM := EStateM AlgebraError AlgebraSystem

/-! ## Order of variables -/

/-- Variables from the most significant one down, and those below them in increasing order. -/
structure VariableOrder where
  ranked : List Nat
  others : List Nat

namespace VariableOrder

/-- The order of the ranked variables, with all other variables of some polynomials below. -/
def ofPolys (ranked : List Nat) (ps : List Poly) : VariableOrder where
  ranked := ranked
  others := ps.foldl (fun vs p => (p.vars.filter fun v => !ranked.contains v).foldl
    (fun vs v => Poly.insertVar v vs) vs) []

/-- The position of a variable, the least significant one first. -/
def rank (o : VariableOrder) (v : Nat) : Nat :=
  match o.ranked.reverse.idxOf? v with
  | some i => o.others.length + i
  | none => (o.others.idxOf? v).getD v

/-- The variable at a position. -/
def unrank (o : VariableOrder) (r : Nat) : Nat :=
  if r < o.others.length then o.others.getD r r
  else o.ranked.reverse.getD (r - o.others.length) r

/-- The polynomial with its variables replaced by their positions. -/
def apply (o : VariableOrder) (m : MonomialOrder) (p : Poly) : Poly :=
  (p.rename o.rank).withOrder m

/-- The polynomial with positions replaced by variables. -/
def undo (o : VariableOrder) (p : Poly) : Poly := (p.rename o.unrank).withOrder .grLex

end VariableOrder

namespace AlgebraSystem

/-! ## Counted calls -/

/-- Counts a call and returns its result. -/
def call {α : Type} (count : CallCounts → CallCounts) (result : Algebra α) : AlgebraM α := do
  modify fun s => { s with calls := count s.calls }
  match result with
  | .ok a => return a
  | .error e => throw e

def factor (p : Poly) : AlgebraM Factorization :=
  call (fun c => { c with factor := c.factor + 1 }) p.factor

def gcd (p q : Poly) : AlgebraM Poly := call (fun c => { c with gcd := c.gcd + 1 }) (p.gcd q)

def resultant (v : Nat) (p q : Poly) : AlgebraM Poly :=
  call (fun c => { c with resultant := c.resultant + 1 }) (Poly.resultant v p q)

def discriminant (v : Nat) (p : Poly) : AlgebraM Poly :=
  call (fun c => { c with resultant := c.resultant + 1 }) (p.discriminant v)

def subresultantCoeff (v j : Nat) (p q : Poly) : AlgebraM Poly :=
  call (fun c => { c with subresultant := c.subresultant + 1 }) (Poly.subresultantCoeff v j p q)

def subresultant (v k : Nat) (p q : Poly) : AlgebraM Poly :=
  call (fun c => { c with subresultant := c.subresultant + 1 }) (Poly.subresultant v k p q)

/-- The order of monomials in which the first `block` of the ranked variables are eliminated. -/
def eliminationOrder (ranked : List Nat) (block : Nat) : MonomialOrder :=
  if 0 < block && block < ranked.length then .lex else .gRevLex

/-- The reduced Gröbner basis of an ideal. -/
def groebnerBasis (ranked : List Nat) (block : Nat) (ps : List Poly) : AlgebraM (List Poly) :=
  fun s =>
    let order := eliminationOrder ranked block
    let vars := VariableOrder.ofPolys ranked ps
    let s := { s with calls := { s.calls with groebner := s.calls.groebner + 1 } }
    match Groebner.basis s.groebner order (ps.map (vars.apply order)) s.groebnerStats with
    | .ok basis stats =>
      .ok (if Groebner.isUnitIdeal basis then [1] else basis.map vars.undo)
        { s with groebnerStats := stats }
    | .error e stats => .error e { s with groebnerStats := stats }

/-- The normal form modulo a Gröbner basis for the same order, with coprime integer coefficients and
positive leading coefficient, and whether its sign was changed. -/
def reduce (ranked : List Nat) (block : Nat) (basis : List Poly) (p : Poly) :
    AlgebraM (Poly × Bool) := do
  let order := eliminationOrder ranked block
  let vars := VariableOrder.ofPolys ranked (basis ++ [p])
  let (q, negated) := (vars.apply order p).reduceBy (basis.map (vars.apply order))
  call (fun c => { c with reduce := c.reduce + 1 }) (.ok (vars.undo q, negated))

/-- Sets all counts to zero. -/
def resetCounts (s : AlgebraSystem) : AlgebraSystem := { s with calls := {}, groebnerStats := {} }

end AlgebraSystem

end Cylindrical
