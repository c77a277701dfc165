import Cylindrical.Poly.Gcd

/-!
# Coprime bases

A set of polynomials is refined into pairwise coprime ones whose products give back all of them.
Each refinement step splits two polynomials at their greatest common divisor, which lowers the sum
of the total degrees.
-/

namespace Cylindrical

namespace Poly

/-- The outcome of comparing a polynomial with a basis: what is left of it, the elements that
share no factor with it, and the polynomials that were split off. -/
structure Refinement where
  rest : Poly
  coprime : List Poly
  split : List Poly

/-- Splits `f` and the elements of a basis at their common factors, until `f` is used up. -/
def refineAgainst (f : Poly) : List Poly → Algebra Refinement
  | [] => .ok ⟨f, [], []⟩
  | b :: bs =>
    if b.sameTerms f then .ok ⟨1, b :: bs, []⟩
    else do
      let g ← gcd f b
      if g.isNumber then
        let r ← refineAgainst f bs
        return { r with coprime := b :: r.coprime }
      else
        let b' ← b.exactQuotient g
        let f' ← f.exactQuotient g
        let pieces := if b'.isNumber then [g] else [g, b'.canonical]
        if f'.isNumber then return ⟨f', bs, pieces⟩
        else
          let r ← refineAgainst f' bs
          return { r with split := r.split ++ pieces }

/-- Adds pending polynomials to a basis, the pieces of a split next. -/
def coprimeBasisSteps : Nat → List Poly → List Poly → Algebra (List Poly)
  | 0, basis, _ => .ok basis
  | _, basis, [] => .ok basis
  | steps + 1, basis, f :: pending => do
    let r ← refineAgainst f basis
    let basis' := if r.rest.isNumber then r.coprime else r.coprime ++ [r.rest.canonical]
    coprimeBasisSteps steps basis' (r.split ++ pending)

/-- A bound for the number of polynomials that are added in the course of the refinement. -/
def refinementBound (ps : List Poly) : Nat :=
  ps.foldl (fun n p => n + 2 * p.totalDegree + 1) 0

/-- Canonical, nonconstant and pairwise coprime polynomials whose products give back all
nonconstant members of the list up to constants. -/
def coprimeBasis (ps : List Poly) : Algebra (List Poly) :=
  let pending := (ps.filter fun p => !p.isNumber).map canonical
  coprimeBasisSteps (refinementBound pending) [] pending

/-- Divides by `b` as often as possible, at most the given number of times; the quotient, and the
number of divisions. -/
def divideOut (b : Poly) : Nat → Poly → Poly × Nat
  | 0, p => (p, 0)
  | steps + 1, p =>
    if p.isNumber then (p, 0)
    else
      match p.divExact? b with
      | none => (p, 0)
      | some q =>
        let (r, m) := divideOut b steps q
        (r, m + 1)

/-- The polynomial divided by all powers of the basis elements, numbered from `i`, that it
contains, and the numbers with the exponents. -/
def divideOutAll (i : Nat) (p : Poly) : List Poly → Poly × List (Nat × Nat)
  | [] => (p, [])
  | b :: bs =>
    let (q, m) := divideOut b p.totalDegree p
    let (r, ms) := divideOutAll (i + 1) q bs
    (r, if m = 0 then ms else (i, m) :: ms)

/-- The constant and the exponents that write `p` as a product over the basis. -/
def expressOver (basis : List Poly) (p : Poly) : Algebra (Rat × List (Nat × Nat)) :=
  let (rest, ms) := divideOutAll 0 p basis
  if rest.isNumber then .ok (rest.constantValue, ms) else .error (.notOverBasis p)

end Poly

end Cylindrical
