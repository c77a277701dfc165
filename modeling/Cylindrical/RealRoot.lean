import Cylindrical.Poly.Factorization
import Cylindrical.Univariate.Isolation

/-!
# Real roots of a polynomial in one variable

Rational roots that show as linear factors are exact, all others are given by isolating intervals
of the product of the remaining factors.  The enclosures are disjoint and in increasing order.
-/

namespace Cylindrical

/-- One real root. -/
inductive RealRoot where
  | exact (x : Rat)
  /-- The only root in the open interval; neither end is a root. -/
  | within (s : Interval)
deriving DecidableEq

namespace RealRoot

/-- The lower end of the enclosure. -/
def lower : RealRoot → Rat
  | exact x => x
  | within s => s.lo

/-- Inserts a root into a list ordered by lower ends, in front of those with the same one. -/
def insert (r : RealRoot) : List RealRoot → List RealRoot
  | [] => [r]
  | q :: qs => if r.lower ≤ q.lower then r :: q :: qs else q :: insert r qs

end RealRoot

namespace Poly

/-- The roots of the linear ones among square-free univariate factors, and the product of the
others. -/
def partLinear (v : Nat) (fs : List Poly) : List Rat × Poly :=
  fs.foldl (fun (roots, rest) f =>
    match f.univariate? v with
    | some [a, b] => (roots ++ [-a / b], rest)
    | _ => (roots, rest * f)) ([], 1)

/-- The distinct real roots of a polynomial in `v` alone, in increasing order. -/
def realRoots (v : Nat) (p : Poly) : Algebra (List RealRoot) :=
  if p.isZero then .error .rootsOfZero
  else if (p.univariate? v).isNone then .error (.notUnivariateIn p v)
  else do
    let f ← p.factor
    let (exacts, rest) := partLinear v (f.factors.map (·.1))
    let cs := (rest.univariate? v).getD []
    let spans := (Univariate.isolate cs).map fun s => exacts.foldl (fun s x =>
      Univariate.bisectAwayFrom cs x (Univariate.separationSteps cs x s) s) s
    let roots := exacts.map RealRoot.exact ++ spans.map RealRoot.within
    return roots.foldr RealRoot.insert []

end Poly

end Cylindrical
