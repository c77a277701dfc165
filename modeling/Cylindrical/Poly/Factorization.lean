import Cylindrical.Poly.Gcd
import Cylindrical.Univariate.Basic

/-!
# Square-free factorization

A polynomial is split into its contents, their square-free parts by multiplicity, and the rational
linear factors of univariate parts.  The factors are canonical, square-free and pairwise coprime,
but not irreducible in general.
-/

namespace Cylindrical

/-- A constant times a product of powers. -/
structure Factorization where
  constant : Rat
  factors : List (Poly × Nat)
deriving DecidableEq, Inhabited

namespace Factorization

/-- The product. -/
def expand (f : Factorization) : Poly :=
  f.factors.foldl (fun acc g => acc * g.1.pow g.2) (.const f.constant)

end Factorization

namespace Poly

/-! ## Square-free decomposition -/

/-- The steps of the decomposition from multiplicity `i` on: `b` is the product of the factors of
multiplicity at least `i`, and `d` tells those of multiplicity `i` apart. -/
def squareFreeSteps (v : Nat) : Nat → Nat → Poly → Poly → Algebra (List (Poly × Nat))
  | 0, _, _, _ => .ok []
  | steps + 1, i, b, d =>
    if b.containsVar v then do
      let a ← gcd b d
      let b' ← b.exactQuotient a
      let c ← d.exactQuotient a
      let later ← squareFreeSteps v steps (i + 1) b' (c - b'.derivative v)
      return if a.containsVar v then (a.canonical, i) :: later else later
    else .ok []

/-- The square-free factors of a polynomial that is primitive in `v`, with their
multiplicities. -/
def squareFreeFactors (v : Nat) (p : Poly) : Algebra (List (Poly × Nat)) :=
  if p.containsVar v then do
    let p' := p.derivative v
    let g ← gcd p p'
    if g.isNumber then return [(p.canonical, 1)]
    else
      let b ← p.exactQuotient g
      let c ← p'.exactQuotient g
      squareFreeSteps v (p.degreeOf v) 1 b (c - b.derivative v)
  else .ok []

/-! ## Rational roots -/

/-- The divisors of `n` up to the given bound, in front of a list. -/
def divisorsUpTo (n : Nat) : Nat → List Nat → List Nat
  | 0, ds => ds
  | k + 1, ds => divisorsUpTo n k (if n % (k + 1) = 0 then (k + 1) :: ds else ds)

/-- The largest number whose divisors are listed. -/
def divisorLimit : Nat := 1099511627776

/-- The divisors in increasing order; `none` for zero and beyond the limit. -/
def divisors? (n : Nat) : Option (List Nat) :=
  if n = 0 || divisorLimit < n then none
  else
    let small := divisorsUpTo n n.sqrt []
    some (small ++ ((small.filter fun d => d * d != n).map (n / ·)).reverse)

/-- The fractions with numerators and denominators from two lists, each followed by its negative. -/
def signedFractions (numerators denominators : List Nat) : List Rat :=
  numerators.flatMap fun (n : Nat) => denominators.flatMap fun d => [mkRat n d, mkRat (-n) d]

/-- The rational roots of an integer polynomial with nonzero constant coefficient, as long as the
divisors of its extreme coefficients can be listed. -/
def rationalRoots (cs : List Rat) : List Rat :=
  match cs.head?, cs.getLast? with
  | some a, some b =>
    if a = 0 || cs.length < 2 then []
    else
      match divisors? a.num.natAbs, divisors? b.num.natAbs with
      | some rs, some ss =>
        (signedFractions rs ss).foldl (fun roots x =>
          if roots.contains x then roots
          else if Univariate.eval cs x = 0 then roots ++ [x]
          else roots) []
      | _, _ => []
  | _, _ => []

/-- The canonical linear polynomial in `v` with the root `x`. -/
def linearFactor (v : Nat) (x : Rat) : Poly := univariate v [(-x.num : Int), (x.den : Int)]

/-- Divides by the linear factors of a list of roots; the factors, and what is left. -/
def splitRoots (v : Nat) (rest : Poly) : List Rat → Algebra (List Poly × Poly)
  | [] => .ok ([], rest)
  | x :: xs => do
    let rest' ← rest.exactQuotient (linearFactor v x)
    let (fs, r) ← splitRoots v rest' xs
    return ((linearFactor v x).canonical :: fs, r)

/-- Splits rational linear factors off a univariate polynomial; others are left alone. -/
def splitLinear (p : Poly) : Algebra (List Poly) :=
  match p.mainVar? with
  | none => .ok [p.canonical]
  | some v =>
    match p.univariate? v with
    | none => .ok [p]
    | some cs =>
      if cs.length ≤ 2 then .ok [p.canonical]
      else do
        let zero := cs.head? == some 0
        let rest ← if zero then p.canonical.exactQuotient (var v) else .ok p.canonical
        let roots := rationalRoots ((rest.univariate? v).getD [])
        let (fs, r) ← splitRoots v rest roots
        let fs := if zero then var v :: fs else fs
        return if r.containsVar v then fs ++ [r.canonical] else fs

/-! ## Factorization -/

/-- Adds a factor to a list; equal factors add their multiplicities. -/
def insertFactor (f : Poly) (m : Nat) : List (Poly × Nat) → List (Poly × Nat)
  | [] => if f.isNumber then [] else [(f, m)]
  | (g, k) :: gs =>
    if f.isNumber then (g, k) :: gs
    else if g.sameTerms f then (g, k + m) :: gs
    else (g, k) :: insertFactor f m gs

/-- The factors of a canonical polynomial with fewer than `n` variables. -/
def factorsUpTo : Nat → Poly → Algebra (List (Poly × Nat))
  | 0, _ => .ok []
  | n + 1, p =>
    match p.mainVar? with
    | none => .ok []
    | some v => do
      let lower ← factorsUpTo n (← p.contentIn v)
      let parts ← squareFreeFactors v (← p.primitivePartIn v)
      parts.foldlM (fun fs (f, m) => do
        return (← f.splitLinear).foldl (fun fs g => insertFactor g m fs) fs) lower

/-- The factorization of a polynomial; that of zero is the constant zero. -/
def factor (p : Poly) : Algebra Factorization :=
  if p.isZero then .ok ⟨0, []⟩
  else do return ⟨p.canonicalFactor, ← factorsUpTo (p.vars.length + 1) p.canonical⟩

/-- The product of the distinct factors, in canonical form. -/
def squareFreePart (p : Poly) : Algebra Poly := do
  let f ← p.factor
  let product : Poly := f.factors.foldl (fun acc g => acc * g.1) 1
  return product.canonical

end Poly

end Cylindrical
