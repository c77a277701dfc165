import Cylindrical.Poly.Division

/-!
# Greatest common divisors

By recursion on the number of variables: contents with respect to the main variable are split off
and treated first, and the primitive parts are combined by a primitive remainder sequence.  Results
are canonical, which makes them unique.
-/

namespace Cylindrical

namespace Poly

/-- The greatest common divisor of a list, by a function for two polynomials; the rest of the list
is not looked at once it is one. -/
def gcdListBy (gcd : Poly → Poly → Algebra Poly) (acc : Poly) : List Poly → Algebra Poly
  | [] => .ok acc
  | p :: ps => do
    let g ← gcd acc p
    if g.isOne then return g else gcdListBy gcd g ps

/-- The greatest common divisor of the coefficients with respect to `v`. -/
def contentBy (gcd : Poly → Poly → Algebra Poly) (v : Nat) (p : Poly) : Algebra Poly :=
  if p.containsVar v then gcdListBy gcd 0 ((p.coeffs v).filter fun c => !c.isZero)
  else .ok p.canonical

/-- The canonical form of the polynomial divided by its content with respect to `v`. -/
def primitivePartBy (gcd : Poly → Poly → Algebra Poly) (v : Nat) (p : Poly) : Algebra Poly :=
  if p.isZero then .ok 0
  else do
    let c ← contentBy gcd v p
    return (← p.exactQuotient c).canonical

/-- The last nonzero element of the primitive remainder sequence of `f` and `g`, one if it does not
contain `v`. -/
def remainderSequence (gcd : Poly → Poly → Algebra Poly) (v : Nat) :
    Nat → Poly → Poly → Algebra Poly
  | 0, f, _ => .ok f
  | steps + 1, f, g =>
    if g.isZero then .ok f
    else do
      let r ← f.pseudoRemainder v g
      if r.isZero then return g
      else if !r.containsVar v then return 1
      else remainderSequence gcd v steps g (← primitivePartBy gcd v r)

/-- The greatest common divisor of two nonconstant polynomials with main variable `v`, by a
function for polynomials without `v`. -/
def gcdInVar (gcd : Poly → Poly → Algebra Poly) (v : Nat) (p q : Poly) : Algebra Poly := do
  let cp ← contentBy gcd v p
  let cq ← contentBy gcd v q
  let pp ← p.exactQuotient cp
  let pq ← q.exactQuotient cq
  let c ← gcd cp cq
  let (f, g) := if pq.degreeOf v ≤ pp.degreeOf v then (pp, pq) else (pq, pp)
  let h ← remainderSequence gcd v (g.degreeOf v + 1) f g
  return (c * (← primitivePartBy gcd v h)).canonical

/-- The greatest common divisor of polynomials with fewer than `n` variables in all. -/
def gcdUpTo : Nat → Poly → Poly → Algebra Poly
  | 0, _, _ => .ok 1
  | n + 1, p, q =>
    if p.isZero then .ok q.canonical
    else if q.isZero then .ok p.canonical
    else
      match p.mainVar?, q.mainVar? with
      | some u, some w =>
        let v := max u w
        if !p.containsVar v then do gcdUpTo n p (← contentBy (gcdUpTo n) v q)
        else if !q.containsVar v then do gcdUpTo n (← contentBy (gcdUpTo n) v p) q
        else gcdInVar (gcdUpTo n) v p q
      | _, _ => .ok 1

/-- The number of variables of two polynomials. -/
def varCount (p q : Poly) : Nat := (q.vars.foldl (fun vs v => insertVar v vs) p.vars).length

/-- The greatest common divisor, in canonical form; one if one of the two is a constant. -/
def gcd (p q : Poly) : Algebra Poly := gcdUpTo (varCount p q + 1) p q

/-- The greatest common divisor of a list. -/
def gcdList (ps : List Poly) : Algebra Poly := gcdListBy gcd 0 ps

/-- The content with respect to `v`: the greatest common divisor of the coefficients. -/
def contentIn (v : Nat) (p : Poly) : Algebra Poly := contentBy gcd v p

/-- The primitive part with respect to `v`, in canonical form. -/
def primitivePartIn (v : Nat) (p : Poly) : Algebra Poly := primitivePartBy gcd v p

/-- The least common multiple, in canonical form. -/
def lcm (p q : Poly) : Algebra Poly :=
  if p.isZero || q.isZero then .ok 0
  else do return ((← p.exactQuotient (← gcd p q)) * q).canonical

end Poly

end Cylindrical
