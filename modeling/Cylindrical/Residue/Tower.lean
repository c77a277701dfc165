import Cylindrical.Residue.Poly
import Cylindrical.StepLimit

/-!
# Towers of extensions of a prime field

A tower is a list of polynomials, each monic in a variable of its own with coefficients in the
variables below.  Modulo all of them a polynomial has a normal form, its remainder.  The quotient
ring is a product of fields: the Euclidean algorithm either inverts an element, or it meets an
element without an inverse and exposes a proper factor of one of the polynomials of the tower.
-/

namespace Cylindrical

/-- One level of a tower. -/
structure ResidueLevel where
  var : Nat
  /-- Monic in the variable of the level. -/
  defining : ResiduePoly
  /-- A monic factor of the defining polynomial and its cofactor, once known. -/
  split : Option (ResiduePoly × ResiduePoly) := none

/-- A monic factor of the defining polynomial of a level, which has been met in place of an
inverse. -/
structure ZeroDivisor where
  level : Nat
  factor : ResiduePoly

namespace ResiduePoly

/-- Applies a reduction to the coefficients in `v`. -/
def reduceCoeffs (v : Nat) (reduce : ResiduePoly → ResiduePoly) (a : ResiduePoly) : ResiduePoly :=
  match a with
  | const a => reduce (const a)
  | node w cs => if w = v then ofCoeffs v (cs.map reduce) else reduce (node w cs)

/-- Adds to a quotient while the remainder has the main variable `v` and at least the degree of the
divisor `d`. -/
def divideMonic (p v : Nat) (reduce : ResiduePoly → ResiduePoly) (d : ResiduePoly) :
    Nat → ResiduePoly → ResiduePoly → ResiduePoly × ResiduePoly
  | 0, q, r => (q, r)
  | steps + 1, q, r =>
    if r.mainVar? = some v && d.degreeIn v ≤ r.degreeIn v then
      let k := r.degreeIn v - d.degreeIn v
      let c := r.leadingCoeffIn v
      divideMonic p v reduce d steps (ResiduePoly.add p q (c.shift v k))
        (reduceCoeffs v reduce (ResiduePoly.sub p r ((ResiduePoly.mul p c d).shift v k)))
    else (q, r)

/-- Quotient and remainder by `d`, which is monic in `v` or one, with reduced coefficients. -/
def divRemMonic (p v : Nat) (reduce : ResiduePoly → ResiduePoly) (a d : ResiduePoly) :
    ResiduePoly × ResiduePoly :=
  let a := reduceCoeffs v reduce a
  let (q, r) := divideMonic p v reduce d (stepLimit + (a.degreeIn v + 1)) 0 a
  if d.degreeIn v = 0 then (reduceCoeffs v reduce (ResiduePoly.add p q r), 0)
  else (reduceCoeffs v reduce q, r)

/-- Euclid's algorithm on remainders `r₀` and `r₁` in `v`, with the cofactors of the element to be
inverted: it ends when the remainder no longer has the variable.  A trivial factor is reported when the
steps run out. -/
def invertLoop (p v level : Nat) (reduce reduceTop : ResiduePoly → ResiduePoly)
    (inverse : ResiduePoly → Except ZeroDivisor ResiduePoly) :
    Nat → ResiduePoly → ResiduePoly → ResiduePoly → ResiduePoly → Except ZeroDivisor ResiduePoly
  | 0, _, _, _, _ => .error ⟨level, 1⟩
  | steps + 1, r₀, s₀, r₁, s₁ =>
    if r₁.mainVar? = some v then do
      let c ← inverse (r₁.leadingCoeffIn v)
      let r₁ := reduceCoeffs v reduce (ResiduePoly.mul p r₁ c)
      let s₁ := reduceTop (ResiduePoly.mul p s₁ c)
      let (q, r) := divRemMonic p v reduce r₀ r₁
      let s := reduceTop (ResiduePoly.sub p s₀ (ResiduePoly.mul p q s₁))
      invertLoop p v level reduce reduceTop inverse steps r₁ s₁ r s
    else if r₁.isZero then .error ⟨level, r₀⟩
    else do
      let c ← inverse r₁
      return reduceTop (ResiduePoly.mul p s₁ c)

/-- The element divided by its leading coefficient in `v`. -/
def monicModulo (p v : Nat) (reduce : ResiduePoly → ResiduePoly)
    (inverse : ResiduePoly → Except ZeroDivisor ResiduePoly) (a : ResiduePoly) :
    Except ZeroDivisor ResiduePoly :=
  if a.leadingCoeffIn v == 1 then .ok a
  else do
    let c ← inverse (a.leadingCoeffIn v)
    return reduceCoeffs v reduce (ResiduePoly.mul p a c)

/-- Euclid's algorithm in `v`, up to a monic greatest common divisor. -/
def gcdLoop (p v : Nat) (reduce : ResiduePoly → ResiduePoly)
    (inverse : ResiduePoly → Except ZeroDivisor ResiduePoly) :
    Nat → ResiduePoly → ResiduePoly → Except ZeroDivisor ResiduePoly
  | 0, a, _ => .ok a
  | steps + 1, a, b =>
    if b.isZero then if a.isZero then .ok a else monicModulo p v reduce inverse a
    else if b.mainVar? = some v then do
      let b ← monicModulo p v reduce inverse b
      gcdLoop p v reduce inverse steps b (divRemMonic p v reduce a b).2
    else do
      let _ ← inverse b
      return 1

end ResiduePoly

/-- A tower of extensions of the field of residues modulo a prime, with increasing variables. -/
structure ResidueTower where
  prime : Nat
  levels : List ResidueLevel

namespace ResidueTower

/-- The image of one defining polynomial, `none` if the prime divides a denominator or the image is
not monic of the same degree. -/
def level? (p v : Nat) (d : Poly) : Option ResidueLevel :=
  match ResiduePoly.ofPoly? p d with
  | none => none
  | some a =>
    if a.mainVar? = some v && a.degreeIn v == d.degreeOf v && a.leadingCoeffIn v == 1 then
      some { var := v, defining := a }
    else none

/-- The image of a tower of rational polynomials, `none` for an unlucky prime. -/
def ofPolys? (p : Nat) (ds : List (Nat × Poly)) : Option ResidueTower :=
  (ds.mapM fun d => level? p d.1 d.2).map (⟨p, ·⟩)

/-- The position of the level of a variable. -/
def levelOf? (t : ResidueTower) (v : Nat) : Option Nat := t.levels.findIdx? (·.var == v)

/-- The defining polynomial of a level. -/
def defining (t : ResidueTower) (i : Nat) : ResiduePoly := ((t.levels[i]?).map (·.defining)).getD 0

/-- The number of levels with a variable below `v`. -/
def countBelow (t : ResidueTower) (v : Nat) : Nat :=
  (t.levels.takeWhile fun l => l.var < v).length

mutual

/-- The remainder modulo the levels with a position below `limit`: the coefficients are reduced
first, then the polynomial by the level of its main variable. -/
def reduceBelow (t : ResidueTower) (limit : Nat) : ResiduePoly → ResiduePoly
  | .const a => .const a
  | .node v cs =>
    let a := ResiduePoly.ofCoeffs v (reduceList t limit cs)
    match t.levelOf? v with
    | none => a
    | some i =>
      if i < limit then (a.divRemMonic t.prime v (fun c => reduceBelow t i c) (t.defining i)).2 else a
termination_by a => (limit, sizeOf a)

/-- The remainders of a list of coefficients. -/
def reduceList (t : ResidueTower) (limit : Nat) : List ResiduePoly → List ResiduePoly
  | [] => []
  | c :: cs => reduceBelow t limit c :: reduceList t limit cs
termination_by cs => (limit, sizeOf cs)

end

/-- The remainder modulo all levels. -/
def reduce (t : ResidueTower) (a : ResiduePoly) : ResiduePoly := t.reduceBelow t.levels.length a

/-- The reduced image of a rational polynomial, `none` if the prime divides a denominator or a
variable has no level. -/
def image? (t : ResidueTower) (p : Poly) : Option ResiduePoly :=
  if p.vars.all fun v => t.levels.any fun l => l.var == v then
    (ResiduePoly.ofPoly? t.prime p).map t.reduce
  else none

/-- Quotient and remainder by `d`, which is monic in `v` or one, modulo the levels with a position
below `limit`. -/
def divRem (t : ResidueTower) (v limit : Nat) (a d : ResiduePoly) : ResiduePoly × ResiduePoly :=
  a.divRemMonic t.prime v (t.reduceBelow limit) d

/-- The inverse of a reduced element, by nested inversions of coefficients, at most as many as the
given number.  A trivial factor is reported when they run out. -/
def inverseUpTo (t : ResidueTower) : Nat → ResiduePoly → Except ZeroDivisor ResiduePoly
  | _, .const a => .ok (.const ((Residue.inverse? t.prime a).getD 0))
  | 0, .node _ _ => .error ⟨0, 1⟩
  | n + 1, .node v cs =>
    match t.levelOf? v with
    | none => .ok 0
    | some i =>
      ResiduePoly.invertLoop t.prime v i (t.reduceBelow i) (t.reduceBelow (i + 1)) (t.inverseUpTo n)
        (stepLimit + (cs.length + 1)) (t.defining i) 0 (.node v cs) 1

/-- The inverse of a reduced element; zero for zero, and for an element with a main variable that
has no level. -/
def inverse (t : ResidueTower) (a : ResiduePoly) : Except ZeroDivisor ResiduePoly :=
  t.inverseUpTo (stepLimit + t.levels.length) a

/-- The monic greatest common divisor in `v` over the levels below `v`. -/
def gcd (t : ResidueTower) (v : Nat) (a b : ResiduePoly) : Except ZeroDivisor ResiduePoly :=
  let reduce := t.reduceBelow (t.countBelow v)
  let a := a.reduceCoeffs v reduce
  let b := b.reduceCoeffs v reduce
  let steps := stepLimit + (a.degreeIn v + b.degreeIn v + 2)
  if a.degreeIn v < b.degreeIn v then ResiduePoly.gcdLoop t.prime v reduce t.inverse steps b a
  else ResiduePoly.gcdLoop t.prime v reduce t.inverse steps a b

/-- Keeps a factor of a defining polynomial together with its cofactor. -/
def recordSplit (t : ResidueTower) (z : ZeroDivisor) : ResidueTower where
  prime := t.prime
  levels := t.levels.mapIdx fun i l =>
    if i = z.level then
      { l with split := some (z.factor, (t.divRem l.var i l.defining z.factor).1) }
    else l

end ResidueTower

end Cylindrical
