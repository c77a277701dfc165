import Cylindrical.AlgebraSystem
import Cylindrical.Focus
import Cylindrical.Residue.Reconstruction
import Cylindrical.Sample.Tower

/-!
# Zero test and signs at a sample point

The remainder of a polynomial modulo the tower of its coordinates vanishes at the point exactly when
it shares the root of the highest level.  Over one level the greatest common divisor is taken over
the rational numbers, and its sign at the ends of the isolating interval tells whether it has the
root.  Over several levels it is reconstructed from its images modulo primes: if one of these is
constant the value is not zero, otherwise interval arithmetic tells which of the divisor and its
cofactor has the root.  That one becomes the defining polynomial, also where a factor of a lower
level shows up as a zero divisor.  Each replacement lowers a degree.
-/

namespace Cylindrical

namespace ZeroTest

/-- Limits of the test. -/
structure Config where
  /-- The number of primes for one greatest common divisor. -/
  maxPrimes : Nat := 64
  /-- The precision of the first interval evaluation, in bits. -/
  initialPrecision : Nat := 32
  /-- How often the precision may double. -/
  maxDoublings : Nat := 8
  /-- The number of interval evaluations before the exact test. -/
  probeRounds : Nat := 3
deriving DecidableEq

/-- What has been done. -/
structure Stats where
  zeroTests : Nat := 0
  singleLevel : Nat := 0
  severalLevels : Nat := 0
  primesTried : Nat := 0
  unluckyPrimes : Nat := 0
  reconstructions : Nat := 0
  replacements : Nat := 0
  signQueries : Nat := 0
  intervalSigns : Nat := 0
deriving Inhabited

/-- The largest precision in use. -/
def maxPrecision : Nat := 4294967295

/-- The precision after a number of doublings. -/
def Config.precision (cfg : Config) (round : Nat) : Nat :=
  min (max cfg.initialPrecision 2 * Nat.pow 2 (min round 16)) maxPrecision

/-- The number of doublings before the exact test. -/
def Config.probe (cfg : Config) : Nat := min cfg.probeRounds cfg.maxDoublings

end ZeroTest

/-- A point under test. -/
structure PointState where
  algebra : AlgebraSystem := {}
  stats : ZeroTest.Stats := {}
  point : SamplePoint := {}

/-- Tests at a point, which they refine. -/
abbrev PointM := EStateM DecompositionError PointState

namespace PointState

/-- A computation of the algebra. -/
def algebraically {α : Type} (x : AlgebraM α) : PointM α :=
  focus (·.algebra) (fun a s => { s with algebra := a }) .backend x

end PointState

namespace ZeroTest

/-- Images of one degree modulo primes. -/
abbrev Images := Option (Nat × Reconstruction)

/-- Adds an image to those of the least degree met so far, and returns a reconstruction that the
image confirms. -/
def addImage (degree p : Nat) (image : ResiduePoly) (is : Images) : Option Poly × Images :=
  let fresh := (({} : Reconstruction).add p image.image)
  match is with
  | none => (fresh.1, some (degree, fresh.2))
  | some (d, r) =>
    if d < degree then (none, is)
    else if degree = d then
      let next := r.add p image.image
      (next.1, some (d, next.2))
    else (fresh.1, some (degree, fresh.2))

/-- The degree in `v` of a polynomial with the main variable `v`, otherwise zero. -/
def mainDegree (v : Nat) (a : ResiduePoly) : Nat :=
  if a.mainVar? = some v then a.degreeIn v else 0

/-- Whether a value is decided, or a defining polynomial has been replaced. -/
inductive Outcome where
  | decided (vanishes : Bool)
  | replaced

def count (f : Stats → Stats) : PointM Unit := modify fun s => { s with stats := f s.stats }

/-- Replaces a defining polynomial. -/
def replace (v : Nat) (d : Poly) : PointM Unit := do
  match (← get).point.get? v with
  | some (.algebraic a) =>
    count fun s => { s with replacements := s.replacements + 1 }
    modify fun s => { s with point := s.point.set v (.algebraic { a with defining := d }) }
  | _ => return

/-- Refines coordinates until no enclosure is wider than `2 ^ -bits`. -/
def refineTo (vars : List Nat) (bits : Nat) : PointM Unit :=
  modify fun s => { s with point := vars.foldl (fun x v => x.refineTo v bits) s.point }

/-- An enclosure of the value at the point. -/
def enclosure (prec : Nat) (p : Poly) : PointM Interval := do
  match Interval.evalPoly? prec (← get).point.span? p with
  | some s => return s
  | none => throw (.invalidAddress (.unassigned p))

/-- Whether `g` rather than `h` vanishes at the point, where one of them does. -/
def pickVanishing (cfg : Config) (g h : Poly) (vars : List Nat) : Nat → Nat → PointM Bool
  | 0, _ => throw (.inconclusive (.cofactorsNotSeparated cfg.maxDoublings))
  | rounds + 1, round => do
    refineTo vars (cfg.precision round / 2)
    let s ← enclosure (cfg.precision round) g
    let t ← enclosure (cfg.precision round) h
    match s.containsZero, t.containsZero with
    | true, false => return true
    | false, true => return false
    | false, false => throw (.inconclusive .noCofactorVanishes)
    | true, true => pickVanishing cfg g h vars rounds (round + 1)

/-- Makes that one of `g` and `h` which vanishes at the point the defining polynomial of a level,
and returns whether it is `g`. -/
def resolve (cfg : Config) (t : Tower) (i v : Nat) (g h : Poly) : PointM Bool := do
  let first ← pickVanishing cfg g h (t.varsThrough i) (cfg.maxDoublings + 1) 0
  replace v (if first then g else h)
  return first

/-- The test over one level, for a polynomial in its variable. -/
def overOne (l : TowerLevel) (r : Poly) : PointM Outcome := do
  count fun s => { s with singleLevel := s.singleLevel + 1 }
  let g ← PointState.algebraically (AlgebraSystem.gcd l.defining r)
  if g.isNumber then return .decided false
  if l.defining.degreeOf l.var ≤ g.degreeOf l.var then return .decided true
  let g := g.monic
  let h ← lift .algebra (l.defining.exactQuotient g)
  let s := ((← get).point.span? l.var).getD (.point 0)
  let cs := (g.univariate? l.var).getD []
  let vanishes := Univariate.signAt cs s.lo != Univariate.signAt cs s.hi
  replace l.var (if vanishes then g else h)
  return .decided vanishes

/-- The images modulo a prime of the tower and of a polynomial with the main variable `v`, `none`
for an unlucky prime. -/
def images? (t : Tower) (v : Nat) (r : Poly) (p : Nat) : Option (ResidueTower × ResiduePoly) :=
  match t.image? p with
  | none => none
  | some u =>
    match u.image? r with
    | none => none
    | some a =>
      if a.mainVar? = some v && a.degreeIn v == r.degreeOf v then some (u, a) else none

/-- A greatest common divisor of level `i` and `r` that the images agree on, if it is one. -/
def acceptGcd (cfg : Config) (t : Tower) (i : Nat) (l : TowerLevel) (r g : Poly) :
    PointM (Option Outcome) := do
  count fun s => { s with reconstructions := s.reconstructions + 1 }
  if t.isProperFactor i g && (t.divRem l.var i r g).2.isZero then
    if ← resolve cfg t i l.var g (t.divRem l.var i l.defining g).1 then
      return some (.decided true)
    else return some .replaced
  else return none

/-- A factor of level `i` and a cofactor that the images agree on, if their product is right. -/
def acceptSplit (cfg : Config) (t : Tower) (i : Nat) (l : TowerLevel) (f h : Poly) :
    PointM (Option Outcome) := do
  count fun s => { s with reconstructions := s.reconstructions + 1 }
  let (q, r) := t.divRem l.var i l.defining f
  if t.isProperFactor i f && r.isZero && (q - h).isZero then
    let _ ← resolve cfg t i l.var f h
    return some .replaced
  else return none

/-- The test over several levels, for a polynomial with the variable of level `i` as main variable:
tries one prime after the other, and collects the images of the greatest common divisor and those
of the factors of lower levels that show up. -/
def overSeveral (cfg : Config) (t : Tower) (i : Nat) (l : TowerLevel) (r : Poly) :
    List Nat → Images → (Nat → Images × Images) → PointM Outcome
  | [], _, _ => throw (.inconclusive (.noStableGcd cfg.maxPrimes))
  | p :: ps, gcds, splits => do
    count fun s => { s with primesTried := s.primesTried + 1 }
    match images? t l.var r p with
    | none =>
      count fun s => { s with unluckyPrimes := s.unluckyPrimes + 1 }
      overSeveral cfg t i l r ps gcds splits
    | some (u, a) =>
      match u.gcd l.var (u.defining i) a with
      | .ok g =>
        if mainDegree l.var g = 0 then return .decided false
        let (g?, gcds) := addImage (mainDegree l.var g) p g gcds
        let outcome? ← match g? with
          | some g => acceptGcd cfg t i l r g
          | none => pure none
        match outcome? with
        | some o => return o
        | none => overSeveral cfg t i l r ps gcds splits
      | .error z =>
        match t.levels[z.level]?, ((u.recordSplit z).levels[z.level]?).bind (·.split) with
        | some k, some (f, h) =>
          let degree := mainDegree k.var f
          let (f?, fs) := addImage degree p f (splits z.level).1
          let (h?, hs) := addImage degree p h (splits z.level).2
          let splits := fun j => if j = z.level then (fs, hs) else splits j
          let outcome? ← match f?, h? with
            | some f, some h => acceptSplit cfg t z.level k f h
            | _, _ => pure none
          match outcome? with
          | some o => return o
          | none => overSeveral cfg t i l r ps gcds splits
        | _, _ => overSeveral cfg t i l r ps gcds splits

/-- One attempt to decide whether `p` vanishes at the point. -/
def attempt (cfg : Config) (p : Poly) : PointM Outcome := do
  let x := (← get).point
  let q := x.substituteKnown p
  if q.isNumber then return .decided q.isZero
  let t ← lift id (Tower.ofPoly q x)
  let r := t.reduce q
  match r.mainVar? with
  | none => return .decided r.isZero
  | some v =>
    match t.levels, t.levelOf? v with
    | [l], _ => overOne l r
    | ls, some i =>
      count fun s => { s with severalLevels := s.severalLevels + 1 }
      match ls[i]? with
      | some l =>
        overSeveral cfg t i l r (Residue.primes.take cfg.maxPrimes) none fun _ => (none, none)
      | none => throw (.invalidAddress (.noCoordinate v))
    | _, none => throw (.invalidAddress (.noCoordinate v))

/-- The degrees of all defining polynomials together: it goes down with each replacement. -/
def weight (x : SamplePoint) : Nat :=
  x.coords.zipIdx.foldl (fun n (c, v) =>
    match c with
    | .rational _ => n
    | .algebraic a => n + a.defining.degreeOf v) 0

/-- Repeats the attempt after a replacement. -/
def attempts (cfg : Config) (p : Poly) : Nat → PointM Bool
  | 0 => throw (.inconclusive (.noStableGcd cfg.maxPrimes))
  | n + 1 => do
    match ← attempt cfg p with
    | .decided b => return b
    | .replaced => attempts cfg p n

/-- Whether `p` vanishes at the point. -/
def vanishesAt (cfg : Config) (p : Poly) : PointM Bool := do
  count fun s => { s with zeroTests := s.zeroTests + 1 }
  attempts cfg p (weight (← get).point + 1)

/-- The sign that an enclosure of the value shows. -/
def intervalSign? (prec : Nat) (p : Poly) (x : SamplePoint) : Option Sign :=
  match (Interval.evalPoly? prec x.span? p).bind (·.sign?) with
  | some .lt => some .negative
  | some .gt => some .positive
  | _ => none

/-- Evaluates with doubled precision until the sign shows; the exact test comes in between. -/
def signRounds (cfg : Config) (p : Poly) (vars : List Nat) : Nat → Nat → PointM Sign
  | 0, _ => throw (.inconclusive (.signUndecided cfg.maxDoublings))
  | rounds + 1, round => do
    if round = cfg.probe then
      if ← vanishesAt cfg p then return .zero
    refineTo vars (cfg.precision round / 2)
    match intervalSign? (cfg.precision round) p (← get).point with
    | some s =>
      if round < cfg.probe then count fun s => { s with intervalSigns := s.intervalSigns + 1 }
      return s
    | none => signRounds cfg p vars rounds (round + 1)

/-- The sign of `p` at the point. -/
def signAt (cfg : Config) (p : Poly) : PointM Sign := do
  count fun s => { s with signQueries := s.signQueries + 1 }
  let x := (← get).point
  let q := x.substituteKnown p
  if q.isNumber then return .ofRat q.constantValue
  match q.vars.find? fun v => x.size ≤ v with
  | some v => throw (.invalidAddress (.noCoordinate v))
  | none => signRounds cfg q q.vars (cfg.maxDoublings + 1) 0

/-- Runs a test on a copy of the point, and returns the coordinates it has changed. -/
def onCopy {α : Type} (x : PointM α) : PointM (α × List (Nat × Coordinate)) := fun s =>
  match x { s with point := .ofCoords s.point.coords } with
  | .ok a t => .ok (a, t.point.changes) { t with point := s.point }
  | .error e t => .error e { t with point := s.point }

end ZeroTest

end Cylindrical
