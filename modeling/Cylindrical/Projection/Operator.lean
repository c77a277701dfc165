import Cylindrical.AlgebraSystem
import Cylindrical.DecompositionError
import Cylindrical.Focus
import Cylindrical.Poly.CoprimeBasis
import Cylindrical.Projection.Basic

/-!
# Projection

Level by level from the highest one down, the polynomials of a level are refined to a coprime basis,
the factors of the level.  Polynomials derived from them, in lower variables, are factored; what
they split into is left for the lower levels.  In the end each derived polynomial is a product of
factors of lower levels, and this product is its link.
-/

namespace Cylindrical

namespace Projection

/-- What has been done. -/
structure Stats where
  projections : Nat := 0
  factors : Nat := 0
  requests : Nat := 0
  truncatedScans : Nat := 0
  coefficientReductions : Nat := 0
deriving Inhabited

/-- A derived polynomial, as a sign times a product of powers. -/
structure Derived where
  sign : Sign
  factors : List (Poly × Nat) := []
deriving Inhabited

/-- The algebra in use and what has been done. -/
structure State where
  algebra : AlgebraSystem := {}
  stats : Stats := {}

/-- A projection that is being computed. -/
structure Run extends State where
  /-- The polynomials that wait at each level. -/
  pending : List (List Poly)
  derived : Array Derived := #[]

abbrev RunM := EStateM DecompositionError Run

namespace Run

def algebraically {α : Type} (x : AlgebraM α) : RunM α :=
  focus (·.algebra) (fun a s => { s with algebra := a }) .backend x

def count (f : Stats → Stats) : RunM Unit := modify fun s => { s with stats := f s.stats }

/-- Stores a derived polynomial and returns its position. -/
def store (d : Derived) : RunM Nat :=
  modifyGet fun s => (s.derived.size, { s with derived := s.derived.push d })

/-- Leaves a polynomial for the level of its main variable. -/
def leave (p : Poly) : RunM Unit := do
  let v := p.mainVar?.getD 0
  match (← get).pending[v]? with
  | none => throw (.unknownVariable v)
  | some ps =>
    if ps.any p.sameTerms then return
    else modify fun s => { s with pending := s.pending.set v (ps ++ [p]) }

/-- Stores a derived polynomial, negated if asked, and leaves its factors for lower levels. -/
def request (p : Poly) (negated : Bool) : RunM Nat := do
  count fun s => { s with requests := s.requests + 1 }
  let d ← if p.isNumber then pure { sign := .ofRat p.constantValue }
    else do
      let f ← algebraically (AlgebraSystem.factor p)
      f.factors.forM fun g => leave g.1
      pure { sign := .ofRat f.constant, factors := f.factors }
  store (if negated then { d with sign := -d.sign } else d)

/-- The polynomials that wait at a level, which is left empty. -/
def take (level : Nat) : RunM (List Poly) :=
  modifyGet fun s => (s.pending.getD level [], { s with pending := s.pending.set level [] })

/-- Counts a scan that ends before the constant coefficient. -/
def countTruncation (degree : Nat) : RunM Unit :=
  if 0 < degree then count fun s => { s with truncatedScans := s.truncatedScans + 1 } else pure ()

/-- The principal subresultant coefficients up to a position. -/
def subresultants (v : Nat) (p q : Poly) (count : Nat) : RunM (List Nat) :=
  (List.range count).mapM fun j => do
    request (← algebraically (AlgebraSystem.subresultantCoeff v j p q)) false

/-! ## McCallum's operator -/

/-- Requests coefficients, given with their degrees from the leading one down, to the first one that
is nowhere zero. -/
def scanCoeffs (truncate : Bool) : List (Poly × Nat) → RunM (List (Nat × Option Nat))
  | [] => return []
  | (c, k) :: cs => do
    if c.isZero then
      let id ← store { sign := .zero }
      return (k, some id) :: (← scanCoeffs truncate cs)
    else
      let id ← request c false
      if truncate && c.isDefinitelyNonzero then
        countTruncation k
        return [(k, some id)]
      else return (k, some id) :: (← scanCoeffs truncate cs)

/-- The coefficients of a factor, its discriminant and the resultants with the factors before it. -/
def mcCallum (truncate : Bool) (f : ProjectionFactor) (before : List ProjectionFactor) :
    RunM ProjectionFactor := do
  let v := f.level
  let coeffLinks ← scanCoeffs truncate (f.poly.coeffs v).zipIdx.reverse
  let discriminant ← if f.degree < 2 then pure none
    else do
      let d ← algebraically (AlgebraSystem.discriminant v f.poly)
      pure (some (← request d false))
  let pairLinks ← before.zipIdx.mapM fun (q, j) => do
    let r ← algebraically (AlgebraSystem.resultant v f.poly q.poly)
    return (j, [← request r false])
  return { f with coeffLinks, discriminant, pairLinks }

/-! ## Hong's operator -/

/-- A coefficient modulo the ideal of the higher ones, and whether its sign was changed; `none` if
these have no common zero. -/
def reduceCoeff (vars : List Nat) (higher : List Poly) (c : Poly) :
    RunM (Option (Poly × Bool)) := do
  if higher.isEmpty then return some (c, false)
  let basis ← algebraically (AlgebraSystem.groebnerBasis vars 0 higher)
  if Groebner.isUnitIdeal basis then return none
  count fun s => { s with coefficientReductions := s.coefficientReductions + 1 }
  return some (← algebraically (AlgebraSystem.reduce vars 0 basis c))

/-- Requests coefficients reduced modulo the higher ones, given with their degrees from the leading
one down, as long as they can vanish together. -/
def scanReducedCoeffs (truncate : Bool) (vars : List Nat) :
    List Poly → List (Poly × Nat) → RunM (List (Nat × Option Nat))
  | _, [] => return []
  | higher, (c, k) :: cs => do
    if c.isZero then
      let id ← store { sign := .zero }
      return (k, some id) :: (← scanReducedCoeffs truncate vars higher cs)
    else
      match ← reduceCoeff vars higher c with
      | none =>
        count fun s => { s with truncatedScans := s.truncatedScans + 1 }
        return []
      | some (r, negated) =>
        let link? ← if r.isZero then pure none else some <$> request r negated
        if truncate && r.isDefinitelyNonzero then
          countTruncation k
          return [(k, link?)]
        else return (k, link?) :: (← scanReducedCoeffs truncate vars (higher ++ [c]) cs)

/-- The polynomial and its reducta of positive degree, `n` of them at most. -/
def reducta (v : Nat) : Nat → Poly → List Poly
  | 0, _ => []
  | n + 1, p => if p.degreeOf v = 0 then [] else p :: reducta v n (p.reductum v)

/-- The reducta that a scan of the coefficients of a factor reaches. -/
def scannedReducta (f : ProjectionFactor) : List Poly :=
  reducta f.level (max f.coeffLinks.length 1) f.poly

/-- The coefficients of a factor modulo the higher ones, and the principal subresultant coefficients
of its reducta with their derivatives and of the factor with the reducta of those before it. -/
def hong (truncate : Bool) (f : ProjectionFactor) (before : List ProjectionFactor) :
    RunM ProjectionFactor := do
  let v := f.level
  let coeffLinks ← scanReducedCoeffs truncate (List.range v).reverse []
    (f.poly.coeffs v).zipIdx.reverse
  let f := { f with coeffLinks }
  let selfLinks ← (scannedReducta f).mapM fun r =>
    subresultants v r (r.derivative v) (r.degreeOf v - 1)
  let pairLinks ← before.zipIdx.mapM fun (q, j) => do
    let links ← (scannedReducta q).mapM fun r =>
      subresultants v f.poly r (min f.degree (r.degreeOf v))
    return (j, links.headD [])
  return { f with selfLinks := selfLinks.headD [], pairLinks }

/-! ## Levels -/

/-- The factors of a level, after the factors `before`, from the rest of the basis. -/
def factorsOf (op : ProjectionOperator) (truncate : Bool) (level : Nat) (inputs : List Poly) :
    List ProjectionFactor → List Poly → RunM (List ProjectionFactor)
  | before, [] => return before
  | before, p :: ps => do
    let origin := if inputs.any fun q => (q.divExact? p).isSome then .input else .projection
    let f : ProjectionFactor := { poly := p, level, origin }
    let f ← match op with
      | .mcCallum => mcCallum truncate f before
      | .hong => hong truncate f before
    count fun s => { s with factors := s.factors + 1 }
    factorsOf op truncate level inputs (before ++ [f]) ps

/-- The factors of the levels below `n`. -/
def levelsBelow (op : ProjectionOperator) (truncate : Bool) (inputs : List (List Poly)) :
    Nat → RunM (List (List ProjectionFactor))
  | 0 => return []
  | level + 1 => do
    let basis ← lift .algebra (Poly.coprimeBasis (← take level))
    let fs ← factorsOf op truncate level (inputs.getD level []) [] basis
    return (← levelsBelow op truncate inputs level) ++ [fs]

end Run

/-! ## Links -/

/-- Inserts a power of a factor into a list in increasing order, where powers of one factor are
joined. -/
def insertPower (f : FactorRef) (m : Nat) : List (FactorRef × Nat) → List (FactorRef × Nat)
  | [] => [(f, m)]
  | g :: gs =>
    match f.compare g.1 with
    | .lt => (f, m) :: g :: gs
    | .eq => (f, g.2 + m) :: gs
    | .gt => g :: insertPower f m gs

/-- The product of a link and a power of a polynomial over the factors of its level. -/
def multiplyLink (levels : List (List ProjectionFactor)) (l : Link) (g : Poly × Nat) :
    Algebra Link := do
  let level := g.1.mainVar?.getD 0
  let (c, powers) ← Poly.expressOver ((levels.getD level []).map (·.poly)) g.1
  return ⟨l.sign * (Sign.ofRat c).pow g.2,
    powers.foldl (fun fs p => insertPower ⟨level, p.1⟩ (p.2 * g.2) fs) l.factors⟩

/-- The link of a derived polynomial. -/
def linkOf (levels : List (List ProjectionFactor)) (d : Derived) : Algebra Link :=
  if d.sign = .zero then .ok (.ofSign .zero)
  else d.factors.foldlM (multiplyLink levels) (.ofSign d.sign)

/-- Stores the links of derived polynomials, and returns their positions in the table. -/
def storeLinks (levels : List (List ProjectionFactor)) :
    List Derived → Array Nat → LinkTable → Algebra (Array Nat × LinkTable)
  | [], ids, t => .ok (ids, t)
  | d :: ds, ids, t => do
    let (id, t) := t.intern (← linkOf levels d)
    storeLinks levels ds (ids.push id) t

/-- The projection of polynomials to the levels below `n`, and the positions of their links. -/
def ofAtoms (op : ProjectionOperator) (truncate : Bool) (atoms : List Poly) (n : Nat) :
    RunM (Projection × List Nat) := do
  Run.count fun s => { s with projections := s.projections + 1 }
  let requests ← atoms.mapM fun a => Run.request a false
  let inputs := (← get).pending
  let levels ← Run.levelsBelow op truncate inputs n
  let (ids, links) ← lift .algebra (storeLinks levels (← get).derived.toList #[] {})
  let id (i : Nat) : Nat := ids.getD i 0
  return (⟨op, levels.map (·.map (·.mapLinks id)), links⟩, requests.map id)

/-- Projects polynomials, and keeps the counts of what has been done. -/
def project (op : ProjectionOperator) (truncate : Bool) (atoms : List Poly) (n : Nat) :
    EStateM DecompositionError State (Projection × List Nat) := fun s =>
  match ofAtoms op truncate atoms n { s with pending := List.replicate n [] } with
  | .ok r s => .ok r s.toState
  | .error e s => .error e s.toState

end Projection

end Cylindrical
