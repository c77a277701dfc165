import Cylindrical.DecompositionError
import Cylindrical.Residue.Tower
import Cylindrical.Sample.Point

/-!
# Towers of defining polynomials

The defining polynomials of the coordinates on which a polynomial depends, each monic in its own
variable.  Remainders modulo the tower keep the value at the point.
-/

namespace Cylindrical

/-- One coordinate with its defining polynomial, monic in the variable. -/
structure TowerLevel where
  var : Nat
  defining : Poly

/-- Defining polynomials, by increasing variable. -/
structure Tower where
  levels : List TowerLevel

namespace Tower

/-- Inserts a level by its variable. -/
def insertLevel (l : TowerLevel) : List TowerLevel → List TowerLevel
  | [] => [l]
  | k :: ks => if l.var < k.var then l :: k :: ks else k :: insertLevel l ks

/-- The level of a coordinate. -/
def level (x : SamplePoint) (v : Nat) : Except DecompositionError TowerLevel :=
  match x.get? v with
  | some (.algebraic a) =>
    let d := x.substituteKnown a.defining
    let lead := d.leadingCoeffOf v
    if lead.isConstant && d.degreeOf v != 0 then .ok ⟨v, d.scale (1 / lead.constantValue)⟩
    else .error (.inconclusive (.notMonic v))
  | some (.rational _) => .error (.invalidAddress (.notSubstituted v))
  | none => .error (.invalidAddress (.noCoordinate v))

/-- Collects the levels of the variables `todo` and of those they depend on, where `unseen` are the
coordinates without a level yet. -/
def collect (x : SamplePoint) (unseen todo : List Nat) (levels : List TowerLevel) :
    Except DecompositionError (List TowerLevel) :=
  match todo with
  | [] => .ok levels
  | v :: todo =>
    if v ∈ unseen then
      match level x v with
      | .ok l =>
        collect x (unseen.erase v) ((l.defining.vars.filter (· != v)).reverse ++ todo)
          (insertLevel l levels)
      | .error e => .error e
    else if v < x.size then collect x unseen todo levels
    else .error (.invalidAddress (.noCoordinate v))
termination_by (unseen.length, todo.length)
decreasing_by
  · have := List.length_erase_of_mem ‹v ∈ unseen›
    have := List.length_pos_of_mem ‹v ∈ unseen›
    exact Prod.Lex.left _ _ (by omega)
  · exact Prod.Lex.right _ (by simp)

/-- The tower under a polynomial at a point. -/
def ofPoly (p : Poly) (x : SamplePoint) : Except DecompositionError Tower :=
  (collect x (List.range x.size) p.vars.reverse []).map Tower.mk

/-- The position of the level of a variable. -/
def levelOf? (t : Tower) (v : Nat) : Option Nat := t.levels.findIdx? (·.var == v)

/-- The variables of the levels up to a position. -/
def varsThrough (t : Tower) (i : Nat) : List Nat := (t.levels.take (i + 1)).map (·.var)

/-- Subtracts multiples of `d`, which is monic in `v`, while the degree in `v` allows it. -/
def remSteps (v : Nat) (d : Poly) : Nat → Poly → Poly
  | 0, r => r
  | steps + 1, r =>
    if !r.isZero && d.degreeOf v ≤ r.degreeOf v then
      let t := r.leadingCoeffOf v * .ofPower v (r.degreeOf v - d.degreeOf v)
      remSteps v d steps (r - t * d)
    else r

/-- The remainder by one level. -/
def remainder (l : TowerLevel) (p : Poly) : Poly :=
  if l.defining.degreeOf l.var = 0 then p
  else remSteps l.var l.defining (p.degreeOf l.var + 1) p

/-- The remainder modulo the levels with a position below `limit`, the highest one first. -/
def reduceBelow (t : Tower) (limit : Nat) (p : Poly) : Poly :=
  (t.levels.take limit).foldr remainder p

/-- The remainder modulo all levels. -/
def reduce (t : Tower) (p : Poly) : Poly := t.reduceBelow t.levels.length p

/-- Adds to a quotient while the remainder has the degree of the divisor. -/
def divRemSteps (t : Tower) (v limit : Nat) (d : Poly) : Nat → Poly → Poly → Poly × Poly
  | 0, q, r => (q, r)
  | steps + 1, q, r =>
    if !r.isZero && d.degreeOf v ≤ r.degreeOf v then
      let s := r.leadingCoeffOf v * .ofPower v (r.degreeOf v - d.degreeOf v)
      divRemSteps t v limit d steps (q + s) (t.reduceBelow limit (r - s * d))
    else (q, r)

/-- Quotient and remainder by `d`, monic in `v`, modulo the levels with a position below `limit`. -/
def divRem (t : Tower) (v limit : Nat) (p d : Poly) : Poly × Poly :=
  let p := t.reduceBelow limit p
  let steps := if d.degreeOf v = 0 then 1 else stepLimit + (p.degreeOf v + 1)
  let (q, r) := t.divRemSteps v limit d steps 0 p
  (t.reduceBelow limit q, r)

/-- Whether `f` is monic in the variable of a level, of a degree strictly between zero and that of
the defining polynomial, in variables of the tower up to that level, and divides the defining
polynomial. -/
def isProperFactor (t : Tower) (i : Nat) (f : Poly) : Bool :=
  match t.levels[i]? with
  | none => false
  | some l =>
    let n := f.degreeOf l.var
    n != 0 && n < l.defining.degreeOf l.var && (f.leadingCoeffOf l.var).isOne &&
      f.vars.all (t.varsThrough i).contains && (t.divRem l.var i l.defining f).2.isZero

/-- The image of the tower modulo a prime, `none` for an unlucky prime. -/
def image? (p : Nat) (t : Tower) : Option ResidueTower :=
  ResidueTower.ofPolys? p (t.levels.map fun l => (l.var, l.defining))

end Tower

end Cylindrical
