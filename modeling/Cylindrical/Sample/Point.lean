import Cylindrical.Sample.Coordinate

/-!
# Sample points

The coordinates of a point, by variable.  A point that is worked on is a copy: it remembers which
coordinates have been refined or replaced, so that the owner of the point can adopt these.
-/

namespace Cylindrical

/-- A point, `coords[v]` for the variable `v`. -/
structure SamplePoint where
  coords : List Coordinate := []
  /-- Which coordinates have been refined or replaced. -/
  touched : List Bool := coords.map fun _ => false
  aligned : touched.length = coords.length := by simp
deriving DecidableEq

namespace SamplePoint

instance : Inhabited SamplePoint := ⟨{}⟩

/-- The point with the given coordinates, none of them changed. -/
def ofCoords (coords : List Coordinate) : SamplePoint := { coords }

/-- The number of coordinates. -/
def size (x : SamplePoint) : Nat := x.coords.length

/-- The coordinate of `v`. -/
def get? (v : Nat) (x : SamplePoint) : Option Coordinate := x.coords[v]?

def isRational (x : SamplePoint) : Bool := x.coords.all (·.isRational)

/-- The point with one more coordinate. -/
def push (c : Coordinate) (x : SamplePoint) : SamplePoint where
  coords := x.coords ++ [c]
  touched := x.touched ++ [false]
  aligned := by simp [x.aligned]

/-- The point without its last coordinate. -/
def pop (x : SamplePoint) : SamplePoint where
  coords := x.coords.dropLast
  touched := x.touched.dropLast
  aligned := by simp [x.aligned]

/-- Replaces a coordinate. -/
def set (v : Nat) (c : Coordinate) (x : SamplePoint) : SamplePoint where
  coords := x.coords.set v c
  touched := x.touched.set v true
  aligned := by simp [x.aligned]

/-- Splits the enclosure of a coordinate that is not rational. -/
def refine (v : Nat) (x : SamplePoint) : SamplePoint :=
  match x.get? v with
  | some (.algebraic a) => x.set v (.algebraic a.refine)
  | _ => x

/-- Refines a coordinate until its enclosure is no wider than `2 ^ -bits`.  It counts as refined if
the enclosure has another width than before. -/
def refineTo (v bits : Nat) (x : SamplePoint) : SamplePoint :=
  match x.get? v with
  | some (.algebraic a) =>
    let b := a.refineTo bits
    { coords := x.coords.set v (.algebraic b)
      touched := if b.span.width = a.span.width then x.touched else x.touched.set v true
      aligned := by split <;> simp [x.aligned] }
  | _ => x

/-- Refines all coordinates until no enclosure is wider than `2 ^ -bits`. -/
def refineAllTo (bits : Nat) (x : SamplePoint) : SamplePoint :=
  (List.range x.size).foldl (fun x v => x.refineTo v bits) x

/-- The changed coordinates with their variables. -/
def changes (x : SamplePoint) : List (Nat × Coordinate) :=
  x.touched.zipIdx.filterMap fun (changed, v) =>
    if changed then (x.get? v).map (v, ·) else none

/-- Adopts changed coordinates. -/
def apply (changes : List (Nat × Coordinate)) (x : SamplePoint) : SamplePoint :=
  changes.foldl (fun x c => x.set c.1 c.2) x

/-- The enclosure of a coordinate. -/
def span? (x : SamplePoint) (v : Nat) : Option Interval := (x.get? v).map (·.span)

/-- The polynomial with the variable `v` replaced by its value, where the value is rational or the
root of a defining polynomial that is linear over the rational numbers. -/
def substituteCoord (v : Nat) (p : Poly) : Coordinate → Poly
  | .rational r => p.evalAt v r
  | .algebraic a =>
    let slope := a.defining.coeff v 1
    if a.defining.degreeOf v = 1 && slope.isConstant then
      p.substitute v ((a.defining.coeff v 0).scale (-(1 / slope.constantValue)))
    else p

/-- The polynomial with all coordinates put in that are rational or roots of linear defining
polynomials.  A linear relation only brings in lower variables, so the highest one goes first. -/
def substituteKnown (x : SamplePoint) (p : Poly) : Poly :=
  x.coords.zipIdx.foldr (fun (c, v) p => if p.containsVar v then substituteCoord v p c else p) p

/-- The written form. -/
def text (x : SamplePoint) : String :=
  "(" ++ ", ".intercalate (x.coords.map Coordinate.text) ++ ")"

end SamplePoint

end Cylindrical
