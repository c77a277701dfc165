import Cylindrical.Stack.Comparison

/-!
# Sections of a stack

The roots of all factors, in increasing order.  A root that several factors share is one section,
with an order for each of them.
-/

namespace Cylindrical

/-- A root of a factor. -/
structure FactorRoot where
  coord : Coordinate
  factor : Nat
  multiplicity : Nat

/-- A root, with the factors that have it and their orders there. -/
structure Section where
  coord : Coordinate
  orders : List (Nat × Nat)

namespace Section

/-- The section of one root. -/
def ofRoot (r : FactorRoot) : Section := ⟨r.coord, [(r.factor, r.multiplicity)]⟩

/-- Whether a factor has the root. -/
def has (s : Section) (factor : Nat) : Bool := s.orders.any (·.1 == factor)

/-- The order of a factor at the root, zero if it is not a root of the factor. -/
def order (s : Section) (factor : Nat) : Nat := (s.orders.lookup factor).getD 0

/-- Whether a root may be that of a section: not if it belongs to a factor that has the root of the
section already, nor if the projection excludes common roots with all factors that have it. -/
def mayEqual (c : Cylinder) (r : FactorRoot) (s : Section) : Bool :=
  !s.has r.factor && s.orders.any fun o =>
    ((c.factors.getD (max r.factor o.1) default).mayShareRoot c.sign (min r.factor o.1))

/-- Adds the root of another factor to a section with the same number, which is then given exactly
if one of them is. -/
def merge (r : FactorRoot) (s : Section) : Section where
  coord := if !s.coord.isRational && r.coord.isRational then r.coord else s.coord
  orders := s.orders ++ [(r.factor, r.multiplicity)]

/-- Inserts a root into the sections. -/
def insert (cfg : Stack.Config) (c : Cylinder) (r : FactorRoot) :
    List Section → StackM (List Section)
  | [] => return [ofRoot r]
  | s :: ss => do
    let (o, x, y) ← Stack.compare cfg (mayEqual c r s) r.coord s.coord
    let r := { r with coord := x }
    let s := { s with coord := y }
    match o with
    | .lt => return ofRoot r :: s :: ss
    | .gt => return s :: (← insert cfg c r ss)
    | .eq =>
      if s.has r.factor then return s :: ss
      Stack.count fun t => { t with mergedRoots := t.mergedRoots + 1 }
      return merge r s :: ss

end Section

end Cylindrical
