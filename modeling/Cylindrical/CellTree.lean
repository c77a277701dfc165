import Cylindrical.Projection.Link
import Cylindrical.Stack.Basic

/-!
# The tree of cells

Cells are stored once each and name each other by position.  A cell of depth `d` fixes the first `d`
variables; its children are the stack over it, from left to right: sectors at even positions and
sections at odd ones.
-/

namespace Cylindrical

/-- A cell. -/
structure Cell where
  /-- The position in the tree. -/
  id : Nat
  parent : Option Nat := none
  /-- The cells of the stack over this one, once it is lifted. -/
  children : Option (List Nat) := none
  depth : Nat := 0
  /-- The position in the stack. -/
  index : Nat := 0
  /-- The coordinate of the last variable; the root has none. -/
  coord : Option Coordinate := none
  /-- The signs of the factors of the last level. -/
  signature : List (Option Sign) := []
  /-- The orders of the factors of the last level. -/
  multiplicity : List Nat := []
  /-- The truth of the formula on the cell, if it is known. -/
  truth : Option Bool := none
deriving Inhabited

namespace Cell

def isSection (c : Cell) : Bool := c.index % 2 == 1

def isLifted (c : Cell) : Bool := c.children.isSome

end Cell

/-- The cells of a decomposition of a space of a given dimension. -/
structure CellTree where
  dimension : Nat
  /-- The largest number of cells allowed. -/
  maxCells : Nat
  cells : Array Cell := #[{ id := 0 }]
  /-- The positions of the cells of each depth, from depth zero up. -/
  byDepth : Array (Array Nat) := #[#[0]] ++ Array.replicate dimension #[]
  cellsCreated : Nat := 1
  coordsReplaced : Nat := 0

namespace CellTree

/-- The number of cells. -/
def size (t : CellTree) : Nat := t.cells.size

def get? (t : CellTree) (id : Nat) : Option Cell := t.cells[id]?

/-- The cells of a depth. -/
def atDepth (t : CellTree) (depth : Nat) : List Nat := (t.byDepth.getD depth #[]).toList

/-- Stores a cell of the stack over `parent`, which is number `index` there, and returns its
position. -/
def storeCell (parent depth index : Nat) (c : StackCell) :
    EStateM DecompositionError CellTree Nat :=
  modifyGet fun t =>
    (t.size, { t with
      cells := t.cells.push
        { id := t.size, parent := some parent, depth, index, coord := some c.coord,
          signature := c.signature, multiplicity := c.multiplicity }
      byDepth := t.byDepth.modify depth (·.push t.size) })

/-- Stores the cells of the stack over `parent` from number `index` on, from left to right. -/
def storeCells (parent depth : Nat) :
    Nat → List StackCell → EStateM DecompositionError CellTree (List Nat)
  | _, [] => return []
  | index, c :: cs => do
    let id ← storeCell parent depth index c
    let ids ← storeCells parent depth (index + 1) cs
    return id :: ids

/-- Adds a stack over a cell and returns the positions of its cells. -/
def addStack (parent : Nat) (stack : List StackCell) :
    EStateM DecompositionError CellTree (List Nat) := do
  let t ← get
  let depth := ((t.get? parent).map (·.depth)).getD 0 + 1
  if t.maxCells < t.size + stack.length then throw (.inconclusive (.cellLimit t.maxCells))
  else if t.dimension < depth then throw (.invalidAddress (.fullDepth parent))
  else
    let ids ← storeCells parent depth 0 stack
    modify fun t => { t with
      cells := t.cells.modify parent fun c => { c with children := some ids }
      cellsCreated := t.cellsCreated + ids.length }
    return ids

/-- The tree with a stack over a cell, and the positions of the cells of the stack. -/
def addChildren (t : CellTree) (parent : Nat) (stack : List StackCell) :
    Except DecompositionError (List Nat × CellTree) :=
  match addStack parent stack t with
  | .ok ids u => .ok (ids, u)
  | .error e _ => .error e

/-! ## The way to a cell -/

/-- A cell and its ancestors, up to `n` of them. -/
def lineageUpTo (t : CellTree) : Nat → Nat → List Cell
  | 0, id => (t.get? id).toList
  | n + 1, id =>
    match t.get? id with
    | none => []
    | some c =>
      match c.parent with
      | none => [c]
      | some p => c :: lineageUpTo t n p

/-- A cell and its ancestors, the root last. -/
def lineage (t : CellTree) (id : Nat) : List Cell :=
  t.lineageUpTo (((t.get? id).map (·.depth)).getD 0) id

/-- The cell of a depth on the way to a cell. -/
def ancestorAt? (t : CellTree) (id depth : Nat) : Option Cell :=
  (t.lineage id).find? (·.depth == depth)

/-- The sample point of a cell. -/
def sample (t : CellTree) (id : Nat) : SamplePoint :=
  .ofCoords ((t.lineage id).reverse.filterMap (·.coord))

/-- The sign of a factor on a cell, from the ancestor that fixes the level of the factor. -/
def factorSign (t : CellTree) (id : Nat) (f : FactorRef) : Option Sign :=
  ((t.ancestorAt? id (f.level + 1)).bind fun c => c.signature[f.index]?).join

/-- The dimension of a cell, the number of sectors on the way to it. -/
def dimensionOf (t : CellTree) (id : Nat) : Nat :=
  ((t.lineage id).filter fun c => c.parent.isSome && !c.isSection).length

/-- The positions in the stacks on the way to a cell. -/
def path (t : CellTree) (id : Nat) : List Nat :=
  (t.lineage id).reverse.filterMap fun c => c.parent.map fun _ => c.index

/-- Whether the truth is known on a cell or one of its ancestors. -/
def isSettled (t : CellTree) (id : Nat) : Bool := (t.lineage id).any (·.truth.isSome)

/-- Follows positions from a cell, where `path` is the whole path and `step` the number of steps
taken. -/
def followFrom (t : CellTree) (path : List Nat) :
    Nat → Nat → List Nat → Except DecompositionError Nat
  | _, id, [] => .ok id
  | step, id, i :: is =>
    match (t.get? id).bind (·.children) with
    | none => .error (.invalidAddress (.notLifted step path))
    | some ids =>
      match ids[i]? with
      | none => .error (.invalidAddress (.childOutOfRange i step path ids.length))
      | some id => followFrom t path (step + 1) id is

/-- The cell at the end of a path from the root. -/
def follow (t : CellTree) (path : List Nat) : Except DecompositionError Nat :=
  t.followFrom path 0 0 path

/-! ## Changes -/

/-- Replaces one coordinate of the sample point of a cell, at the ancestor that owns it. -/
def replaceCoord (t : CellTree) (id : Nat) (change : Nat × Coordinate) : CellTree :=
  match t.ancestorAt? id (change.1 + 1) with
  | none => t
  | some c =>
    { t with
      cells := t.cells.modify c.id fun c => { c with coord := some change.2 }
      coordsReplaced := t.coordsReplaced + 1 }

/-- Replaces coordinates of the sample point of a cell. -/
def replaceCoords (t : CellTree) (id : Nat) (changes : List (Nat × Coordinate)) : CellTree :=
  changes.foldl (fun t c => t.replaceCoord id c) t

/-- Sets the truth on a cell. -/
def setTruth (t : CellTree) (id : Nat) (truth : Option Bool) : CellTree :=
  { t with cells := t.cells.modify id fun c => { c with truth } }

/-! ## Written form -/

/-- The letter for a truth value. -/
def truthText : Option Bool → String
  | some true => "T"
  | some false => "F"
  | none => "?"

/-- One line for a cell. -/
def cellText (name : Nat → String) (c : Cell) : String :=
  match c.coord with
  | none => "root [" ++ truthText c.truth ++ "]\n"
  | some x =>
    "".pushn ' ' (2 * c.depth) ++ toString c.index ++ " " ++
      (if c.isSection then "section" else "sector") ++ " " ++ name (c.depth - 1) ++ " = " ++
      x.text ++ " <" ++ .ofList (c.signature.map Sign.symbol?) ++ "> [" ++
      truthText c.truth ++ "]\n"

/-- The lines of a cell and of the cells over it, down to a depth. -/
def textFrom (name : Nat → String) (t : CellTree) : Nat → Nat → String
  | 0, _ => ""
  | n + 1, id =>
    match t.get? id with
    | none => ""
    | some c =>
      cellText name c ++ "".intercalate ((c.children.getD []).map (textFrom name t n))

/-- The cells line by line, each followed by those of the stack over it. -/
def text (name : Nat → String) (t : CellTree) : String := t.textFrom name (t.dimension + 1) 0

end CellTree

end Cylindrical
