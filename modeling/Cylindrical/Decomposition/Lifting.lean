import Cylindrical.Decomposition.Basic

/-!
# Construction of a decomposition

After the projection the root is lifted, then the cells over it that are not decided, the last one
first, until the truth of the root is known or no cell is left.  If a factor vanishes identically
where McCallum's projection does not allow it, the construction starts again with Hong's.
-/

namespace Cylindrical

abbrev DecompositionM := EStateM DecompositionError Decomposition

namespace Decomposition

def count (f : Stats → Stats) : DecompositionM Unit :=
  modify fun d => { d with stats := f d.stats }

/-! ## Projection -/

/-- Stores the truth of the matrix on a cell; it is known on a cell that fixes all variables. -/
def evaluate (id : Nat) : DecompositionM (Option Bool) := do
  let d ← get
  let truth := d.matrixTruth? id
  if truth.isNone && ((d.tree.get? id).map (·.depth)).getD 0 = d.size then
    throw (.inconclusive (.matrixUndetermined (d.tree.path id)))
  modify fun d => { d with tree := d.tree.setTruth id truth }
  return truth

/-- Computes the projection and starts with a new tree. -/
def project (op : ProjectionOperator) : DecompositionM Unit := do
  let d ← get
  let (p, links) ← focus (fun d => ⟨d.algebra, d.projectionStats⟩)
    (fun s d => { d with algebra := s.algebra, projectionStats := s.stats }) id
    (Projection.project op true d.formula.atoms d.size)
  count fun s => { s with projections := s.projections + 1 }
  modify fun d => { d with
    projection := some (p, links)
    tree := { dimension := d.size, maxCells := d.config.maxCells }
    worklist := [] }
  if (← evaluate 0).isNone then modify fun d => { d with worklist := [0] }

/-- Computes the projection if there is none yet. -/
def ensureProjected : DecompositionM Unit := do
  let d ← get
  if d.projection.isNone then project d.config.operator

/-- Whether to start again with Hong's operator after an error. -/
def fallsBack (d : Decomposition) : DecompositionError → Bool
  | .notWellOriented _ _ =>
    d.config.hongFallback && d.projection.any fun p => p.1.operator == .mcCallum
  | _ => false

/-- Runs `x`, and after an error that Hong's operator avoids runs `again` with that operator. -/
def withFallback (x again : DecompositionM Unit) : DecompositionM Unit := fun d =>
  match x d with
  | .ok () d => .ok () d
  | .error e d =>
    if d.fallsBack e then
      (do
        count fun s => { s with hongFallbacks := s.hongFallbacks + 1 }
        project .hong
        again : DecompositionM Unit) d
    else .error e d

/-! ## Lifting -/

/-- Decides cells from the stacks over them, from one cell on towards the root. -/
def propagate : List Nat → DecompositionM Unit
  | [] => return
  | id :: ids => do
    let d ← get
    match d.tree.get? id with
    | none => return
    | some c =>
      if c.truth.isSome then return
      match d.stackTruth? c with
      | none => return
      | some b =>
        count fun s => { s with truthPropagations := s.truthPropagations + 1 }
        modify fun d => { d with tree := d.tree.setTruth id (some b) }
        propagate ids

/-- The cells of the stack over a cell, with the coordinates of its sample point that have been
refined. -/
def buildStack (p : Projection) (c : Cell) :
    DecompositionM (List StackCell × List (Nat × Coordinate)) := do
  let d ← get
  let cylinder : Cylinder :=
    { operator := p.operator
      factors := p.factors c.depth
      level := c.depth
      dimension := d.tree.dimensionOf c.id
      sign := linkSign d.tree p c.id }
  focus
    (fun d => { algebra := d.algebra, stats := d.zeroStats, point := d.tree.sample c.id,
                counts := d.stackStats })
    (fun s d => { d with algebra := s.algebra, zeroStats := s.stats, stackStats := s.counts })
    id
    (do
      let cells ← Stack.cells d.config.lifting d.config.zeroTest cylinder
      return (cells, (← get).point.changes))

/-- The undecided ones among the cells of a stack: the sections first, each kind from the last to
the first. -/
def undecided (t : CellTree) (ids : List Nat) : List Nat :=
  let cells := ids.filterMap t.get? |>.filter (·.truth.isNone)
  ((cells.filter (·.isSection)).reverse ++ (cells.filter (!·.isSection)).reverse).map (·.id)

/-- Builds the stack over a cell, evaluates the formula on it, and leaves its cells to be lifted
where that does not decide the cell. -/
def liftCell (c : Cell) : DecompositionM Unit := do
  match (← get).projection with
  | none => return
  | some (p, _) =>
    let (stack, changes) ← buildStack p c
    modify fun d => { d with tree := d.tree.replaceCoords c.id changes }
    let (ids, tree) ← lift id ((← get).tree.addChildren c.id stack)
    modify fun d => { d with tree }
    count fun s => { s with
      cellsLifted := s.cellsLifted + 1
      cellsCreated := s.cellsCreated + ids.length }
    ids.forM fun i => discard (evaluate i)
    propagate (((← get).tree.lineage c.id).map (·.id))
    let d ← get
    if c.depth + 1 < d.size && !d.tree.isSettled c.id then
      modify fun d => { d with worklist := undecided d.tree ids ++ d.worklist }

/-- Lifts the next cell that waits, and returns whether there was one. -/
def liftNext : DecompositionM Bool := do
  match (← get).worklist with
  | [] => return false
  | i :: is => do
    modify fun d => { d with worklist := is }
    let d ← get
    match d.tree.get? i with
    | none => return true
    | some c =>
      if c.isLifted || d.tree.isSettled i then
        count fun s => { s with cellsPruned := s.cellsPruned + 1 }
      else withFallback (liftCell c) (return)
      return true

/-- Lifts cells, as many as the given number of them. -/
def liftUpTo : Nat → DecompositionM Unit
  | 0 => return
  | n + 1 => do if ← liftNext then liftUpTo n

/-- A bound for the number of cells that wait at some time: those of now, those that the limit on
cells allows, and as many again after a change of the operator. -/
def pendingBound (d : Decomposition) : Nat := d.worklist.length + 2 * (d.config.maxCells + 1)

/-- Lifts all cells that wait. -/
def liftAll : DecompositionM Unit := do
  ensureProjected
  liftUpTo (← get).pendingBound

/-- Lifts the cells on a path, after the first `k` steps of it. -/
def liftAlong (path : List Nat) : List Nat → DecompositionM Unit
  | [] => return
  | k :: ks => do
    let d ← get
    let i ← lift id (d.tree.follow (path.take k))
    match d.tree.get? i with
    | some c => if !c.isLifted then liftCell c
    | none => pure ()
    liftAlong path ks

/-- Lifts the cells on a path that are not lifted yet. -/
def liftPath (path : List Nat) : DecompositionM Unit := do
  ensureProjected
  let n := (← get).size
  if n ≤ path.length then throw (.invalidAddress (.fullDimension path n))
  let run := liftAlong path (List.range (path.length + 1))
  withFallback run run

/-- Decides the formula; `none` if that hangs on free variables. -/
def solve : DecompositionM (Option Bool) := do
  liftAll
  return (← get).truth

end Decomposition

end Cylindrical
