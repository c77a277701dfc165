import Cylindrical.Sign

/-!
# Links to projection factors

A link is a sign times a product of powers of projection factors.  It stands for a derived
polynomial, such as a coefficient or a resultant, whose sign over a cell can then be read off the
signs of the factors.  Links are stored once each, with the three constants first.
-/

namespace Cylindrical

/-- A projection factor, by level and by position in its level. -/
structure FactorRef where
  level : Nat
  index : Nat
deriving DecidableEq, Inhabited

namespace FactorRef

/-- Comparison by level, then by position. -/
def compare (f g : FactorRef) : Ordering :=
  (Ord.compare f.level g.level).then (Ord.compare f.index g.index)

end FactorRef

/-- A sign times a product of powers of factors. -/
structure Link where
  sign : Sign
  factors : List (FactorRef × Nat)
deriving DecidableEq, Inhabited

namespace Link

/-- The link of a constant. -/
def ofSign (s : Sign) : Link := ⟨s, []⟩

def isConstant (l : Link) : Bool := l.sign == .zero || l.factors.isEmpty

/-- The highest level of a factor, `none` if there is no factor. -/
def maxLevel? (l : Link) : Option Nat :=
  l.factors.foldl (fun m f =>
    match m with
    | none => some f.1.level
    | some k => some (max k f.1.level)) none

/-- The sign of the constant `s` times the product; a factor that vanishes decides it alone. -/
def evalFactors (sign : FactorRef → Option Sign) :
    Option Sign → List (FactorRef × Nat) → Option Sign
  | s, [] => s
  | s, (f, m) :: fs =>
    match sign f with
    | some .zero => some .zero
    | some t => evalFactors sign (s.map (· * t.pow m)) fs
    | none => evalFactors sign none fs

/-- The sign of the product, `none` if it hangs on the sign of an unknown factor. -/
def eval (sign : FactorRef → Option Sign) (l : Link) : Option Sign :=
  if l.sign = .zero then some .zero else evalFactors sign (some l.sign) l.factors

/-- Inserts a power of a factor into a list in increasing order. -/
def insertFactor (f : FactorRef × Nat) : List (FactorRef × Nat) → List (FactorRef × Nat)
  | [] => [f]
  | g :: gs =>
    match (f.1.compare g.1).then (Ord.compare f.2 g.2) with
    | .gt => g :: insertFactor f gs
    | _ => f :: g :: gs

/-- The link with its factors in increasing order. -/
def sorted (l : Link) : Link := ⟨l.sign, l.factors.foldr insertFactor []⟩

end Link

/-- The links in use, without repetition; a link is named by its position. -/
structure LinkTable where
  links : Array Link := #[.ofSign .zero, .ofSign .positive, .ofSign .negative]
deriving DecidableEq, Inhabited

namespace LinkTable

/-- The position of a constant. -/
def constantId : Sign → Nat
  | .zero => 0
  | .positive => 1
  | .negative => 2

/-- The position of a link, which is stored if it is new. -/
def intern (t : LinkTable) (l : Link) : Nat × LinkTable :=
  if l.isConstant then (constantId l.sign, t)
  else
    match t.links.idxOf? l.sorted with
    | some i => (i, t)
    | none => (t.links.size, ⟨t.links.push l.sorted⟩)

/-- The link at a position. -/
def get (t : LinkTable) (i : Nat) : Link := t.links.getD i (.ofSign .zero)

def size (t : LinkTable) : Nat := t.links.size

/-- Only the constants are stored. -/
def isEmpty (t : LinkTable) : Bool := t.links.size ≤ 3

end LinkTable

end Cylindrical
