/-!
# Signs of real numbers
-/

namespace Cylindrical

/-- The sign of a real number. -/
inductive Sign where
  | negative
  | zero
  | positive
deriving DecidableEq, Inhabited

namespace Sign

/-- The sign of a rational number. -/
def ofRat (x : Rat) : Sign := if x = 0 then zero else if 0 < x then positive else negative

/-- The sign of a number that compares in this way with zero. -/
def ofOrdering : Ordering → Sign
  | .lt => negative
  | .eq => zero
  | .gt => positive

/-- The sign of a product. -/
protected def mul : Sign → Sign → Sign
  | zero, _ => zero
  | _, zero => zero
  | positive, s => s
  | s, positive => s
  | negative, negative => positive

instance : Mul Sign := ⟨Sign.mul⟩

/-- The sign of a power. -/
protected def pow (s : Sign) (k : Nat) : Sign :=
  if k = 0 then positive
  else if s = negative && k % 2 = 0 then positive
  else s

/-- The sign of the opposite number. -/
protected def neg : Sign → Sign
  | negative => positive
  | zero => zero
  | positive => negative

instance : Neg Sign := ⟨Sign.neg⟩

/-- The sign as a character. -/
def symbol : Sign → Char
  | negative => '-'
  | zero => '0'
  | positive => '+'

/-- A sign that may be unknown, as a character. -/
def symbol? : Option Sign → Char
  | none => '?'
  | some s => s.symbol

end Sign

/-- A relation between a number and zero. -/
inductive Relation where
  | lt
  | le
  | gt
  | ge
  | eq
  | ne
deriving DecidableEq, Inhabited

namespace Relation

/-- Whether numbers of the given sign stand in the relation to zero. -/
def holds : Relation → Sign → Bool
  | lt, s => s == .negative
  | le, s => s != .positive
  | gt, s => s == .positive
  | ge, s => s != .negative
  | eq, s => s == .zero
  | ne, s => s != .zero

/-- The relation that holds exactly where this one does not. -/
def negate : Relation → Relation
  | lt => ge
  | le => gt
  | gt => le
  | ge => lt
  | eq => ne
  | ne => eq

def symbol : Relation → String
  | lt => "<"
  | le => "<="
  | gt => ">"
  | ge => ">="
  | eq => "="
  | ne => "!="

end Relation

end Cylindrical
