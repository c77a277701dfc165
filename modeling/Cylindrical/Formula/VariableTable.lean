import Cylindrical.Formula.Basic
import Cylindrical.Poly.Text

/-!
# Variable names

A table of distinct names gives each variable its name, by position.  Polynomials and formulas are
written with the names; a variable beyond the table keeps its indexed name.
-/

namespace Cylindrical

/-- Distinct names, by variable. -/
structure VariableTable where
  names : List String := []
deriving DecidableEq, Inhabited

namespace VariableTable

/-- The variable with the given name. -/
def get? (t : VariableTable) (name : String) : Option Nat := t.names.idxOf? name

/-- The variable with the given name, which is added if it is new. -/
def add (t : VariableTable) (name : String) : Nat × VariableTable :=
  match t.get? name with
  | some v => (v, t)
  | none => (t.names.length, ⟨t.names ++ [name]⟩)

/-- The table of a list of names, repeated ones left out. -/
def ofNames (names : List String) : VariableTable :=
  names.foldl (fun t name => (t.add name).2) {}

def name? (t : VariableTable) (v : Nat) : Option String := t.names[v]?

def contains (t : VariableTable) (v : Nat) : Bool := v < t.names.length

/-- The name of a variable, its indexed name if it has none. -/
def nameOf (t : VariableTable) (v : Nat) : String := (t.name? v).getD (indexedName v)

/-- The written form of a polynomial with these names. -/
def polyText (t : VariableTable) (p : Poly) : String := p.textWith t.nameOf

mutual

/-- The written form of a formula with these names. -/
def formulaText (t : VariableTable) : Formula → String
  | .atom p r => t.polyText p ++ " " ++ r.symbol ++ " 0"
  | .and fs => "(" ++ " /\\ ".intercalate (formulaTexts t fs) ++ ")"
  | .or fs => "(" ++ " \\/ ".intercalate (formulaTexts t fs) ++ ")"
  | .quantified q vs f =>
    (match q with | .exists => "ex " | .forall => "all ") ++
      " ".intercalate (vs.map t.nameOf) ++ ". " ++ formulaText t f

/-- The written forms of a list of formulas. -/
def formulaTexts (t : VariableTable) : List Formula → List String
  | [] => []
  | f :: fs => formulaText t f :: formulaTexts t fs

end

end VariableTable

end Cylindrical
