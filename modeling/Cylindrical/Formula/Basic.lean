import Cylindrical.Poly.Basic
import Cylindrical.Sign

/-!
# Formulas over polynomial sign conditions

Atoms compare a polynomial with zero.  `Formula.evalWith` is the three-valued truth of a formula
without quantifiers, where atoms may be undecided.
-/

namespace Cylindrical

/-- A quantifier. -/
inductive Quantifier where
  | exists
  | forall
deriving DecidableEq, Inhabited

namespace Quantifier

/-- The truth value that decides the quantified statement as soon as one instance has it. -/
def target : Quantifier → Bool
  | .exists => true
  | .forall => false

end Quantifier

/-- A formula over sign conditions; quantifiers bind blocks of variables. -/
inductive Formula where
  | atom (p : Poly) (r : Relation)
  | and (fs : List Formula)
  | or (fs : List Formula)
  | quantified (q : Quantifier) (vs : List Nat) (f : Formula)
deriving Inhabited

/-- Three-valued conjunction of a list: false if a member is, undecided if it hangs on undecided
members. -/
def allTrue? : List (Option Bool) → Option Bool
  | [] => some true
  | some false :: _ => some false
  | some true :: bs => allTrue? bs
  | none :: bs => if allTrue? bs = some false then some false else none

/-- Three-valued disjunction of a list. -/
def anyTrue? : List (Option Bool) → Option Bool
  | [] => some false
  | some true :: _ => some true
  | some false :: bs => anyTrue? bs
  | none :: bs => if anyTrue? bs = some true then some true else none

namespace Formula

/-- The comparison of two polynomials, as one of their difference with zero. -/
def compare (p : Poly) (r : Relation) (q : Poly) : Formula := atom (p - q) r

mutual

def isQuantifierFree : Formula → Bool
  | atom _ _ => true
  | and fs => allQuantifierFree fs
  | or fs => allQuantifierFree fs
  | quantified _ _ _ => false

/-- No member has a quantifier. -/
def allQuantifierFree : List Formula → Bool
  | [] => true
  | f :: fs => f.isQuantifierFree && allQuantifierFree fs

end

mutual

/-- The atoms from left to right. -/
def atoms : Formula → List (Poly × Relation)
  | atom p r => [(p, r)]
  | and fs => atomsOf fs
  | or fs => atomsOf fs
  | quantified _ _ f => f.atoms

/-- The atoms of a list of formulas. -/
def atomsOf : List Formula → List (Poly × Relation)
  | [] => []
  | f :: fs => f.atoms ++ atomsOf fs

end

/-- The variables that occur in atoms, in increasing order. -/
def atomVars (f : Formula) : List Nat :=
  f.atoms.foldl (fun vs a => a.1.vars.foldl (fun vs v => Poly.insertVar v vs) vs) []

mutual

/-- Renames the variables of atoms and blocks. -/
def rename (g : Nat → Nat) : Formula → Formula
  | atom p r => atom (p.rename g) r
  | and fs => and (renameAll g fs)
  | or fs => or (renameAll g fs)
  | quantified q vs f => quantified q (vs.map g) (f.rename g)

/-- Renames the variables of a list of formulas. -/
def renameAll (g : Nat → Nat) : List Formula → List Formula
  | [] => []
  | f :: fs => f.rename g :: renameAll g fs

end

mutual

/-- The truth of a formula without quantifiers, from the truth of its atoms. -/
def evalWith (truth : Poly → Relation → Option Bool) : Formula → Option Bool
  | atom p r => truth p r
  | and fs => allTrue? (evalAllWith truth fs)
  | or fs => anyTrue? (evalAllWith truth fs)
  | quantified _ _ _ => none

/-- The truth of each formula in a list. -/
def evalAllWith (truth : Poly → Relation → Option Bool) : List Formula → List (Option Bool)
  | [] => []
  | f :: fs => f.evalWith truth :: evalAllWith truth fs

end

end Formula

end Cylindrical
