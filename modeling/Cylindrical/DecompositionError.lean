import Cylindrical.AlgebraError

/-!
# Causes of failure in a decomposition

One constructor for each cause, the sentence that reports it, and the class that tells whether
another attempt can help.
-/

namespace Cylindrical

/-- What is wrong with a quantifier prefix. -/
inductive PrefixFault where
  | emptyBlock
  | boundTwice (name : String)
deriving DecidableEq

/-- What is wrong with the address of a coordinate or a cell. -/
inductive AddressFault where
  | noCoordinate (v : Nat)
  /-- A rational coordinate has not been put in. -/
  | notSubstituted (v : Nat)
  /-- The polynomial has a variable without a coordinate. -/
  | unassigned (p : Poly)
  /-- The path leads to a cell that cannot be lifted further. -/
  | fullDimension (path : List Nat) (dimension : Nat)
  | fullDepth (cell : Nat)
  | notLifted (step : Nat) (path : List Nat)
  | childOutOfRange (child step : Nat) (path : List Nat) (count : Nat)
deriving DecidableEq

/-- What has run out before a decision. -/
inductive Exhaustion where
  | notMonic (v : Nat)
  | signUndecided (doublings : Nat)
  | noStableGcd (primes : Nat)
  | noCofactorVanishes
  | cofactorsNotSeparated (doublings : Nat)
  | normVanishes (p : Poly)
  | rootsNotSeparated (bisections : Nat)
  | rootNotLocated
  | sectionsNotSeparated
  | matrixUndetermined (path : List Nat)
  | cellLimit (limit : Nat)
deriving DecidableEq

/-- Why a decomposition cannot go on. -/
inductive DecompositionError where
  | malformedPrefix (fault : PrefixFault)
  /-- A quantifier below a connective, in a formula as it is written. -/
  | nonPrenex (formula : String)
  | unknownVariable (v : Nat)
  | invalidAddress (fault : AddressFault)
  | inconclusive (what : Exhaustion)
  /-- A projection factor vanishes identically over a cell of positive dimension. -/
  | notWellOriented (factor : Poly) (level : Nat)
  /-- A counted call of the computer algebra failed. -/
  | backend (cause : AlgebraError)
  /-- Local arithmetic failed. -/
  | algebra (cause : AlgebraError)
deriving DecidableEq

/-- Classes of errors. -/
inductive ErrorClass where
  | input
  | inconclusive
  | backend
  | internal
deriving DecidableEq

/-- The written form of a list of positions. -/
def pathText (path : List Nat) : String := "[" ++ ", ".intercalate (path.map toString) ++ "]"

namespace PrefixFault

def message : PrefixFault → String
  | emptyBlock => "empty quantifier block"
  | boundTwice name => name ++ " is bound twice"

end PrefixFault

namespace AddressFault

def message : AddressFault → String
  | noCoordinate v => indexedName v ++ " has no coordinate"
  | notSubstituted v => indexedName v ++ " was not substituted"
  | unassigned p => p.text ++ " has an unassigned variable"
  | fullDimension path n =>
    pathText path ++ " addresses a cell of full dimension " ++ toString n
  | fullDepth id => "cell " ++ toString id ++ " is already at full depth"
  | notLifted step path =>
    "cell at step " ++ toString step ++ " of " ++ pathText path ++ " is not lifted"
  | childOutOfRange i step path n =>
    "child " ++ toString i ++ " out of range at step " ++ toString step ++ " of " ++
      pathText path ++ " (" ++ toString n ++ " children)"

end AddressFault

namespace Exhaustion

def message : Exhaustion → String
  | notMonic v => "defining polynomial of " ++ indexedName v ++ " is not monic"
  | signUndecided n =>
    "sign undecided after " ++ toString n ++ " precision doublings (zero excluded: true)"
  | noStableGcd n => "no stable gcd modulo " ++ toString n ++ " primes"
  | noCofactorVanishes => "neither cofactor vanishes at the sample point"
  | cofactorsNotSeparated n =>
    "cofactors not separated after " ++ toString n ++ " precision doublings"
  | normVanishes p => "norm of " ++ p.text ++ " vanishes over the sample point"
  | rootsNotSeparated n => "roots not separated after " ++ toString n ++ " bisections"
  | rootNotLocated => "root not located among gcd roots"
  | sectionsNotSeparated => "adjacent sections not separated"
  | matrixUndetermined path =>
    "matrix undetermined on full-dimensional cell " ++ pathText path
  | cellLimit n => "cell limit of " ++ toString n ++ " reached"

end Exhaustion

namespace DecompositionError

/-- The sentence that reports the error. -/
def message : DecompositionError → String
  | malformedPrefix f => "malformed quantifier prefix: " ++ f.message
  | nonPrenex f => "formula is not in prenex form: " ++ f
  | unknownVariable v => "unknown variable " ++ indexedName v
  | invalidAddress f => "invalid cell index: " ++ f.message
  | inconclusive e => "inconclusive: " ++ e.message
  | notWellOriented p level =>
    "projection factor " ++ p.text ++ " at level " ++ toString level ++
      " is nullified; McCallum projection is not well oriented"
  | backend e => "CAS backend error: arithmetic failed: " ++ e.message
  | algebra e => e.message

/-- Only an inconclusive attempt is worth repeating with larger limits. -/
def errorClass : DecompositionError → ErrorClass
  | malformedPrefix _ | nonPrenex _ | unknownVariable _ | invalidAddress _ => .input
  | inconclusive _ => .inconclusive
  | backend _ => .backend
  | notWellOriented _ _ | algebra _ => .internal

end DecompositionError

end Cylindrical
