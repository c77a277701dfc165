import Cylindrical.Poly.Text

/-!
# Causes of failure in polynomial arithmetic

One constructor for each cause, and the sentence that reports it.
-/

namespace Cylindrical

/-- Why an operation on polynomials has no result. -/
inductive AlgebraError where
  | divisionByZero
  /-- The divisor does not divide the dividend. -/
  | inexactQuotient (dividend divisor : Poly)
  /-- An elimination step left a remainder. -/
  | inexactElimination
  /-- The leading coefficient does not divide the resultant with the derivative. -/
  | inexactDiscriminant (p : Poly)
  /-- The polynomial is not a product of elements of the basis. -/
  | notOverBasis (p : Poly)
  | subresultantCoeffIndex (index bound : Nat)
  | subresultantIndex (index bound : Nat)
  | rootsOfZero
  | notUnivariateIn (p : Poly) (v : Nat)
  | notUnivariate (p : Poly)
  /-- A Gröbner basis grew beyond its limit. -/
  | basisLimit (limit : Nat)
deriving DecidableEq

namespace AlgebraError

/-- The sentence that reports the error. -/
def message : AlgebraError → String
  | divisionByZero => "division by zero"
  | inexactQuotient p d => "inexact division: " ++ p.text ++ " / " ++ d.text
  | inexactElimination => "inexact division: Bareiss step"
  | inexactDiscriminant p => "inexact division: discriminant of " ++ p.text
  | notOverBasis p => "inexact division: " ++ p.text ++ " over basis"
  | subresultantCoeffIndex j m =>
    "invalid argument: psc index " ++ toString j ++ " exceeds min degree " ++ toString m
  | subresultantIndex k m =>
    "invalid argument: subresultant index " ++ toString k ++ " must be below min degree " ++
      toString m
  | rootsOfZero => "invalid argument: cannot isolate roots of the zero polynomial"
  | notUnivariateIn p v =>
    "invalid argument: " ++ p.text ++ " is not univariate in " ++ indexedName v
  | notUnivariate p => "invalid argument: " ++ p.text ++ " is not univariate"
  | basisLimit n =>
    "invalid argument: Gröbner basis exceeded " ++ toString n ++ " elements"

end AlgebraError

/-- Results of polynomial arithmetic. -/
abbrev Algebra (α : Type) := Except AlgebraError α

end Cylindrical
