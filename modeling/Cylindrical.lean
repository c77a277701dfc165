import Cylindrical.RealRoot
import Cylindrical.Decomposition.Lifting
import Cylindrical.Proofs.Sample.Sign
import Cylindrical.Proofs.CellTree
import Cylindrical.Proofs.Formula.Truth
import Cylindrical.Proofs.Projection.Closed
import Cylindrical.Proofs.Stack.Order
import Cylindrical.Proofs.Decomposition.Consistent
import Cylindrical.Proofs.Decomposition.Labels
import Cylindrical.Proofs.Decomposition.Lifting
import Cylindrical.Proofs.Decomposition.FoldedTruth
import Cylindrical.Proofs.Decomposition.Worklist
import Cylindrical.Proofs.Decomposition.Agreement
import Cylindrical.Proofs.Interval.Simplest
import Cylindrical.Proofs.Decomposition.Completion
import Cylindrical.Proofs.Poly.Factorization
import Cylindrical.Proofs.Poly.CoprimeBasis
import Cylindrical.Proofs.Groebner
import Cylindrical.Proofs.Poly.Subresultant
import Cylindrical.Proofs.Projection.Requests
import Cylindrical.Proofs.Projection.Exact
import Cylindrical.Proofs.Sample.Validity
import Cylindrical.Proofs.Residue.ChineseRemainder
import Cylindrical.Proofs.Projection.WellFormed
import Cylindrical.Proofs.Projection.CoefficientScan
import Cylindrical.Proofs.Projection.Delineation
import Cylindrical.Proofs.Decomposition.Siblings
import Cylindrical.Proofs.Decomposition.Fallback
import Cylindrical.Proofs.Poly.CanonicalGcd
import Cylindrical.Proofs.Poly.Operations
import Cylindrical.Proofs.Formula.Prenex
import Cylindrical.Proofs.Poly.CompleteFactorization
import Cylindrical.Proofs.Poly.BasisCoordinates
import Cylindrical.Proofs.Univariate.Isolation
import Cylindrical.Proofs.Poly.Determinant
import Cylindrical.Proofs.Poly.SubresultantMatrix
import Cylindrical.Proofs.Poly.SubresultantRows
import Cylindrical.Proofs.Poly.SubresultantGcd
import Cylindrical.Proofs.Poly.Resultant
import Cylindrical.Proofs.Poly.Discriminant
import Cylindrical.Proofs.Poly.Specialisation
import Cylindrical.Proofs.Univariate.Parting
import Cylindrical.Proofs.Poly.OneVariable
import Cylindrical.Proofs.RealRoot
import Cylindrical.Proofs.Stack.TowerSplit
import Cylindrical.Proofs.Stack.Merging
import Cylindrical.Proofs.Groebner.Elimination
import Cylindrical.Proofs.Decomposition.EarlyTruth
import Cylindrical.Proofs.Residue.Homomorphism
import Cylindrical.Proofs.Residue.NonVanishing
import Cylindrical.Proofs.Interval.Inclusion
import Cylindrical.Proofs.Poly.DivisionSteps
import Cylindrical.Proofs.Poly.PseudoDivision
import Cylindrical.Proofs.Poly.CanonicalForm
import Cylindrical.Proofs.Projection.UnknownSigns
import Cylindrical.Proofs.Sample.KnownCoordinates
import Cylindrical.Proofs.CellTree.WriteBack
import Cylindrical.Proofs.CellTree.Paths
import Cylindrical.Proofs.Monomial.Admissible
import Cylindrical.Proofs.Univariate.DescartesBound
import Cylindrical.Proofs.Sample.Refinement
import Cylindrical.Proofs.Poly.SquareFreeDecomposition
import Cylindrical.Proofs.Sample.ProperFactor
import Cylindrical.Proofs.Residue.NormalForm
import Cylindrical.Proofs.Residue.Word
