import Cylindrical.AlgebraError

/-!
# Exact division and pseudo-division

`Poly.divExact?` cancels leading terms until nothing is left or a leading term is not divisible.
A quotient has no more terms than there are monomials in the variables of the dividend with
exponents up to its degree, and that many steps are taken at most.

`Poly.pseudoRemainder` multiplies the dividend by as many leading coefficients of the divisor as
the division may need: one more than the difference of the degrees.
-/

namespace Cylindrical

/-- Divides a list of terms by `d`, which begins with `lead`, in at most the given number of
steps. -/
def divideTerms? (o : MonomialOrder) (lead : Term) (d : List Term) :
    Nat → List Term → Option (List Term)
  | _, [] => some []
  | 0, _ :: _ => none
  | steps + 1, t :: ts =>
    match t.monomial.div? lead.monomial with
    | none => none
    | some m =>
      let q : Term := ⟨t.coeff / lead.coeff, m⟩
      let rest := addTerms o (t :: ts) (mulTerm o ⟨-q.coeff, m⟩ d)
      (divideTerms? o lead d steps rest).map (q :: ·)

namespace Poly

/-- A bound for the number of terms of a divisor of `p`. -/
def divisorTermBound (p : Poly) : Nat := (p.totalDegree + 1).pow p.vars.length

/-- The quotient `q` with `p = q * d`, if there is one. -/
def divExact? (p d : Poly) : Option Poly :=
  if p.isZero && !d.isZero then some 0
  else
    match (d.withOrder p.order).terms with
    | [] => none
    | lead :: ds =>
      if ds.isEmpty && lead.monomial.isUnit then some (p.scale lead.coeff⁻¹)
      else
        (divideTerms? p.order lead (lead :: ds) p.divisorTermBound p.terms).map (ofTerms p.order)

/-- The quotient of a division that leaves no remainder. -/
def exactQuotient (p d : Poly) : Algebra Poly :=
  match p.divExact? d with
  | some q => .ok q
  | none => .error (.inexactQuotient p d)

/-- Reduces `r` by `d`, of degree `n` and leading coefficient `lc` in `v`, multiplying it by `lc`
the given number of times altogether. -/
def pseudoReduce (v : Nat) (d lc : Poly) (n : Nat) : Nat → Poly → Poly
  | 0, r => r
  | steps + 1, r =>
    if r.isZero || r.degreeOf v < n then r * lc.pow (steps + 1)
    else
      let shift := Monomial.ofPower v (r.degreeOf v - n)
      pseudoReduce v d lc n steps (r * lc - (r.leadingCoeffOf v * d).mulMonomial shift)

/-- The remainder of `lc ^ (m - n + 1) * p` on division by `d` in the variable `v`, where `lc` is
the leading coefficient of `d`, and `m` and `n` are the degrees of `p` and `d`. -/
def pseudoRemainder (v : Nat) (p d : Poly) : Algebra Poly :=
  if d.isZero then .error .divisionByZero
  else
    let m := p.degreeOf v
    let n := d.degreeOf v
    if p.isZero || m < n then .ok p
    else .ok (pseudoReduce v d (d.leadingCoeffOf v) n (m - n + 1) p)

end Poly

end Cylindrical
