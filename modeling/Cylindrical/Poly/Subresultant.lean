import Cylindrical.Poly.Division

/-!
# Subresultants

The `j`-th principal subresultant coefficient of `p` and `q`, of degrees `m` and `n` in `v`, is the
determinant of the leading square block of the matrix whose rows are
`v^(n-j-1) p, …, p, v^(m-j-1) q, …, q`, with the highest power of `v` in the first column.  The
resultant is the one of index zero.  Determinants are found by fraction-free elimination, in which
every division by the previous pivot is exact.
-/

namespace Cylindrical

namespace Poly

/-! ## Determinants -/

/-- Exchanges `row` with the first row of a list that begins with a nonzero entry. -/
def exchangeRow (row : List Poly) : List (List Poly) → Option (List Poly × List (List Poly))
  | [] => none
  | r :: rs =>
    if (r.headD 0).isZero then
      (exchangeRow row rs).map fun (pivot, rest) => (pivot, r :: rest)
    else some (r, row :: rs)

/-- Clears the first entry of a row with a pivot row, divides by the previous pivot, and drops the
cleared entry. -/
def eliminateRow (prev p : Poly) (ps : List Poly) : List Poly → Algebra (List Poly)
  | [] => .ok []
  | c :: cs =>
    (cs.zip ps).mapM fun (x, y) =>
      match (x * p - c * y).divExact? prev with
      | some q => .ok q
      | none => .error .inexactElimination

/-- Eliminates column by column; `prev` is the previous pivot. -/
def eliminate : Nat → Poly → Bool → List (List Poly) → Algebra Poly
  | 0, _, _, _ => .ok 1
  | _, _, _, [] => .ok 1
  | _ + 1, _, negate, [row] =>
    let d := row.headD 0
    .ok (if negate then -d else d)
  | n + 1, prev, negate, row :: rows =>
    match if (row.headD 0).isZero then (exchangeRow row rows).map fun r => (r, !negate)
      else some ((row, rows), negate) with
    | some ((p :: ps, rows), negate) => do
      eliminate n p negate (← rows.mapM (eliminateRow prev p ps))
    | _ => .ok 0

/-- The determinant of a square matrix, given by its rows. -/
def determinant (rows : List (List Poly)) : Algebra Poly := eliminate rows.length 1 false rows

/-! ## Subresultants -/

/-- The row of `v ^ shift` times the polynomial with the given coefficients, from the highest of
the `cols` columns down. -/
def shiftedRow (cols shift : Nat) (cs : List Poly) : List Poly :=
  List.replicate (cols - shift - cs.length) 0 ++ cs.reverse ++ List.replicate shift 0

/-- The rows of the subresultant matrix of index `j`. -/
def subresultantRows (j : Nat) (ps qs : List Poly) : List (List Poly) :=
  let m := ps.length - 1
  let n := qs.length - 1
  let cols := m + n - j
  (List.range (n - j)).reverse.map (shiftedRow cols · ps) ++
    (List.range (m - j)).reverse.map (shiftedRow cols · qs)

/-- The `j`-th principal subresultant coefficient in `v`, for `j` up to the smaller degree. -/
def subresultantCoeff (v j : Nat) (p q : Poly) : Algebra Poly :=
  if p.isZero || q.isZero then .ok 0
  else
    let m := p.degreeOf v
    let n := q.degreeOf v
    if min m n < j then .error (.subresultantCoeffIndex j (min m n))
    else
      determinant ((subresultantRows j (p.coeffs v) (q.coeffs v)).map fun row =>
        row.take (m + n - 2 * j))

/-- The principal subresultant coefficients of all indices below the smaller degree. -/
def subresultantCoeffs (v : Nat) (p q : Poly) : Algebra (List Poly) :=
  (List.range (min (p.degreeOf v) (q.degreeOf v))).mapM fun j => subresultantCoeff v j p q

/-- The `k`-th subresultant polynomial in `v`, for `k` below the smaller degree. -/
def subresultant (v k : Nat) (p q : Poly) : Algebra Poly :=
  if p.isZero || q.isZero then .ok 0
  else
    let m := p.degreeOf v
    let n := q.degreeOf v
    if min m n ≤ k then .error (.subresultantIndex k (min m n))
    else do
      let rows := subresultantRows k (p.coeffs v) (q.coeffs v)
      let lead := m + n - 2 * k - 1
      let cs ← (List.range (k + 1)).mapM fun i =>
        determinant (rows.map fun row => row.take lead ++ [row.getD (m + n - k - 1 - i) 0])
      return ofCoeffs v cs

def resultant (v : Nat) (p q : Poly) : Algebra Poly := subresultantCoeff v 0 p q

/-- The discriminant in `v`: the resultant with the derivative divided by the leading coefficient,
with the sign that makes it a product of squared differences of roots.  It is one below degree
two. -/
def discriminant (v : Nat) (p : Poly) : Algebra Poly :=
  let m := p.degreeOf v
  if m ≤ 1 then .ok 1
  else do
    let r ← resultant v p (p.derivative v)
    match r.divExact? (p.leadingCoeffOf v) with
    | none => .error (.inexactDiscriminant p)
    | some d => return if m * (m - 1) / 2 % 2 = 1 then -d else d

end Poly

end Cylindrical
