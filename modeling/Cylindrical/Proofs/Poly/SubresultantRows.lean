import Mathlib
import Cylindrical.Proofs.Poly.Operations
import Cylindrical.Proofs.Poly.Subresultant
import Cylindrical.Proofs.Poly.SubresultantMatrix

/-!
# Subresultants of polynomials

The rows that are laid out hold the coefficients of the shifted polynomials, so that the
determinants which are found are those of the subresultant matrix, at every point of the other
variables.  They are found for every index.
-/

noncomputable section

open MvPolynomial

namespace Cylindrical

namespace Poly

variable {v j k : ℕ} {p q : Poly}

theorem natDegree_openVar (v : ℕ) (p : Poly) : (openVar v p.toMv).natDegree = p.degreeOf v := by
  refine le_antisymm (natDegree_fiber_le v X p) ?_
  by_cases hp : p.toMv = 0
  · rw [degreeOf_eq, hp, degreeOf_zero]
    exact Nat.zero_le _
  · refine Polynomial.le_natDegree_of_ne_zero ?_
    rw [coeff_openVar]
    exact leadingCoeffOf_ne_zero hp

/-! ## Entries of the rows -/

theorem getD_zeros (n i : ℕ) : (List.replicate n (0 : Poly)).getD i 0 = 0 := by
  rw [List.getD_eq_getElem?_getD, List.getElem?_getD_replicate_default_eq]

theorem getD_append_zeros (cs : List Poly) (n i : ℕ) :
    (cs ++ List.replicate n 0).getD i 0 = cs.getD i 0 := by
  by_cases hi : i < cs.length
  · exact List.getD_append _ _ _ _ hi
  · rw [List.getD_append_right _ _ _ _ (not_lt.1 hi), getD_zeros,
      List.getD_eq_default _ _ (not_lt.1 hi)]

theorem length_shiftedRow {cols shift : ℕ} {cs : List Poly} (h : shift + cs.length ≤ cols) :
    (shiftedRow cols shift cs).length = cols := by
  simp only [shiftedRow, List.length_append, List.length_replicate, List.length_reverse]
  omega

/-- The entries of a row are the coefficients of the shifted polynomial, from the highest one
down. -/
theorem toMv_getD_shiftedRow {cols shift c : ℕ} {cs : List Poly}
    {P : Polynomial (MvPolynomial ℕ ℚ)} (hP : ∀ k, (cs.getD k 0).toMv = P.coeff k)
    (hcols : shift + cs.length ≤ cols) (hc : c < cols) :
    ((shiftedRow cols shift cs).getD c 0).toMv = (Polynomial.X ^ shift * P).coeff (cols - 1 - c) := by
  have hreverse : shiftedRow cols shift cs =
      (List.replicate shift 0 ++ (cs ++ List.replicate (cols - shift - cs.length) 0)).reverse := by
    simp [shiftedRow]
  have hlength := congrArg List.length hreverse
  rw [length_shiftedRow hcols, List.length_reverse] at hlength
  rw [hreverse, List.getD_reverse _ (hlength ▸ hc), ← hlength, Polynomial.coeff_X_pow_mul']
  split_ifs with hshift
  · rw [List.getD_append_right _ _ _ _ (by simpa using hshift), List.length_replicate,
      getD_append_zeros, hP]
  · rw [List.getD_append _ _ _ _ (by simpa using hshift), getD_zeros, toMv_zero]

theorem toMv_getD_coeffs (v k : ℕ) (p : Poly) :
    ((p.coeffs v).getD k 0).toMv = (openVar v p.toMv).coeff k := by
  rw [coeff_openVar, coeffs, List.getD_eq_getElem?_getD, List.getElem?_map]
  by_cases hk : k < p.degreeOf v + 1
  · rw [List.getElem?_range hk]
    rfl
  · rw [List.getElem?_eq_none (by simpa using hk), coeff_eq_zero_of_degreeOf_lt (by omega)]
    exact toMv_zero

theorem length_coeffs (v : ℕ) (p : Poly) : (p.coeffs v).length = p.degreeOf v + 1 := by
  rw [coeffs, List.length_map, List.length_range]

theorem getD_map_reverse_range {n i : ℕ} (f : ℕ → List Poly) (hi : i < n) :
    ((List.range n).reverse.map f).getD i [] = f (n - 1 - i) := by
  rw [List.getD_eq_getElem _ _ (by simpa using hi), List.getElem_map, List.getElem_reverse,
    List.getElem_range, List.length_range]

variable {a b : ℕ}

/-- The coefficients that the rows of the matrix hold. -/
theorem table_subresultantRows {i c : ℕ} (hp : p.degreeOf v = b + j) (hq : q.degreeOf v = a + j)
    (hi : i < a + b) (hc : c < a + b + j) :
    table (subresultantRows j (p.coeffs v) (q.coeffs v)) i c =
      blockTable (openVar v p.toMv) (openVar v q.toMv) a b j i c := by
  have hrows : subresultantRows j (p.coeffs v) (q.coeffs v) =
      (List.range a).reverse.map (shiftedRow (a + b + j) · (p.coeffs v)) ++
        (List.range b).reverse.map (shiftedRow (a + b + j) · (q.coeffs v)) := by
    rw [subresultantRows, length_coeffs, length_coeffs, hp, hq]
    simp only [Nat.add_sub_cancel]
    rw [show b + j + (a + j) - j = a + b + j by omega]
  rw [table, hrows, blockTable, blockRow]
  split_ifs with hia
  · rw [List.getD_append _ _ _ _ (by simpa using hia), getD_map_reverse_range _ hia,
      toMv_getD_shiftedRow (toMv_getD_coeffs v · p) (by rw [length_coeffs]; omega) hc]
  · rw [List.getD_append_right _ _ _ _ (by simpa using hia), List.length_map, List.length_reverse,
      List.length_range, getD_map_reverse_range _ (by omega),
      toMv_getD_shiftedRow (toMv_getD_coeffs v · q) (by rw [length_coeffs]; omega) hc,
      show b - 1 - (i - a) = a + b - 1 - i by omega]

theorem length_subresultantRows (hp : p.degreeOf v = b + j) (hq : q.degreeOf v = a + j) :
    (subresultantRows j (p.coeffs v) (q.coeffs v)).length = a + b := by
  rw [subresultantRows, length_coeffs, length_coeffs, hp, hq]
  simp

theorem length_of_mem_subresultantRows {row : List Poly} (hp : p.degreeOf v = b + j)
    (hq : q.degreeOf v = a + j) (h : row ∈ subresultantRows j (p.coeffs v) (q.coeffs v)) :
    row.length = a + b + j := by
  rw [subresultantRows, length_coeffs, length_coeffs, hp, hq, List.mem_append] at h
  rcases h with h | h
  all_goals
    obtain ⟨shift, hshift, rfl⟩ := List.mem_map.1 h
    have hshift := List.mem_range.1 (List.mem_reverse.1 hshift)
    rw [length_shiftedRow (by rw [length_coeffs]; omega)]
    omega

theorem table_map {rows : List (List Poly)} {f : List Poly → List Poly} {i : ℕ}
    (hi : i < rows.length) (c : ℕ) : table (rows.map f) i c = ((f rows[i]).getD c 0).toMv := by
  rw [table, List.getD_eq_getElem (rows.map f) _ (by rwa [List.length_map]), List.getElem_map]

theorem table_of_lt {rows : List (List Poly)} {i : ℕ} (hi : i < rows.length) (c : ℕ) :
    table rows i c = (rows[i].getD c 0).toMv := by
  rw [table, List.getD_eq_getElem rows _ hi]

theorem getD_take {row : List Poly} {n c : ℕ} (hc : c < n) : (row.take n).getD c 0 = row.getD c 0 := by
  rw [List.getD_eq_getElem?_getD, List.getElem?_take_of_lt hc, List.getD_eq_getElem?_getD]

theorem getD_take_append {row : List Poly} {n c e : ℕ} (hn : n ≤ row.length) (hc : c < n + 1) :
    (row.take n ++ [row.getD e 0]).getD c 0 = row.getD (if c < n then c else e) 0 := by
  have hlength : (row.take n).length = n := by rw [List.length_take, min_eq_left hn]
  split_ifs with hcn
  · rw [List.getD_append _ _ _ _ (by rwa [hlength]), getD_take hcn]
  · rw [List.getD_append_right _ _ _ _ (by omega), hlength, show c - n = 0 by omega]
    rfl

/-- Polynomials without a variable are closed under the operations of elimination. -/
theorem closed_notMem_vars (v : ℕ) : Closed fun r => v ∉ r.toMv.vars where
  zero := by simp
  one := by simp
  neg h := by rwa [toMv_neg, vars_neg]
  mul hp hq h := by
    rw [toMv_mul] at h
    exact (Finset.mem_union.1 (vars_mul _ _ h)).elim hp hq
  sub hp hq h := by
    rw [toMv_sub] at h
    exact (Finset.mem_union.1 (vars_sub_subset _ h)).elim hp hq
  divExact? hp h hv := hp (VarsIn.divExact? subset_rfl h hv)

theorem notMem_vars_of_mem_coeffs : ∀ c ∈ p.coeffs v, v ∉ c.toMv.vars :=
  List.forall_mem_map.2 fun k _ => notMem_vars_coeff v k p

/-! ## Determinants that are found -/

/-- A principal subresultant coefficient is found for every index up to the smaller degree, and it
is the determinant of the matrix. -/
theorem returns_subresultantCoeff (hp0 : p.toMv ≠ 0) (hq0 : q.toMv ≠ 0)
    (hp : p.degreeOf v = b + j) (hq : q.degreeOf v = a + j) :
    Returns (subresultantCoeff v j p q) fun d =>
      d.toMv = pscDet (openVar v p.toMv) (openVar v q.toMv) a b j := by
  rw [subresultantCoeff, isZero_eq_false_iff.2 hp0, isZero_eq_false_iff.2 hq0]
  simp only [Bool.or_self, Bool.false_eq_true, if_false]
  rw [if_neg (by omega), show p.degreeOf v + q.degreeOf v - 2 * j = a + b by omega]
  have hsquare : Square (a + b) ((subresultantRows j (p.coeffs v) (q.coeffs v)).map
      fun row => row.take (a + b)) := by
    refine ⟨by rw [List.length_map, length_subresultantRows hp hq], List.forall_mem_map.2 ?_⟩
    intro row hrow
    rw [List.length_take, length_of_mem_subresultantRows hp hq hrow]
    omega
  refine (returns_determinant hsquare).mono fun d hd => hd.trans ?_
  rw [pscDet, leadingMinor, leadingMinor, minor, minor]
  congr 1
  ext1 i c
  have hi : (i : ℕ) < (subresultantRows j (p.coeffs v) (q.coeffs v)).length := by
    rw [length_subresultantRows hp hq]
    exact i.isLt
  rw [Matrix.of_apply, Matrix.of_apply, ← table_subresultantRows hp hq i.isLt (by omega),
    table_map hi, getD_take c.isLt, table_of_lt hi]

/-- The coefficients of a subresultant are found, and do not contain the variable. -/
theorem returns_subresultantEntry {i : ℕ} (hab : 0 < a + b) (hp : p.degreeOf v = b + k)
    (hq : q.degreeOf v = a + k) (hi : i ≤ k) :
    Returns (determinant ((subresultantRows k (p.coeffs v) (q.coeffs v)).map fun row =>
        row.take (a + b - 1) ++ [row.getD (a + b + k - 1 - i) 0])) fun d =>
      v ∉ d.toMv.vars ∧
        d.toMv = subresultantEntry (openVar v p.toMv) (openVar v q.toMv) a b k i := by
  have hsquare : Square (a + b) ((subresultantRows k (p.coeffs v) (q.coeffs v)).map fun row =>
      row.take (a + b - 1) ++ [row.getD (a + b + k - 1 - i) 0]) := by
    refine ⟨by rw [List.length_map, length_subresultantRows hp hq], List.forall_mem_map.2 ?_⟩
    intro row hrow
    rw [List.length_append, List.length_take, length_of_mem_subresultantRows hp hq hrow,
      List.length_singleton]
    omega
  refine ((returns_determinant hsquare).and fun d hd => ?_).mono fun d hd => ⟨hd.2, hd.1.trans ?_⟩
  · have hrows := (closed_notMem_vars v).of_mem_subresultantRows (j := k)
      (notMem_vars_of_mem_coeffs (p := p)) (notMem_vars_of_mem_coeffs (p := q))
    refine (closed_notMem_vars v).of_eliminate (List.forall_mem_map.2 fun row hrow x hx => ?_) hd
    rcases List.mem_append.1 hx with hx | hx
    · exact hrows row hrow x (List.mem_of_mem_take hx)
    · have hlength := length_of_mem_subresultantRows hp hq hrow
      rw [List.mem_singleton.1 hx, List.getD_eq_getElem _ _ (by omega)]
      exact hrows row hrow _ (List.getElem_mem _)
  · rw [subresultantEntry, leadingMinor, leadingMinor, minor, minor]
    congr 1
    ext1 r c
    have hr : (r : ℕ) < (subresultantRows k (p.coeffs v) (q.coeffs v)).length := by
      rw [length_subresultantRows hp hq]
      exact r.isLt
    have hlength := length_of_mem_subresultantRows hp hq (List.getElem_mem hr)
    rw [Matrix.of_apply, Matrix.of_apply, table_map hr,
      getD_take_append (by omega) (by omega), ← table_of_lt hr,
      table_subresultantRows hp hq r.isLt (by split_ifs <;> omega), blockTable, exchangedTable]
    congr 1
    split_ifs <;> omega

/-- Subresultants are found for every index below the smaller degree. -/
theorem returns_subresultant (hp0 : p.toMv ≠ 0) (hq0 : q.toMv ≠ 0) (ha : 0 < a) (hb : 0 < b)
    (hp : p.degreeOf v = b + k) (hq : q.degreeOf v = a + k) :
    Returns (subresultant v k p q) fun s => s.order = .grLex ∧
      openVar v s.toMv = subresultantPoly (openVar v p.toMv) (openVar v q.toMv) a b k := by
  rw [subresultant, isZero_eq_false_iff.2 hp0, isZero_eq_false_iff.2 hq0]
  simp only [Bool.or_self, Bool.false_eq_true, if_false]
  rw [if_neg (by omega), show p.degreeOf v + q.degreeOf v - 2 * k - 1 = a + b - 1 by omega,
    show p.degreeOf v + q.degreeOf v - k - 1 = a + b + k - 1 by omega]
  refine (returns_mapM fun i hi => returns_subresultantEntry (by omega) hp hq
    (Nat.le_of_lt_succ (List.mem_range.1 hi))).bind fun cs hcs => .ok ⟨rfl, ?_⟩
  have hlength : cs.length = k + 1 := by rw [← hcs.length_eq, List.length_range]
  rw [toMv_ofCoeffs, hlength, map_sum, subresultantPoly]
  refine Finset.sum_congr rfl fun i hi => ?_
  have hi := Finset.mem_range.1 hi
  obtain ⟨hv, hc⟩ := hcs.get (by simpa using hi) (by rwa [hlength])
  rw [List.get_eq_getElem] at hv hc
  rw [List.getD_eq_getElem _ _ (by rwa [hlength]), map_mul, openVar_of_notMem hv, hc]
  simp [openVar]

end Poly

end Cylindrical

end
