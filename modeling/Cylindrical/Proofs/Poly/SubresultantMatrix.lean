import Mathlib
import Cylindrical.Proofs.Poly.Determinant

/-!
# Subresultant matrices

The rows of a subresultant matrix are the coefficients of the products of two polynomials with
powers of the variable.  Where both leading coefficients of one polynomial's rows vanish, the first
column has one entry that is not zero, and the determinant loses a row of the other polynomial.
-/

noncomputable section

open Polynomial

namespace Cylindrical

section

variable {R : Type*} [CommRing R] (P Q : R[X]) (a b j : ℕ)

/-- The rows `X ^ (a - 1) * P, …, P, X ^ (b - 1) * Q, …, Q`. -/
def blockRow (i : ℕ) : R[X] := if i < a then X ^ (a - 1 - i) * P else X ^ (a + b - 1 - i) * Q

/-- The coefficients of the rows, from the highest one that `j` leaves. -/
def blockTable (i c : ℕ) : R := (blockRow P Q a b i).coeff (a + b + j - 1 - c)

/-- The principal subresultant coefficient of index `j` with `a` rows of the first polynomial and
`b` rows of the second. -/
def pscDet : R := leadingMinor (blockTable P Q a b j) (a + b)

variable {P Q a b j}

theorem blockRow_map {S : Type*} [CommRing S] (f : R →+* S) (i : ℕ) :
    blockRow (P.map f) (Q.map f) a b i = (blockRow P Q a b i).map f := by
  rw [blockRow, blockRow]
  split_ifs <;> simp

theorem natDegree_blockRow_le (i : ℕ) : (blockRow P Q a b i).natDegree ≤
    if i < a then a - 1 - i + P.natDegree else a + b - 1 - i + Q.natDegree := by
  rw [blockRow]
  split_ifs <;> exact natDegree_mul_le_of_le (natDegree_X_pow_le _) le_rfl

theorem pscDet_map {S : Type*} [CommRing S] (f : R →+* S) :
    pscDet (P.map f) (Q.map f) a b j = f (pscDet P Q a b j) := by
  rw [pscDet, pscDet, map_leadingMinor]
  congr 1
  ext i c
  rw [blockTable, blockTable, blockRow_map, coeff_map]

/-! ## Degrees that drop -/

/-- Expansion at a first column with a single entry. -/
theorem leadingMinor_of_column {B : ℕ → ℕ → R} {r n : ℕ} (hr : r ≤ n)
    (h : ∀ i ≤ n, i ≠ r → B i 0 = 0) : leadingMinor B (n + 1) =
      (-1) ^ r * B r 0 * leadingMinor (fun i c => B (if i < r then i else i + 1) (c + 1)) n := by
  rw [leadingMinor, minor, Matrix.det_succ_column_zero,
    Finset.sum_eq_single ⟨r, Nat.lt_succ_of_le hr⟩]
  · congr 2
    ext i c
    simp only [Matrix.submatrix_apply, Matrix.of_apply, Fin.succAbove, Fin.lt_def, Fin.val_castSucc]
    split_ifs <;> rfl
  · intro i _ hi
    have hzero : B i 0 = 0 := h i (Nat.le_of_lt_succ i.isLt) fun he => hi (Fin.ext he)
    rw [Matrix.of_apply, Fin.val_zero, hzero, mul_zero, zero_mul]
  · intro hmem
    exact absurd (Finset.mem_univ _) hmem

theorem blockRow_succ_right (P Q : R[X]) (a b i : ℕ) :
    blockRow P Q a (b + 1) (if i < a then i else i + 1) = blockRow P Q a b i := by
  rw [blockRow, blockRow, show a + (b + 1) - 1 = a + b by omega]
  split_ifs
  · rfl
  · omega
  · rw [show a + b - (i + 1) = a + b - 1 - i by omega]

theorem blockRow_succ_left (P Q : R[X]) (a b i : ℕ) :
    blockRow P Q (a + 1) b (i + 1) = blockRow P Q a b i := by
  rw [blockRow, blockRow, show a + 1 - 1 - (i + 1) = a - 1 - i by omega,
    show a + 1 + b - 1 - (i + 1) = a + b - 1 - i by omega]
  simp only [Nat.add_lt_add_iff_right]

/-- Where the degree of `P` does not reach the first column, the determinant loses a row of `Q`. -/
theorem pscDet_succ_right (hP : P.natDegree ≤ b + j) (hQ : Q.natDegree ≤ a + j) :
    pscDet P Q a (b + 1) j = (-1) ^ a * Q.coeff (a + j) * pscDet P Q a b j := by
  rw [pscDet, ← add_assoc, leadingMinor_of_column (r := a) (Nat.le_add_right a b)]
  · congr 1
    · rw [blockTable, blockRow, if_neg (lt_irrefl a), coeff_X_pow_mul', if_pos (by omega)]
      congr 2
      omega
    · rw [pscDet]
      congr 1
      ext i c
      rw [blockTable, blockTable, blockRow_succ_right]
      congr 1
      omega
  · intro i hi hne
    refine coeff_eq_zero_of_natDegree_lt ((natDegree_blockRow_le i).trans_lt ?_)
    split_ifs <;> omega

theorem pscDet_succ_left (hP : P.natDegree ≤ b + j) (hQ : Q.natDegree ≤ a + j) :
    pscDet P Q (a + 1) b j = P.coeff (b + j) * pscDet P Q a b j := by
  rw [pscDet, add_right_comm, leadingMinor_of_column (r := 0) (Nat.zero_le _), pow_zero, one_mul]
  · congr 1
    · rw [blockTable, blockRow, if_pos (by omega), coeff_X_pow_mul', if_pos (by omega)]
      congr 1
      omega
    · rw [pscDet]
      congr 1
      ext i c
      rw [if_neg (Nat.not_lt_zero i), blockTable, blockTable, blockRow_succ_left]
      congr 1
      omega
  · intro i hi hne
    refine coeff_eq_zero_of_natDegree_lt ((natDegree_blockRow_le i).trans_lt ?_)
    split_ifs <;> omega

/-- Rows of `Q` for a degree that `P` does not have leave powers of the leading coefficient. -/
theorem pscDet_add_right (hP : P.natDegree ≤ b + j) (hQ : Q.natDegree ≤ a + j) (e : ℕ) :
    pscDet P Q a (b + e) j = (-1) ^ (a * e) * Q.coeff (a + j) ^ e * pscDet P Q a b j := by
  induction e with
  | zero => simp
  | succ e ih =>
    rw [← add_assoc, pscDet_succ_right (by omega) hQ, ih, Nat.mul_succ]
    ring

theorem pscDet_add_left (hP : P.natDegree ≤ b + j) (hQ : Q.natDegree ≤ a + j) (e : ℕ) :
    pscDet P Q (a + e) b j = P.coeff (b + j) ^ e * pscDet P Q a b j := by
  induction e with
  | zero => simp
  | succ e ih =>
    rw [← add_assoc, pscDet_succ_left hP (by omega), ih]
    ring

/-! ## Combinations of the rows -/

/-- The polynomial with the first `n` values as coefficients, from the highest one down. -/
def descending (w : ℕ → R) (n : ℕ) : R[X] := ∑ r ∈ Finset.range n, C (w (n - 1 - r)) * X ^ r

theorem coeff_descending (w : ℕ → R) (n i : ℕ) :
    (descending w n).coeff i = if i < n then w (n - 1 - i) else 0 := by
  simp [descending, coeff_X_pow]

theorem degree_descending_lt (w : ℕ → R) (n : ℕ) : (descending w n).degree < n := by
  rw [degree_lt_iff_coeff_zero]
  intro i hi
  rw [coeff_descending, if_neg (by omega)]

theorem sum_blockRow (P Q : R[X]) (a b : ℕ) (w : ℕ → R) :
    ∑ r ∈ Finset.range (a + b), C (w r) * blockRow P Q a b r =
      descending w a * P + descending (fun r => w (a + r)) b * Q := by
  rw [Finset.sum_range_add, descending, descending, Finset.sum_mul, Finset.sum_mul,
    ← Finset.sum_range_reflect (fun r => C (w r) * blockRow P Q a b r),
    ← Finset.sum_range_reflect (fun r => C (w (a + r)) * blockRow P Q a b (a + r))]
  refine congrArg₂ (· + ·) (Finset.sum_congr rfl fun r hr => ?_) (Finset.sum_congr rfl fun r hr => ?_)
  · have hr := Finset.mem_range.1 hr
    rw [blockRow, if_pos (by omega), show a - 1 - (a - 1 - r) = r by omega, mul_assoc]
  · have hr := Finset.mem_range.1 hr
    rw [blockRow, if_neg (by omega), show a + b - 1 - (a + (b - 1 - r)) = r by omega, mul_assoc]

/-- No row reaches beyond the first column. -/
theorem natDegree_blockRow_lt {k r : ℕ} (hP : P.natDegree ≤ b + k) (hQ : Q.natDegree ≤ a + k)
    (hr : r < a + b) : (blockRow P Q a b r).natDegree < a + b + k := by
  refine (natDegree_blockRow_le r).trans_lt ?_
  split_ifs <;> omega

/-! ## Subresultant polynomials -/

/-- The rows with the column of another power in the last place. -/
def exchangedTable (P Q : R[X]) (a b k i r c : ℕ) : R :=
  (blockRow P Q a b r).coeff (if c + 1 < a + b then a + b + k - 1 - c else i)

/-- A coefficient of the subresultant of index `k`. -/
def subresultantEntry (P Q : R[X]) (a b k i : ℕ) : R :=
  leadingMinor (exchangedTable P Q a b k i) (a + b)

theorem subresultantEntry_self (P Q : R[X]) (a b k : ℕ) :
    subresultantEntry P Q a b k k = pscDet P Q a b k := by
  rw [subresultantEntry, pscDet, leadingMinor, leadingMinor, minor, minor]
  congr 1
  ext r c
  simp only [Matrix.of_apply, blockTable, exchangedTable]
  congr 1
  have := c.isLt
  split_ifs <;> omega

/-- A power that stands in another column, or in none, leaves no determinant. -/
theorem subresultantEntry_of_lt {k i : ℕ} (hP : P.natDegree ≤ b + k) (hQ : Q.natDegree ≤ a + k)
    (hab : 0 < a + b) (hi : k < i) : subresultantEntry P Q a b k i = 0 := by
  have hlast : ∀ r, exchangedTable P Q a b k i r (a + b - 1) = (blockRow P Q a b r).coeff i :=
    fun r => by rw [exchangedTable, if_neg (by omega)]
  by_cases hcol : i < a + b + k
  · refine Matrix.det_zero_of_column_eq (i := (⟨a + b + k - 1 - i, by omega⟩ : Fin (a + b)))
      (j := ⟨a + b - 1, by omega⟩) (by simp only [ne_eq, Fin.mk.injEq]; omega) fun r => ?_
    simp only [Matrix.of_apply, hlast]
    rw [exchangedTable, if_pos (by omega)]
    congr 1
    omega
  · refine Matrix.det_eq_zero_of_column_eq_zero (⟨a + b - 1, by omega⟩ : Fin (a + b)) fun r => ?_
    simp only [Matrix.of_apply, hlast]
    have := natDegree_blockRow_lt hP hQ r.isLt
    exact coeff_eq_zero_of_natDegree_lt (by omega)

/-- The expansion at the last column has cofactors that do not depend on the power there. -/
theorem exists_cofactors (P Q : R[X]) (k : ℕ) (hab : 0 < a + b) :
    ∃ w : ℕ → R, ∀ i, subresultantEntry P Q a b k i =
      (∑ r ∈ Finset.range (a + b), C (w r) * blockRow P Q a b r).coeff i := by
  obtain ⟨n, hn⟩ : ∃ n, a + b = n + 1 := ⟨a + b - 1, by omega⟩
  refine ⟨fun r => (-1) ^ (r + n) * leadingMinor (fun r' c => (blockRow P Q a b
    (if r' < r then r' else r' + 1)).coeff (a + b + k - 1 - c)) n, fun i => ?_⟩
  rw [subresultantEntry, hn, leadingMinor, minor, Matrix.det_succ_column _ (Fin.last n),
    Polynomial.finsetSum_coeff, Finset.sum_range]
  refine Finset.sum_congr rfl fun r _ => ?_
  have hlast : exchangedTable P Q a b k i r n = (blockRow P Q a b r).coeff i := by
    rw [exchangedTable, if_neg (by omega)]
  rw [coeff_C_mul, Matrix.of_apply, Fin.val_last, hlast, mul_right_comm]
  congr 2
  rw [leadingMinor, minor]
  congr 1
  ext r' c
  simp only [Matrix.submatrix_apply, Matrix.of_apply, exchangedTable, Fin.succAbove_last,
    Fin.val_castSucc, hn]
  rw [if_pos (Nat.succ_lt_succ c.isLt), Fin.succAbove]
  simp only [Fin.lt_def, Fin.val_castSucc]
  split_ifs <;> rfl

/-- The subresultant polynomial of index `k`. -/
def subresultantPoly (P Q : R[X]) (a b k : ℕ) : R[X] :=
  ∑ i ∈ Finset.range (k + 1), C (subresultantEntry P Q a b k i) * X ^ i

theorem natDegree_subresultantPoly_le (P Q : R[X]) (a b k : ℕ) :
    (subresultantPoly P Q a b k).natDegree ≤ k := by
  rw [natDegree_le_iff_coeff_eq_zero]
  intro i hi
  simp [subresultantPoly, coeff_X_pow, hi.not_ge]

theorem coeff_subresultantPoly {k i : ℕ} (hi : i ≤ k) :
    (subresultantPoly P Q a b k).coeff i = subresultantEntry P Q a b k i := by
  simp [subresultantPoly, coeff_X_pow, Nat.lt_succ_of_le hi]

theorem subresultantPoly_map {S : Type*} [CommRing S] (f : R →+* S) (k : ℕ) :
    subresultantPoly (P.map f) (Q.map f) a b k = (subresultantPoly P Q a b k).map f := by
  have hentry : ∀ i, subresultantEntry (P.map f) (Q.map f) a b k i =
      f (subresultantEntry P Q a b k i) := fun i => by
    rw [subresultantEntry, subresultantEntry, map_leadingMinor]
    congr 1
    ext r c
    rw [exchangedTable, exchangedTable, blockRow_map, coeff_map]
  simp [subresultantPoly, hentry, Polynomial.map_sum]

/-- It is a combination of the two polynomials, with few powers of the variable. -/
theorem exists_subresultantPoly_eq {k : ℕ} (hP : P.natDegree ≤ b + k) (hQ : Q.natDegree ≤ a + k)
    (hab : 0 < a + b) : ∃ U W : R[X], U.degree < a ∧ W.degree < b ∧
      subresultantPoly P Q a b k = U * P + W * Q := by
  obtain ⟨w, hw⟩ := exists_cofactors P Q k hab
  refine ⟨descending w a, descending (fun r => w (a + r)) b, degree_descending_lt _ a,
    degree_descending_lt _ b, ?_⟩
  rw [← sum_blockRow]
  ext i
  rw [← hw]
  by_cases hi : i ≤ k
  · exact coeff_subresultantPoly hi
  · rw [subresultantEntry_of_lt hP hQ hab (not_le.1 hi)]
    have := natDegree_subresultantPoly_le P Q a b k
    exact coeff_eq_zero_of_natDegree_lt (by omega)

end

/-! ## Common divisors -/

section

variable {R : Type*} [CommRing R] [IsDomain R] {G P Q : R[X]} {a b j : ℕ}

/-- Below the degree of a common divisor all coefficients vanish. -/
theorem pscDet_eq_zero_of_lt (hP : P.natDegree = b + j) (hQ : Q.natDegree = a + j) (hP0 : P ≠ 0)
    (hGP : G ∣ P) (hGQ : G ∣ Q) (hj : j < G.natDegree) : pscDet P Q a b j = 0 := by
  have hdegree := natDegree_le_of_dvd hGP hP0
  obtain ⟨U, W, -, -, hS⟩ := exists_subresultantPoly_eq hP.le hQ.le (by omega)
  have hdvd : G ∣ subresultantPoly P Q a b j := hS ▸ (hGP.mul_left U).add (hGQ.mul_left W)
  have hzero : subresultantPoly P Q a b j = 0 :=
    eq_zero_of_dvd_of_natDegree_lt hdvd ((natDegree_subresultantPoly_le P Q a b j).trans_lt hj)
  rw [← subresultantEntry_self, ← coeff_subresultantPoly le_rfl, hzero, coeff_zero]

variable [UniqueFactorizationMonoid R]

/-- At the degree of a common divisor with coprime cofactors the coefficient does not vanish. -/
theorem pscDet_ne_zero (hP : (G * P).natDegree = b + j) (hQ : (G * Q).natDegree = a + j)
    (hP0 : G * P ≠ 0) (hrel : IsRelPrime P Q) (hj : G.natDegree = j) :
    pscDet (G * P) (G * Q) a b j ≠ 0 := by
  intro h0
  obtain ⟨x, hx0, hx⟩ := Matrix.exists_vecMul_eq_zero_iff.2 h0
  set w : ℕ → R := fun r => if h : r < a + b then x ⟨r, h⟩ else 0
  set T := ∑ r ∈ Finset.range (a + b), C (w r) * blockRow (G * P) (G * Q) a b r
  set U := descending w a
  set W := descending (fun r => w (a + r)) b
  have hT : T = G * (U * P + W * Q) := by
    rw [show T = _ from sum_blockRow _ _ a b w]
    ring
  -- the combination of the rows has no powers from `j` on
  have hdegree : T.degree < j := by
    rw [degree_lt_iff_coeff_zero]
    intro i hi
    by_cases hcol : i < a + b + j
    · have hcolumn := congrFun hx ⟨a + b + j - 1 - i, by omega⟩
      rw [Matrix.vecMul, dotProduct] at hcolumn
      rw [Polynomial.finsetSum_coeff, Finset.sum_range]
      refine Eq.trans (Finset.sum_congr rfl fun r _ => ?_) hcolumn
      rw [coeff_C_mul, Matrix.of_apply, blockTable]
      simp only [w, Fin.is_lt, dif_pos]
      congr 2
      omega
    · rw [Polynomial.finsetSum_coeff]
      refine Finset.sum_eq_zero fun r hr => ?_
      have hrow := natDegree_blockRow_lt hP.le hQ.le (Finset.mem_range.1 hr)
      rw [coeff_C_mul, coeff_eq_zero_of_natDegree_lt (by omega), mul_zero]
  have hT0 : T = 0 := by
    refine eq_zero_of_dvd_of_degree_lt (hT ▸ dvd_mul_right G _) (hdegree.trans_le ?_)
    rw [← hj, degree_eq_natDegree (left_ne_zero_of_mul hP0)]
  have hsum : U * P + W * Q = 0 :=
    (mul_eq_zero.1 (hT.symm.trans hT0)).resolve_left (left_ne_zero_of_mul hP0)
  have hP' := right_ne_zero_of_mul hP0
  have hW : W = 0 := by
    have hdvd : P ∣ W := by
      refine hrel.dvd_of_dvd_mul_right ?_
      rw [eq_neg_of_add_eq_zero_right hsum]
      exact (dvd_mul_left P U).neg_right
    refine eq_zero_of_dvd_of_degree_lt hdvd ((degree_descending_lt _ b).trans_le ?_)
    rw [natDegree_mul (left_ne_zero_of_mul hP0) hP'] at hP
    rw [degree_eq_natDegree hP']
    exact Nat.cast_le.2 (by omega)
  have hU : U = 0 := by
    rw [hW, zero_mul, add_zero] at hsum
    exact (mul_eq_zero.1 hsum).resolve_right hP'
  refine hx0 (funext fun r => ?_)
  have hr : w r = x r := dif_pos r.isLt
  rw [Pi.zero_apply, ← hr]
  by_cases hra : r < a
  · have hcoeff := coeff_descending w a (a - 1 - r)
    rw [show descending w a = 0 from hU, coeff_zero, if_pos (by omega),
      show a - 1 - (a - 1 - r) = (r : ℕ) by omega] at hcoeff
    exact hcoeff.symm
  · have hcoeff := coeff_descending (fun r => w (a + r)) b (a + b - 1 - r)
    rw [show descending _ b = 0 from hW, coeff_zero, if_pos (by omega),
      show a + (b - 1 - (a + b - 1 - r)) = (r : ℕ) by omega] at hcoeff
    exact hcoeff.symm

/-- The subresultant at that degree is the common divisor up to a coefficient. -/
theorem exists_subresultantPoly_eq_mul (hP : (G * P).natDegree = b + j)
    (hQ : (G * Q).natDegree = a + j) (hP0 : G * P ≠ 0) (hrel : IsRelPrime P Q)
    (hj : G.natDegree = j) (hab : 0 < a + b) :
    ∃ t, t ≠ 0 ∧ subresultantPoly (G * P) (G * Q) a b j = G * C t := by
  have hcoeff : (subresultantPoly (G * P) (G * Q) a b j).coeff j ≠ 0 := by
    rw [coeff_subresultantPoly le_rfl, subresultantEntry_self]
    exact pscDet_ne_zero hP hQ hP0 hrel hj
  have hS0 : subresultantPoly (G * P) (G * Q) a b j ≠ 0 := fun h0 => hcoeff (by rw [h0, coeff_zero])
  obtain ⟨U, W, -, -, hS⟩ := exists_subresultantPoly_eq hP.le hQ.le hab
  have hdvd : G ∣ subresultantPoly (G * P) (G * Q) a b j :=
    hS ▸ ((dvd_mul_right G P).mul_left U).add ((dvd_mul_right G Q).mul_left W)
  obtain ⟨T, hT⟩ := hdvd
  rw [hT] at hS0
  have hdegree := natDegree_subresultantPoly_le (G * P) (G * Q) a b j
  rw [hT, natDegree_mul (left_ne_zero_of_mul hS0) (right_ne_zero_of_mul hS0)] at hdegree
  have hconst := eq_C_of_natDegree_eq_zero (show T.natDegree = 0 by omega)
  refine ⟨T.coeff 0, fun h0 => right_ne_zero_of_mul hS0 ?_, hconst ▸ hT⟩
  rw [hconst, h0, C_0]

end

end Cylindrical

end
