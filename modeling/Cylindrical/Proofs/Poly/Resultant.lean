import Mathlib
import Cylindrical.Proofs.Poly.SubresultantMatrix

/-!
# Resultants as products over roots

The principal subresultant coefficient of index zero is the determinant of the transposed Sylvester
matrix in reversed order, with the same sign.  Where the first polynomial splits it is therefore a
product of values at its roots, and the one with the derivative is a product of the squared
differences of the roots.
-/

noncomputable section

open Polynomial

namespace Cylindrical

section

variable {R : Type*} [CommRing R] {P Q : R[X]} {a b : ℕ}

/-- The index of the reversed order of `a + b` rows. -/
def reverseIndex (a b : ℕ) : Fin (a + b) ≃ Fin (b + a) :=
  Fin.revPerm.trans (finCongr (Nat.add_comm a b))

theorem val_reverseIndex (i : Fin (a + b)) : (reverseIndex a b i : ℕ) = a + b - 1 - i := by
  simp [reverseIndex, Fin.val_rev]
  omega

/-- The coefficients of the rows stand in the columns of the Sylvester matrix. -/
theorem blockTable_eq_sylvester (hP : P.natDegree ≤ b) (hQ : Q.natDegree ≤ a) (i c : Fin (a + b)) :
    blockTable P Q a b 0 i c = sylvester P Q b a (reverseIndex a b c) (reverseIndex a b i) := by
  have hc := val_reverseIndex c
  have hi := val_reverseIndex i
  have hcoeff : ∀ {F : R[X]} {d k : ℕ}, F.natDegree ≤ d → ∀ n, (X ^ k * F).coeff n =
      if n ∈ Set.Icc k (k + d) then F.coeff (n - k) else 0 := fun {F d k} hF n => by
    rw [coeff_X_pow_mul']
    by_cases hk : k ≤ n
    · by_cases hn : n ≤ k + d
      · rw [if_pos hk, if_pos ⟨hk, hn⟩]
      · rw [if_pos hk, if_neg fun h => hn h.2]
        exact coeff_eq_zero_of_natDegree_lt (by omega)
    · rw [if_neg hk, if_neg fun h => hk h.1]
  rw [sylvester, Matrix.of_apply, blockTable, blockRow, add_zero]
  generalize reverseIndex a b c = c' at hc ⊢
  generalize reverseIndex a b i = i' at hi ⊢
  have := i.isLt
  induction i' using Fin.addCases with
  | left k =>
    rw [Fin.val_castAdd] at hi
    have := k.isLt
    rw [Fin.addCases_left, if_neg (by omega), ← hi, ← hc]
    exact hcoeff hQ _
  | right k =>
    rw [Fin.val_natAdd] at hi
    rw [Fin.addCases_right, if_pos (by omega), show a - 1 - (i : ℕ) = k by omega, ← hc]
    exact hcoeff hP _

/-- The principal subresultant coefficient of index zero is the resultant. -/
theorem pscDet_zero_eq_resultant (hP : P.natDegree ≤ b) (hQ : Q.natDegree ≤ a) :
    pscDet P Q a b 0 = resultant P Q b a := by
  rw [pscDet, leadingMinor, minor, resultant, ← Matrix.det_transpose,
    ← Matrix.det_submatrix_equiv_self (reverseIndex a b) (sylvester P Q b a)]
  congr 1
  ext i c
  rw [Matrix.transpose_apply, Matrix.of_apply, Matrix.submatrix_apply]
  exact blockTable_eq_sylvester hP hQ c i

end

/-! ## Squared differences of the roots -/

/-- The pairs of distinct indices, each with the sign that makes a difference a square. -/
theorem prod_differences {K : Type*} [CommRing K] {m : ℕ} (r : Fin m → K) :
    ∏ i, ∏ j ∈ Finset.univ.erase i, (r i - r j) =
      (-1) ^ (m * (m - 1) / 2) * ∏ i, ∏ j ∈ Finset.Ioi i, (r i - r j) ^ 2 := by
  have hcount : ∑ i : Fin m, (Finset.Ioi i).card = m * (m - 1) / 2 := by
    simp only [Fin.card_Ioi]
    rw [Fin.sum_univ_eq_sum_range (fun i => m - 1 - i), Finset.sum_range_reflect (fun i => i),
      Finset.sum_range_id]
  calc ∏ i, ∏ j ∈ Finset.univ.erase i, (r i - r j)
      = ∏ i, ∏ j ∈ Finset.Ioi i, (r j - r i) * (r i - r j) := by
        rw [Finset.prod_prod_Ioi_mul_eq_prod_prod_off_diag fun i j => r i - r j, Finset.prod_comm']
        simp [eq_comm]
    _ = ∏ i, ∏ j ∈ Finset.Ioi i, -1 * (r i - r j) ^ 2 := by
        refine Finset.prod_congr rfl fun i _ => Finset.prod_congr rfl fun j _ => ?_
        ring
    _ = _ := by
        simp_rw [Finset.prod_mul_distrib, Finset.prod_const, Finset.prod_pow_eq_pow_sum, hcount]

section

variable {K : Type*} [Field K] {P : K[X]} {m : ℕ} {r : Fin m → K}

theorem splits_of_roots (hm : P.natDegree = m) (hr : P.roots = Finset.univ.val.map r) :
    P.Splits := by
  rw [splits_iff_card_roots, hr, hm, Multiset.card_map, Finset.card_val, Finset.card_univ,
    Fintype.card_fin]

/-- At a root, the derivative is the product of the differences to the other roots. -/
theorem eval_derivative_of_roots (hm : P.natDegree = m) (hr : P.roots = Finset.univ.val.map r)
    (i : Fin m) : P.derivative.eval (r i) =
      P.leadingCoeff * ∏ j ∈ Finset.univ.erase i, (r i - r j) := by
  have hP : P = C P.leadingCoeff * ∏ j, (X - C (r j)) := by
    conv_lhs => rw [(splits_of_roots hm hr).eq_prod_roots, hr, Multiset.map_map]
    rfl
  conv_lhs => rw [hP, derivative_C_mul, derivative_prod_finset, eval_C_mul, eval_finsetSum]
  rw [Finset.sum_eq_single i]
  · simp [eval_prod]
  · intro j _ hj
    rw [eval_mul, eval_prod, Finset.prod_eq_zero (i := i) (by simp [hj.symm]) (by simp), zero_mul]
  · intro h
    exact absurd (Finset.mem_univ i) h

/-- The resultant with the derivative is a product of squared differences of roots. -/
theorem resultant_derivative_of_roots (hpos : 0 < m) (hm : P.natDegree = m)
    (hr : P.roots = Finset.univ.val.map r) :
    resultant P P.derivative m (m - 1) = (-1) ^ (m * (m - 1) / 2) * P.leadingCoeff *
      (P.leadingCoeff ^ (2 * m - 2) * ∏ i, ∏ j ∈ Finset.Ioi i, (r i - r j) ^ 2) := by
  have hroots : (P.roots.map P.derivative.eval).prod = ∏ i, P.derivative.eval (r i) := by
    rw [hr, Multiset.map_map]
    rfl
  have hprod := resultant_eq_prod_eval P P.derivative (m - 1) (hm ▸ natDegree_derivative_le P)
    (splits_of_roots hm hr)
  rw [hm, hroots] at hprod
  simp_rw [eval_derivative_of_roots hm hr, Finset.prod_mul_distrib, prod_differences,
    Finset.prod_const, Finset.card_univ, Fintype.card_fin] at hprod
  obtain ⟨k, rfl⟩ := Nat.exists_eq_add_of_le' hpos
  rw [hprod, show 2 * (k + 1) - 2 = k + k by omega, Nat.add_sub_cancel, pow_add, pow_succ]
  ring

end

end Cylindrical

end
