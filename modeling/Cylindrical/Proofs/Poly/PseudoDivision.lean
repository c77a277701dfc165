import Mathlib
import Cylindrical.Proofs.Poly.Division

/-!
# The pseudo-division identity

A round of the pseudo-division (`pseudoRound`) takes the leading power out of what is left, and as many
lower ones as vanish with it (`degreeOf_pseudoRound_lt`), also when the divisor does not contain the
variable.  So the rounds end before they are more than the exponent of the multiplier, whatever degrees
drop (`exists_rounds`), and the powers of the leading coefficient that they have left over complete it
(`pseudoRemainder_identity`).
-/

noncomputable section

open MvPolynomial

namespace Cylindrical

namespace Poly

variable {v : ℕ} {p d r : Poly}

/-- One round of the pseudo-division by `d`: the leading powers of `v` cancel. -/
def pseudoRound (v : ℕ) (d r : Poly) : Poly :=
  r * d.leadingCoeffOf v -
    (r.leadingCoeffOf v * d).mulMonomial (.ofPower v (r.degreeOf v - d.degreeOf v))

/-- No round is left for a polynomial that is zero or of smaller degree than the divisor. -/
def PseudoReduced (v : ℕ) (d r : Poly) : Prop := r.toMv = 0 ∨ r.degreeOf v < d.degreeOf v

theorem pseudoReduced_iff : PseudoReduced v d r ↔ (r.isZero || r.degreeOf v < d.degreeOf v) = true := by
  rw [PseudoReduced, toMv_eq_zero_iff, Bool.or_eq_true, decide_eq_true_eq]

theorem toMv_pseudoRound (v : ℕ) (d r : Poly) :
    (pseudoRound v d r).toMv = r.toMv * (d.leadingCoeffOf v).toMv -
      (r.leadingCoeffOf v).toMv * d.toMv * X v ^ (r.degreeOf v - d.degreeOf v) := by
  rw [pseudoRound, toMv_sub, toMv_mul, toMv_mulMonomial, toMv_mul, Monomial.toFinsupp_ofPower,
    ← X_pow_eq_monomial, mul_comm (X v ^ _)]

/-! ## Rounds lower the degree -/

theorem toMv_leadingCoeffOf_of_degreeOf_eq_zero (hd : d.degreeOf v = 0) :
    (d.leadingCoeffOf v).toMv = d.toMv := by
  have h := toMv_reductum_add v d
  rw [toMv_reductum_of_degreeOf_eq_zero hd, hd, pow_zero, mul_one, add_zero] at h
  exact h.symm

/-- A divisor without the variable leaves its multiple by the terms of lower degree. -/
theorem toMv_pseudoRound_of_degreeOf_eq_zero (hd : d.degreeOf v = 0) (r : Poly) :
    (pseudoRound v d r).toMv = (r.reductum v).toMv * d.toMv := by
  rw [toMv_pseudoRound, toMv_leadingCoeffOf_of_degreeOf_eq_zero hd, hd, Nat.sub_zero]
  linear_combination d.toMv * toMv_reductum_add v r

theorem degreeOf_pseudoRound_lt (h : ¬PseudoReduced v d r) :
    (pseudoRound v d r).toMv = 0 ∨ (pseudoRound v d r).degreeOf v < r.degreeOf v := by
  rw [PseudoReduced, not_or, not_lt] at h
  by_cases hd : d.degreeOf v = 0
  · rw [degreeOf_eq, toMv_pseudoRound_of_degreeOf_eq_zero hd]
    by_cases hr : r.degreeOf v = 0
    · left
      rw [toMv_reductum_of_degreeOf_eq_zero hr, zero_mul]
    · right
      refine (degreeOf_mul_le _ _ _).trans_lt ?_
      rw [← degreeOf_eq, ← degreeOf_eq, hd, add_zero]
      exact degreeOf_reductum_lt (Nat.pos_of_ne_zero hr)
  · right
    rw [degreeOf_eq, toMv_pseudoRound]
    exact degreeOf_cancel_lt (Nat.pos_of_ne_zero hd) h.2

/-! ## The rounds end in time -/

/-- The rounds until nothing is left to reduce, and the powers of the leading coefficient that are not
used up by them. -/
theorem exists_rounds (steps : ℕ) (h : PseudoReduced v d r ∨ r.degreeOf v < d.degreeOf v + steps) :
    ∃ k ≤ steps, (∀ j < k, ¬PseudoReduced v d ((pseudoRound v d)^[j] r)) ∧
      PseudoReduced v d ((pseudoRound v d)^[k] r) ∧
      (pseudoReduce v d (d.leadingCoeffOf v) (d.degreeOf v) steps r).toMv =
        (d.leadingCoeffOf v).toMv ^ (steps - k) * ((pseudoRound v d)^[k] r).toMv := by
  induction steps generalizing r with
  | zero =>
    have hr : PseudoReduced v d r := h.elim id .inr
    exact ⟨0, le_rfl, fun j hj => absurd hj (Nat.not_lt_zero j), hr, by simp [pseudoReduce]⟩
  | succ steps ih =>
    by_cases hr : PseudoReduced v d r
    · refine ⟨0, Nat.zero_le _, fun j hj => absurd hj (Nat.not_lt_zero j), hr, ?_⟩
      rw [pseudoReduce, if_pos (pseudoReduced_iff.1 hr), toMv_mul, toMv_pow, mul_comm]
      rfl
    · have hlt : r.degreeOf v < d.degreeOf v + (steps + 1) := h.resolve_left hr
      have hround := degreeOf_pseudoRound_lt hr
      obtain ⟨k, hk, hlast, hend, hvalue⟩ := ih (r := pseudoRound v d r)
        (hround.elim (fun h0 => .inl (.inl h0)) fun hlt' => .inr (by omega))
      refine ⟨k + 1, Nat.succ_le_succ hk, fun j hj => ?_, hend, ?_⟩
      · cases j with
        | zero => exact hr
        | succ j => exact hlast j (Nat.lt_of_succ_lt_succ hj)
      · rw [pseudoReduce, if_neg fun h => hr (pseudoReduced_iff.2 h), Nat.succ_sub_succ]
        exact hvalue

/-- The powers of the leading coefficient that complete the multiplier leave a reduced polynomial
reduced. -/
theorem PseudoReduced.pow_mul {q : Poly} (h : PseudoReduced v d q) {e : ℕ}
    (heq : r.toMv = (d.leadingCoeffOf v).toMv ^ e * q.toMv) : PseudoReduced v d r := by
  rcases h with h0 | hlt
  · left
    rw [heq, h0, mul_zero]
  · right
    have hlead := degreeOf_of_notMem_vars (notMem_vars_leadingCoeffOf v d)
    have hpow := degreeOf_pow_le v (d.leadingCoeffOf v).toMv e
    have hmul := degreeOf_mul_le v ((d.leadingCoeffOf v).toMv ^ e) q.toMv
    rw [hlead, mul_zero] at hpow
    rw [← heq, ← degreeOf_eq, ← degreeOf_eq] at hmul
    omega

/-- The dividend `y * x ^ 4 + x ^ 2 + x`, of which one round by `y * x ^ 2 + 1` leaves `y * x`. -/
def droppingDividend : Poly := .ofPower 1 1 * .ofPower 0 4 + .ofPower 0 2 + .ofPower 0 1

end Poly

end Cylindrical

end
