import Mathlib
import Cylindrical.Sign

/-!
# Signs of real numbers

The sign of a real number, and how the operations on signs compute it.
-/

noncomputable section

namespace Cylindrical

namespace Sign

/-- The sign of a real number. -/
def ofReal (y : ℝ) : Sign := if y = 0 then zero else if 0 < y then positive else negative

variable {y : ℝ}

@[simp] theorem ofReal_zero : ofReal 0 = zero := if_pos rfl

theorem ofReal_of_pos (h : 0 < y) : ofReal y = positive := by
  rw [ofReal, if_neg h.ne', if_pos h]

theorem ofReal_of_neg (h : y < 0) : ofReal y = negative := by
  rw [ofReal, if_neg h.ne, if_neg h.not_gt]

theorem ofReal_eq_zero : ofReal y = zero ↔ y = 0 := by
  rw [ofReal]
  split_ifs with h₀ h₁ <;> simp [h₀]

theorem ofReal_eq_negative : ofReal y = negative ↔ y < 0 := by
  rw [ofReal]
  split_ifs with h₀ h₁
  · simp [h₀]
  · simp [h₁.le]
  · simp only [true_iff]
    exact lt_of_le_of_ne (not_lt.1 h₁) h₀

theorem ofReal_cast (r : ℚ) : ofReal r = ofRat r := by
  simp only [ofReal, ofRat, Rat.cast_eq_zero, Rat.cast_pos]

/-! ## Products -/

instance : CommMonoid Sign where
  one := positive
  mul_assoc a b c := by cases a <;> cases b <;> cases c <;> rfl
  mul_comm a b := by cases a <;> cases b <;> rfl
  one_mul a := by cases a <;> rfl
  mul_one a := by cases a <;> rfl

theorem one_eq : (1 : Sign) = positive := rfl

@[simp] theorem zero_mul (s : Sign) : zero * s = zero := rfl

@[simp] theorem mul_zero (s : Sign) : s * zero = zero := by cases s <;> rfl

theorem zero_pow {k : ℕ} (hk : k ≠ 0) : zero ^ k = zero := by
  obtain ⟨k, rfl⟩ := Nat.exists_eq_succ_of_ne_zero hk
  rw [pow_succ, mul_zero]

instance : CommMonoidWithZero Sign where
  zero := zero
  zero_mul := zero_mul
  mul_zero := mul_zero

instance : Nontrivial Sign := ⟨zero, positive, nofun⟩

instance : NoZeroDivisors Sign where
  eq_zero_or_eq_zero_of_mul_eq_zero {a b} h := by
    cases a
    · cases b
      · cases h
      · exact .inr rfl
      · cases h
    · exact .inl rfl
    · cases b
      · cases h
      · exact .inr rfl
      · cases h

theorem pow_eq (s : Sign) (k : ℕ) : s.pow k = s ^ k := by
  induction k with
  | zero => rfl
  | succ k ih =>
    rw [pow_succ, ← ih]
    cases s with
    | zero =>
      rw [mul_zero]
      rfl
    | positive =>
      have hpow : ∀ j, positive.pow j = positive := fun j => by simp [Sign.pow]
      rw [hpow, hpow]
      rfl
    | negative =>
      have heven : ∀ j, negative.pow (2 * j) = positive := fun j => by simp [Sign.pow]
      have hodd : ∀ j, negative.pow (2 * j + 1) = negative := fun j => by
        simp [Sign.pow, Nat.add_mod]
      rcases Nat.even_or_odd' k with ⟨j, rfl | rfl⟩
      · rw [hodd, heven]
        rfl
      · rw [hodd, add_assoc, ← mul_add_one, heven]
        rfl

theorem ofReal_mul (x y : ℝ) : ofReal (x * y) = ofReal x * ofReal y := by
  rcases lt_trichotomy x 0 with hx | rfl | hx
  · rcases lt_trichotomy y 0 with hy | rfl | hy
    · rw [ofReal_of_pos (mul_pos_of_neg_of_neg hx hy), ofReal_of_neg hx, ofReal_of_neg hy]
      rfl
    · rw [MulZeroClass.mul_zero, ofReal_zero, mul_zero]
    · rw [ofReal_of_neg (mul_neg_of_neg_of_pos hx hy), ofReal_of_neg hx, ofReal_of_pos hy]
      rfl
  · rw [MulZeroClass.zero_mul, ofReal_zero, zero_mul]
  · rw [ofReal_of_pos hx]
    change _ = 1 * _
    rw [one_mul]
    rcases lt_trichotomy y 0 with hy | rfl | hy
    · rw [ofReal_of_neg (mul_neg_of_pos_of_neg hx hy), ofReal_of_neg hy]
    · rw [MulZeroClass.mul_zero]
    · rw [ofReal_of_pos (mul_pos hx hy), ofReal_of_pos hy]

theorem ofReal_one : ofReal 1 = 1 := ofReal_of_pos one_pos

/-- The sign of a product is the product of the signs. -/
def ofRealHom : ℝ →* Sign where
  toFun := ofReal
  map_one' := ofReal_one
  map_mul' := ofReal_mul

theorem ofReal_pow (x : ℝ) (k : ℕ) : ofReal (x ^ k) = ofReal x ^ k := map_pow ofRealHom x k

theorem ofReal_prod (xs : List ℝ) : ofReal xs.prod = (xs.map ofReal).prod :=
  map_list_prod ofRealHom xs

theorem ofReal_neg (x : ℝ) : ofReal (-x) = -ofReal x := by
  rcases lt_trichotomy x 0 with hx | rfl | hx
  · rw [ofReal_of_pos (neg_pos.2 hx), ofReal_of_neg hx]
    rfl
  · rw [neg_zero, ofReal_zero]
    rfl
  · rw [ofReal_of_neg (neg_neg_iff_pos.2 hx), ofReal_of_pos hx]
    rfl

theorem ofReal_mul_of_pos {x : ℝ} (hx : 0 < x) (y : ℝ) : ofReal (x * y) = ofReal y := by
  rw [ofReal_mul, ofReal_of_pos hx, ← one_eq, one_mul]

theorem mul_pos_of_ofReal_eq {x : ℝ} (hy : y ≠ 0) (h : ofReal x = ofReal y) : 0 < x * y := by
  rcases lt_or_gt_of_ne hy with hy | hy
  · rw [ofReal_of_neg hy, ofReal_eq_negative] at h
    exact mul_pos_of_neg_of_neg h hy
  · refine mul_pos (not_le.1 fun hx => ?_) hy
    rw [ofReal_of_pos hy] at h
    rcases hx.eq_or_lt with rfl | hx
    · simp at h
    · simp [ofReal_of_neg hx] at h

theorem neg_mul (s t : Sign) : -s * t = -(s * t) := by cases s <;> cases t <;> rfl

end Sign

end Cylindrical

end
