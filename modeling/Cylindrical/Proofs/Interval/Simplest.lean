import Mathlib
import Cylindrical.Interval.Simplest

/-!
# The simplest number in between

Multiples of `1 / scale` become so close, as the scale is doubled, that the one next above the lower
end is below the upper end; as many doublings are enough as the denominator of the width has binary
digits.  A scale is passed over exactly when no multiple lies in between, so the denominator that the
search ends with is the least one (`simplestBetween_isSimplest`).
-/

namespace Cylindrical

variable {lo hi scale x : ℚ}

/-! ## Multiples of a fraction -/

/-- The least multiple of `1 / scale` above `lo`. -/
def nextMultiple (lo scale : ℚ) : ℚ := (((lo * scale).floor : ℚ) + 1) / scale

theorem lt_nextMultiple (hscale : 0 < scale) : lo < nextMultiple lo scale := by
  rw [nextMultiple, lt_div_iff₀ hscale, ← Int.cast_one, ← Int.cast_add]
  exact Rat.lt_floor_add_one _

theorem nextMultiple_le (hscale : 0 < scale) {b : ℤ} (h : lo < b / scale) :
    nextMultiple lo scale ≤ b / scale := by
  have hfloor : (lo * scale).floor + 1 ≤ b := Rat.floor_lt_iff.2 ((lt_div_iff₀ hscale).1 h)
  rw [nextMultiple]
  gcongr
  exact_mod_cast hfloor

theorem nextMultiple_lt (hscale : 0 < scale) (hfine : 1 < (hi - lo) * scale) :
    nextMultiple lo scale < hi := by
  have hfloor := Rat.floor_le (lo * scale)
  rw [nextMultiple, div_lt_iff₀ hscale]
  linarith

/-! ## Doubling the scale -/

/-- Doubling the scale until the next multiple above `lo` is below `hi` ends with that multiple. -/
inductive DoublesTo (lo hi : ℚ) : ℚ → ℚ → Prop
  | found {scale : ℚ} (h : nextMultiple lo scale < hi) : DoublesTo lo hi scale (nextMultiple lo scale)
  | double {scale x : ℚ} (h : hi ≤ nextMultiple lo scale) (rest : DoublesTo lo hi (scale * 2) x) :
      DoublesTo lo hi scale x

theorem doublesTo_binaryFractionBetween {n : ℕ} (hscale : 0 < scale)
    (hfine : 1 < (hi - lo) * (scale * 2 ^ n)) :
    DoublesTo lo hi scale (binaryFractionBetween lo hi n scale) := by
  induction n generalizing scale with
  | zero =>
    rw [pow_zero, mul_one] at hfine
    exact .found (nextMultiple_lt hscale hfine)
  | succ n ih =>
    have hdouble : 0 < scale * 2 := by positivity
    have hrest := ih hdouble (by rwa [mul_assoc scale, ← pow_succ'])
    rw [binaryFractionBetween]
    split_ifs with hbelow
    · exact .found hbelow
    · exact .double (not_lt.1 hbelow) hrest

/-- No multiple for a scale before the last one lies in between. -/
theorem DoublesTo.spec (h : DoublesTo lo hi scale x) (hscale : 0 < scale) :
    (lo < x ∧ x < hi) ∧ ∃ (k : ℕ) (a : ℤ), x = a / (scale * 2 ^ k) ∧
      ∀ j < k, ∀ b : ℤ, lo < b / (scale * 2 ^ j) → hi ≤ b / (scale * 2 ^ j) := by
  induction h with
  | @found scale hbelow =>
    refine ⟨⟨lt_nextMultiple hscale, hbelow⟩, 0, (lo * scale).floor + 1, ?_, by simp⟩
    rw [nextMultiple, pow_zero, mul_one, Int.cast_add, Int.cast_one]
  | @double scale x hnone _ ih =>
    obtain ⟨hbetween, k, a, ha, hk⟩ := ih (by positivity)
    refine ⟨hbetween, k + 1, a, by rw [ha, pow_succ', mul_assoc], fun j hj b hb => ?_⟩
    cases j with
    | zero =>
      rw [pow_zero, mul_one] at hb ⊢
      exact hnone.trans (nextMultiple_le hscale hb)
    | succ j =>
      rw [pow_succ', ← mul_assoc] at hb ⊢
      exact hk j (by omega) b hb

/-- The width is a positive multiple of one over its denominator. -/
theorem one_lt_width_mul (h : lo < hi) : 1 < (hi - lo) * (2 * 2 ^ bitLength (hi - lo).den) := by
  have hpos : 0 < hi - lo := sub_pos.2 h
  have hnum : (1 : ℚ) ≤ (hi - lo) * (hi - lo).den := by
    rw [Rat.mul_den_eq_num]
    exact_mod_cast Rat.num_pos.2 hpos
  have hden : ((hi - lo).den : ℚ) < 2 ^ bitLength (hi - lo).den := by
    exact_mod_cast Nat.lt_log2_self
  have hpow : (0 : ℚ) < 2 ^ bitLength (hi - lo).den := by positivity
  calc (1 : ℚ) ≤ (hi - lo) * (hi - lo).den := hnum
    _ < (hi - lo) * 2 ^ bitLength (hi - lo).den := mul_lt_mul_of_pos_left hden hpos
    _ ≤ (hi - lo) * (2 * 2 ^ bitLength (hi - lo).den) :=
      mul_le_mul_of_nonneg_left (by linarith) hpos.le

/-! ## Integers in between -/

/-- Away from zero, the integer next to the end that is nearer to zero. -/
def innerInteger (lo hi : ℚ) : ℤ := if lo < 0 then hi.ceil - 1 else lo.floor + 1

/-- Every integer between the ends lies at least as far from zero. -/
theorem innerInteger_spec (hzero : ¬(lo < 0 ∧ 0 < hi)) {m : ℤ} (hlo : lo < m) (hhi : (m : ℚ) < hi) :
    (lo < innerInteger lo hi ∧ (innerInteger lo hi : ℚ) < hi) ∧
      (innerInteger lo hi = m ∨ |innerInteger lo hi| < |m|) := by
  rw [innerInteger]
  split_ifs with hneg
  · have hle : m ≤ hi.ceil - 1 := by
      have := Rat.lt_ceil_iff.2 hhi
      omega
    have hceil : hi.ceil ≤ 0 := Rat.ceil_le_iff.2 (by exact_mod_cast not_lt.1 fun h => hzero ⟨hneg, h⟩)
    refine ⟨⟨hlo.trans_le (by exact_mod_cast hle), Rat.lt_ceil_iff.1 (by omega)⟩, ?_⟩
    rw [abs_of_nonpos (by omega), abs_of_nonpos (by omega)]
    omega
  · have hle : lo.floor + 1 ≤ m := Rat.floor_lt_iff.2 hlo
    have hfloor : 0 ≤ lo.floor := Rat.le_floor_iff.2 (by exact_mod_cast not_lt.1 hneg)
    refine ⟨⟨Rat.floor_lt_iff.1 (by omega), lt_of_le_of_lt (by exact_mod_cast hle) hhi⟩, ?_⟩
    rw [abs_of_nonneg (by omega), abs_of_nonneg (by omega)]
    omega

theorem simplestBetween_eq (lo hi : ℚ) :
    simplestBetween lo hi =
      if lo < 0 ∧ 0 < hi then 0
      else if lo < innerInteger lo hi ∧ (innerInteger lo hi : ℚ) < hi then (innerInteger lo hi : ℚ)
      else binaryFractionBetween lo hi (bitLength (hi - lo).den) 2 := by
  have hinner : (innerInteger lo hi : ℚ) =
      if lo < 0 then (hi.ceil : ℚ) - 1 else (lo.floor : ℚ) + 1 := by
    rw [innerInteger]
    split_ifs <;> push_cast <;> rfl
  rw [simplestBetween, ← hinner]
  simp only [Bool.and_eq_true, decide_eq_true_eq]

/-- An integer between the ends is reason enough to choose an integer that is not farther from zero. -/
theorem simplestBetween_of_integer {m : ℤ} (hlo : lo < m) (hhi : (m : ℚ) < hi) :
    ∃ n : ℤ, simplestBetween lo hi = n ∧ (n = m ∨ |n| < |m|) := by
  rw [simplestBetween_eq]
  split_ifs with hzero hinner
  · refine ⟨0, Int.cast_zero.symm, ?_⟩
    rw [abs_zero, abs_pos]
    exact (eq_or_ne m 0).imp Eq.symm id
  · exact ⟨_, rfl, (innerInteger_spec hzero hlo hhi).2⟩
  · exact absurd (innerInteger_spec hzero hlo hhi).1 hinner

/-- The result is an integer between the ends, or the search for a binary fraction ends with it. -/
theorem simplestBetween_eq_or_doublesTo (h : lo < hi) :
    (∃ n : ℤ, simplestBetween lo hi = n ∧ lo < n ∧ (n : ℚ) < hi) ∨
      DoublesTo lo hi 2 (simplestBetween lo hi) := by
  rw [simplestBetween_eq]
  split_ifs with hzero hinner
  · exact .inl ⟨0, Int.cast_zero.symm, by rwa [Int.cast_zero]⟩
  · exact .inl ⟨_, rfl, hinner⟩
  · exact .inr (doublesTo_binaryFractionBetween two_pos (one_lt_width_mul h))

/-! ## The simplest number -/

/-- The result is strictly between the ends. -/
theorem simplestBetween_spec (h : lo < hi) :
    lo < simplestBetween lo hi ∧ simplestBetween lo hi < hi := by
  rcases simplestBetween_eq_or_doublesTo h with ⟨n, heq, hbetween⟩ | hdoubles
  · rwa [heq]
  · exact (hdoubles.spec two_pos).1

/-- A number strictly between the ends that no other one there is simpler than: the integer of least
absolute value, or else a fraction with the least power of two as its denominator. -/
structure IsSimplestBetween (lo hi x : ℚ) : Prop where
  lo_lt : lo < x
  lt_hi : x < hi
  integer : ∀ m : ℤ, lo < m → (m : ℚ) < hi → ∃ n : ℤ, x = n ∧ (n = m ∨ |n| < |m|)
  dyadic : ∃ k : ℕ, x.den = 2 ^ k ∧ ∀ j < k, ∀ b : ℤ, lo < b / 2 ^ j → hi ≤ b / 2 ^ j

/-- A fraction that could be reduced would lie among those with a smaller denominator. -/
theorem den_eq_two_pow {k : ℕ} {a : ℤ} (hx : x = a / 2 ^ k) (hlo : lo < x) (hhi : x < hi)
    (hleast : ∀ j < k, ∀ b : ℤ, lo < b / 2 ^ j → hi ≤ b / 2 ^ j) : x.den = 2 ^ k := by
  have hodd : k = 0 ∨ Odd a := by
    by_contra hnot
    rw [not_or, Int.not_odd_iff_even] at hnot
    obtain ⟨hk, b, rfl⟩ := hnot
    obtain ⟨j, rfl⟩ := Nat.exists_eq_succ_of_ne_zero hk
    have hb : x = b / 2 ^ j := by
      rw [hx, pow_succ]
      push_cast
      field_simp
      ring
    exact (hleast j (Nat.lt_succ_self j) b (hb ▸ hlo)).not_gt (hb ▸ hhi)
  have hcoprime : a.natAbs.Coprime ((2 : ℤ) ^ k).natAbs := by
    rw [Int.natAbs_pow]
    rcases hodd with rfl | hodd
    · exact Nat.coprime_one_right _
    · exact (Nat.coprime_two_right.2 (Int.natAbs_odd.2 hodd)).pow_right k
  have hden := Rat.den_div_eq_of_coprime (pow_pos two_pos k) hcoprime
  rw [hx]
  exact_mod_cast hden

/-- The result is the simplest number between the ends, and where there is no integer the doubling of
the scale ends with it. -/
theorem simplestBetween_isSimplest (h : lo < hi) :
    IsSimplestBetween lo hi (simplestBetween lo hi) ∧
      ((∀ m : ℤ, lo < m → hi ≤ m) → DoublesTo lo hi 2 (simplestBetween lo hi)) := by
  obtain ⟨hlo, hhi⟩ := simplestBetween_spec h
  have hinteger : ∀ m : ℤ, lo < m → (m : ℚ) < hi → _ := fun m => simplestBetween_of_integer
  rcases simplestBetween_eq_or_doublesTo h with ⟨n, heq, hbetween⟩ | hdoubles
  · refine ⟨⟨hlo, hhi, hinteger, 0, by rw [heq, Rat.den_intCast, pow_zero], by simp⟩, fun hnone => ?_⟩
    exact absurd hbetween.2 (hnone n hbetween.1).not_gt
  · refine ⟨⟨hlo, hhi, hinteger, ?_⟩, fun _ => hdoubles⟩
    by_cases hint : ∃ m : ℤ, lo < m ∧ (m : ℚ) < hi
    · obtain ⟨m, hm⟩ := hint
      obtain ⟨n, heq, -⟩ := hinteger m hm.1 hm.2
      exact ⟨0, by rw [heq, Rat.den_intCast, pow_zero], by simp⟩
    · push Not at hint
      -- the scale starts at two, as no integer lies in between
      obtain ⟨-, k, a, ha, hk⟩ := hdoubles.spec two_pos
      have hleast : ∀ j < k + 1, ∀ b : ℤ, lo < b / 2 ^ j → hi ≤ b / 2 ^ j := fun j hj b hb => by
        cases j with
        | zero =>
          rw [pow_zero, div_one] at hb ⊢
          exact hint b hb
        | succ j =>
          rw [pow_succ'] at hb ⊢
          exact hk j (by omega) b hb
      rw [← pow_succ'] at ha
      exact ⟨k + 1, den_eq_two_pow ha hlo hhi hleast, hleast⟩

/-- Between `7 / 5` and `3 / 2` lies no fraction with a denominator below sixteen. -/
theorem simplestBetween_isSimplest_sixteenths : (7 / 5 : ℚ) < 3 / 2 ∧
    simplestBetween (7 / 5) (3 / 2) = 23 / 16 ∧
      IsSimplestBetween (7 / 5) (3 / 2) (simplestBetween (7 / 5) (3 / 2)) ∧
        ((∀ m : ℤ, (7 / 5 : ℚ) < m → (3 / 2 : ℚ) ≤ m) →
          DoublesTo (7 / 5) (3 / 2) 2 (simplestBetween (7 / 5) (3 / 2))) := by
  have hlt : (7 / 5 : ℚ) < 3 / 2 := by norm_num
  exact ⟨hlt, by decide +kernel, simplestBetween_isSimplest hlt⟩

end Cylindrical
