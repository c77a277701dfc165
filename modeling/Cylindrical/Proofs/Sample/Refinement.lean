import Mathlib
import Cylindrical.Proofs.Sample.Denotation
import Cylindrical.Proofs.Univariate.Isolation

/-!
# Refinement of isolating intervals

A refinement keeps the part of the interval with the root: the sign that is compared was taken at the
first lower end, and no lower end since then is on the other side of the root.  It leaves at most three
quarters of the width (`RefinedBy.refine`), whatever root the midpoint is, and so `n` refinements leave
at most `(3 / 4) ^ n` of it (`refinedBy_iterate`).  The loop that refines to a width is therefore the
first iterate that is narrow enough, within the steps that are allowed for (`refineTo_eq_iterate`).
-/

noncomputable section

namespace Cylindrical

namespace AlgebraicNumber

variable {a b c : AlgebraicNumber} {ξ : ℝ} {m n : ℕ}

@[simp] theorem leftSign_refine (a : AlgebraicNumber) : a.refine.leftSign = a.leftSign := by
  simp only [refine]
  split_ifs <;> rfl

/-- What `n` refinements of `a` give: the same root in a part of the interval, with everything but the
interval as it was. -/
structure RefinedBy (ξ : ℝ) (n : ℕ) (a b : AlgebraicNumber) : Prop where
  isolates : b.Isolates ξ
  defining : b.defining = a.defining
  isolator : b.isolator = a.isolator
  leftSign : b.leftSign = a.leftSign
  lo_le : a.span.lo ≤ b.span.lo
  hi_le : b.span.hi ≤ a.span.hi
  width_le : b.span.width ≤ (3 / 4) ^ n * a.span.width

namespace RefinedBy

theorem refl (h : a.Isolates ξ) : RefinedBy ξ 0 a a :=
  ⟨h, rfl, rfl, rfl, le_rfl, le_rfl, by rw [pow_zero, one_mul]⟩

theorem trans (h : RefinedBy ξ m a b) (h' : RefinedBy ξ n b c) : RefinedBy ξ (n + m) a c where
  isolates := h'.isolates
  defining := h'.defining.trans h.defining
  isolator := h'.isolator.trans h.isolator
  leftSign := h'.leftSign.trans h.leftSign
  lo_le := h.lo_le.trans h'.lo_le
  hi_le := h'.hi_le.trans h.hi_le
  width_le := by
    calc c.span.width ≤ (3 / 4) ^ n * b.span.width := h'.width_le
      _ ≤ (3 / 4) ^ n * ((3 / 4) ^ m * a.span.width) :=
        mul_le_mul_of_nonneg_left h.width_le (by positivity)
      _ = (3 / 4) ^ (n + m) * a.span.width := by rw [pow_add, mul_assoc]

theorem refine (h : a.Isolates ξ) : RefinedBy ξ 1 a a.refine where
  isolates := h.refine
  defining := defining_refine a
  isolator := isolator_refine a
  leftSign := leftSign_refine a
  lo_le := h.span_refine.1
  hi_le := h.span_refine.2
  width_le := by
    rw [pow_one]
    exact h.width_refine

end RefinedBy

theorem refinedBy_iterate (h : a.Isolates ξ) (n : ℕ) : RefinedBy ξ n a (refine^[n] a) := by
  induction n with
  | zero => exact .refl h
  | succ n ih =>
    rw [Function.iterate_succ_apply', Nat.add_comm]
    exact ih.trans (.refine ih.isolates)

/-! ## Refining to a width -/

/-- The bounded loop stops at the first iterate that is narrow enough, unless it runs out of steps. -/
theorem refineWhileWider_eq_iterate (w : ℚ) (steps : ℕ) (a : AlgebraicNumber) :
    ∃ n ≤ steps, refineWhileWider w steps a = refine^[n] a ∧
      (∀ k < n, w < (refine^[k] a).span.width) ∧ (n < steps → (refine^[n] a).span.width ≤ w) := by
  induction steps generalizing a with
  | zero => exact ⟨0, le_rfl, rfl, by simp, by simp⟩
  | succ steps ih =>
    rw [refineWhileWider]
    split_ifs with hwide
    · obtain ⟨n, hn, heq, hbefore, hnarrow⟩ := ih a.refine
      refine ⟨n + 1, by omega, heq, fun k hk => ?_, fun hlt => hnarrow (by omega)⟩
      cases k with
      | zero => exact hwide
      | succ k => exact hbefore k (by omega)
    · exact ⟨0, Nat.zero_le _, rfl, by simp, fun _ => not_lt.1 hwide⟩

theorem twoPow_eq_pow (k : ℕ) : twoPow k = 2 ^ k := by simp [twoPow]

/-- Three refinements halve the width, and a power of two bounds the width at the start. -/
theorem pow_refineSteps_le (bits : ℕ) (w : ℚ) :
    (3 / 4 : ℚ) ^ refineSteps bits w * w ≤ 1 / 2 ^ bits := by
  set k := bitLength w.num.natAbs with hk
  have hpow : (3 / 4 : ℚ) ^ refineSteps bits w ≤ (2 ^ (bits + k))⁻¹ :=
    Univariate.three_quarters_pow_le le_rfl
  have hle : w ≤ 2 ^ k := by
    have habs : |w| ≤ w.num.natAbs := by
      rw [Univariate.abs_eq_natAbs_div]
      exact div_le_self (Nat.cast_nonneg _) (by exact_mod_cast w.den_pos)
    exact (le_abs_self w).trans (habs.trans (Univariate.natAbs_num_le w))
  calc (3 / 4 : ℚ) ^ refineSteps bits w * w ≤ (3 / 4) ^ refineSteps bits w * 2 ^ k := by gcongr
    _ ≤ (2 ^ (bits + k))⁻¹ * 2 ^ k := by gcongr
    _ = 1 / 2 ^ bits := by
        rw [pow_add]
        field_simp

/-- The steps that are allowed for are enough: refining to a width ends with the first iterate that has
it. -/
theorem refineTo_eq_iterate (h : a.Isolates ξ) (bits : ℕ) :
    ∃ n, a.refineTo bits = refine^[n] a ∧
      (∀ k < n, 1 / 2 ^ bits < (refine^[k] a).span.width) ∧
      (refine^[n] a).span.width ≤ 1 / 2 ^ bits := by
  obtain ⟨n, hn, heq, hbefore, hnarrow⟩ :=
    refineWhileWider_eq_iterate (1 / 2 ^ bits) (refineSteps bits a.span.width) a
  refine ⟨n, by rw [refineTo, twoPow_eq_pow, heq], hbefore, ?_⟩
  rcases hn.lt_or_eq with hlt | rfl
  · exact hnarrow hlt
  · exact (refinedBy_iterate h _).width_le.trans (pow_refineSteps_le bits _)

/-- Refinement keeps the root: what is left of an isolating interval isolates the same root, with the
isolator and the sign at the left as they were, and each refinement leaves at most three quarters of the
width, also if the search for its split point passes roots at the midpoint and above it.  So refining to
a width ends. -/
theorem refinement_keeps_root (h : a.Isolates ξ) :
    (∀ n, RefinedBy ξ n a (refine^[n] a) ∧ RefinedBy ξ 1 (refine^[n] a) (refine^[n + 1] a) ∧
      ∃ k, Univariate.splitPoint a.isolator (refine^[n] a).span.lo (refine^[n] a).span.hi =
          Univariate.splitCandidate (refine^[n] a).span.lo (refine^[n] a).span.hi k ∧
        ¬(Univariate.toPolynomial a.isolator).IsRoot
          (Univariate.splitCandidate (refine^[n] a).span.lo (refine^[n] a).span.hi k) ∧
        ∀ i < k, (Univariate.toPolynomial a.isolator).IsRoot
          (Univariate.splitCandidate (refine^[n] a).span.lo (refine^[n] a).span.hi i)) ∧
    ∀ bits, ∃ n, a.refineTo bits = refine^[n] a ∧
      (∀ k < n, 1 / 2 ^ bits < (refine^[k] a).span.width) ∧
      (a.refineTo bits).span.width ≤ 1 / 2 ^ bits := by
  refine ⟨fun n => ?_, fun bits => ?_⟩
  · have hn := refinedBy_iterate h n
    obtain ⟨k, -, hsearch⟩ :=
      Univariate.splitPoint_search h.toPolynomial_ne_zero hn.isolates.lo_lt_hi
    refine ⟨hn, ?_, k, hsearch⟩
    rw [Function.iterate_succ_apply']
    exact .refine hn.isolates
  · obtain ⟨n, heq, hbefore, hnarrow⟩ := refineTo_eq_iterate h bits
    exact ⟨n, heq, hbefore, heq ▸ hnarrow⟩

/-- Zero as the root of `x` between minus one and one: the midpoint is the root. -/
def zeroAtMidpoint : AlgebraicNumber := .ofRoot (.var 0) [0, 1] ⟨-1, 1⟩

theorem isolates_zeroAtMidpoint : zeroAtMidpoint.Isolates 0 where
  squarefree := by
    have hpoly : Univariate.toPolynomial zeroAtMidpoint.isolator = Polynomial.X := by
      simp [zeroAtMidpoint, ofRoot]
    rw [hpoly]
    exact Polynomial.irreducible_X.squarefree
  lo_lt := by simp [zeroAtMidpoint, ofRoot]
  lt_hi := by simp [zeroAtMidpoint, ofRoot]
  isRoot := by simp [zeroAtMidpoint, ofRoot, Univariate.toReal]
  unique y _ _ hy := by simpa [zeroAtMidpoint, ofRoot, Univariate.toReal] using hy
  leftSign := rfl

theorem refinement_keeps_root_zeroAtMidpoint :
    zeroAtMidpoint.Isolates 0 ∧ zeroAtMidpoint.refine.span = ⟨-1, 1 / 2⟩ ∧
      RefinedBy 0 1 zeroAtMidpoint zeroAtMidpoint.refine ∧
      (zeroAtMidpoint.refineTo 2).span.width ≤ 1 / 4 := by
  obtain ⟨hsteps, hwidths⟩ := refinement_keeps_root isolates_zeroAtMidpoint
  obtain ⟨-, -, -, hwidth⟩ := hwidths 2
  refine ⟨isolates_zeroAtMidpoint, by decide +kernel, (hsteps 1).1, ?_⟩
  norm_num at hwidth ⊢
  exact hwidth

end AlgebraicNumber

end Cylindrical

end
