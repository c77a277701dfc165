import Mathlib
import Cylindrical.Proofs.Univariate.Degree

/-!
# Changes of sign

The changes of sign in a list of coefficients are those of the polynomial, so Descartes' rule bounds
the number of positive roots by them (`countP_roots_toReal_le`).  The number is even exactly when the
first and the last sign agree (`even_signVariationsAfter_iff`), and it is at most one when a sign that
has been seen does not change any more (`signVariations_le_one`).
-/

noncomputable section

open Polynomial

namespace Cylindrical

namespace Univariate

variable {s : Ordering} {c : ℚ} {cs : List ℚ}

/-! ## Lists of numbers -/

theorem signVariationsAfter_zero (s : Ordering) (cs : List ℚ) :
    signVariationsAfter s (0 :: cs) = signVariationsAfter s cs := by
  rw [signVariationsAfter, compareZero_eq_eq_iff.2 rfl]

theorem signVariationsAfter_cons (hc : c ≠ 0) (s : Ordering) (cs : List ℚ) :
    signVariationsAfter s (c :: cs) =
      (if s ≠ .eq ∧ s ≠ compareZero c then 1 else 0) + signVariationsAfter (compareZero c) cs := by
  rw [signVariationsAfter]
  cases h : compareZero c with
  | eq => exact absurd (compareZero_eq_eq_iff.1 h) hc
  | lt => cases s <;> rfl
  | gt => cases s <;> rfl

/-- The sign of the last nonzero number of a list, `s` if there is none. -/
def lastSign (s : Ordering) (cs : List ℚ) : Ordering :=
  cs.foldl (fun s c => if c = 0 then s else compareZero c) s

@[simp] theorem lastSign_nil (s : Ordering) : lastSign s [] = s := rfl

@[simp] theorem lastSign_cons (s : Ordering) (c : ℚ) (cs : List ℚ) :
    lastSign s (c :: cs) = lastSign (if c = 0 then s else compareZero c) cs := rfl

@[simp] theorem lastSign_append_singleton (s : Ordering) (cs : List ℚ) (c : ℚ) :
    lastSign s (cs ++ [c]) = if c = 0 then lastSign s cs else compareZero c := by
  rw [lastSign, List.foldl_append]
  rfl

theorem lastSign_ne_eq (hs : s ≠ .eq) (cs : List ℚ) : lastSign s cs ≠ .eq := by
  induction cs generalizing s with
  | nil => exact hs
  | cons c cs ih =>
    rw [lastSign_cons]
    apply ih
    split_ifs with hc
    · exact hs
    · exact fun h => hc (compareZero_eq_eq_iff.1 h)

theorem signVariationsAfter_append_singleton (s : Ordering) (cs : List ℚ) (c : ℚ) :
    signVariationsAfter s (cs ++ [c]) = signVariationsAfter s cs +
      if c ≠ 0 ∧ lastSign s cs ≠ .eq ∧ lastSign s cs ≠ compareZero c then 1 else 0 := by
  induction cs generalizing s with
  | nil =>
    by_cases hc : c = 0
    · simp [hc, signVariationsAfter_zero]
    · simp [signVariationsAfter_cons hc, hc, signVariationsAfter]
  | cons d cs ih =>
    rw [List.cons_append]
    by_cases hd : d = 0
    · rw [hd, signVariationsAfter_zero, signVariationsAfter_zero, ih, lastSign_cons, if_pos rfl]
    · rw [signVariationsAfter_cons hd, signVariationsAfter_cons hd, ih, lastSign_cons, if_neg hd,
        add_assoc]

/-- The number of changes is even when the last sign is the first one again. -/
theorem even_signVariationsAfter_iff (hs : s ≠ .eq) (cs : List ℚ) :
    Even (signVariationsAfter s cs) ↔ lastSign s cs = s := by
  induction cs generalizing s with
  | nil => simp [signVariationsAfter]
  | cons c cs ih =>
    by_cases hc : c = 0
    · rw [hc, signVariationsAfter_zero, ih hs, lastSign_cons, if_pos rfl]
    have ht : compareZero c ≠ .eq := fun h => hc (compareZero_eq_eq_iff.1 h)
    rw [signVariationsAfter_cons hc, lastSign_cons, if_neg hc]
    by_cases hst : s = compareZero c
    · rw [← hst, if_neg (by simp), zero_add, ih hs]
    · -- there are only two signs, so the last one is the first one if it is not that of `c`
      have hlast := lastSign_ne_eq ht cs
      rw [if_pos ⟨hs, hst⟩, Nat.even_add, ih ht]
      revert hlast ht hs hst
      generalize lastSign (compareZero c) cs = l
      generalize compareZero c = t
      cases s <;> cases t <;> cases l <;> simp

theorem signVariationsAfter_eq_zero (h : ∀ c ∈ cs, c ≠ 0 → compareZero c = s) :
    signVariationsAfter s cs = 0 := by
  induction cs with
  | nil => rfl
  | cons c cs ih =>
    obtain ⟨hc, hcs⟩ := List.forall_mem_cons.1 h
    by_cases h0 : c = 0
    · rw [h0, signVariationsAfter_zero, ih hcs]
    · rw [signVariationsAfter_cons h0, hc h0, if_neg (by simp), ih hcs]

/-- Once a sign has been seen that does not change any more, there is at most one change. -/
theorem signVariations_le_one (hs : s ≠ .eq)
    (h : cs.Pairwise fun c d => compareZero c = s → d ≠ 0 → compareZero d = s) :
    signVariations cs ≤ 1 := by
  suffices H : ∀ t, t ≠ s → signVariationsAfter t cs ≤ 1 from H .eq hs.symm
  induction cs with
  | nil => exact fun t _ => Nat.zero_le 1
  | cons c cs ih =>
    obtain ⟨hc, hcs⟩ := List.pairwise_cons.1 h
    intro t ht
    by_cases h0 : c = 0
    · rw [h0, signVariationsAfter_zero]
      exact ih hcs t ht
    rw [signVariationsAfter_cons h0]
    by_cases hcs' : compareZero c = s
    · rw [signVariationsAfter_eq_zero fun d hd hd0 => (hc d hd hcs' hd0).trans hcs'.symm]
      split_ifs <;> simp
    · -- before that sign there is only the other one
      have hne : compareZero c ≠ .eq := fun h => h0 (compareZero_eq_eq_iff.1 h)
      have hsame : ¬(t ≠ .eq ∧ t ≠ compareZero c) := by
        revert hs ht hne hcs'
        generalize compareZero c = r
        cases s <;> cases t <;> cases r <;> simp
      rw [if_neg hsame, zero_add]
      exact ih hcs _ hcs'

/-! ## Polynomials -/

/-- The sign that an ordering relative to zero stands for. -/
def signType : Ordering → SignType
  | .lt => -1
  | .eq => 0
  | .gt => 1

theorem signType_injective : Function.Injective signType := by
  intro r t
  cases r <;> cases t <;> decide

theorem sign_cast (x : ℚ) : SignType.sign (x : ℝ) = signType (compareZero x) := by
  rcases lt_trichotomy x 0 with hx | rfl | hx
  · rw [sign_neg (Rat.cast_lt_zero.2 hx), compareZero_eq_lt_iff.2 hx, signType]
  · rw [Rat.cast_zero, sign_zero, compareZero_eq_eq_iff.2 rfl, signType]
  · rw [sign_pos (Rat.cast_pos.2 hx), compareZero_eq_gt_iff.2 hx, signType]

theorem sign_leadingCoeff_toReal (cs : List ℚ) :
    SignType.sign (toReal cs).leadingCoeff = signType (lastSign .eq cs) := by
  induction cs using List.reverseRecOn with
  | nil => simp [toReal, signType]
  | append_singleton cs c ih =>
    rw [lastSign_append_singleton]
    split_ifs with hc
    · rw [toReal_append_singleton, hc, Rat.cast_zero, C_0, zero_mul, add_zero, ih]
    · rw [(leadingCoeff_toReal_append_singleton hc cs).1, sign_cast]

theorem signType_eq_neg_iff {r t : Ordering} (ht : t ≠ .eq) :
    signType t = -signType r ↔ r ≠ .eq ∧ r ≠ t := by
  revert ht
  cases r <;> cases t <;> decide

/-- The changes of sign in the list are those in the polynomial. -/
theorem signVariations_toReal (cs : List ℚ) :
    (toReal cs).signVariations = signVariations cs := by
  induction cs using List.reverseRecOn with
  | nil => simp [toReal, signVariations, signVariationsAfter]
  | append_singleton cs c ih =>
    rw [signVariations, signVariationsAfter_append_singleton]
    by_cases hc : c = 0
    · rw [toReal_append_singleton, hc, Rat.cast_zero, C_0, zero_mul, add_zero, ih,
        if_neg (by simp), add_zero, signVariations]
    obtain ⟨hlead, herase⟩ := leadingCoeff_toReal_append_singleton hc cs
    have h0 : toReal (cs ++ [c]) ≠ 0 := fun h0 => by
      rw [h0, leadingCoeff_zero] at hlead
      exact hc (Rat.cast_eq_zero.1 hlead.symm)
    have ht : compareZero c ≠ .eq := fun h => hc (compareZero_eq_eq_iff.1 h)
    rw [signVariations_eq_eraseLead_add_ite h0, herase, ih, hlead, sign_cast,
      sign_leadingCoeff_toReal, signVariations]
    simp only [signType_eq_neg_iff ht, ne_eq, hc, not_false_eq_true, true_and]

/-- Descartes' rule of signs. -/
theorem countP_roots_toReal_le (cs : List ℚ) :
    (toReal cs).roots.countP (0 < ·) ≤ signVariations cs :=
  (roots_countP_pos_le_signVariations _).trans_eq (signVariations_toReal cs)

end Univariate

end Cylindrical

end
