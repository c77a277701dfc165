import Mathlib
import Cylindrical.Proofs.Sample.Denotation
import Cylindrical.Proofs.Univariate.Isolation

/-!
# Parting an interval from a number

Bisecting an isolating interval until it does not contain a number is a relation between the interval
and the one it ends with (`PartsTo`), which exists if the number is not a root: the polynomial is not
very small there, so the root is not very near, and each bisection leaves at most three quarters of the
width.  The steps that `separationSteps` allows for are enough (`partsTo_bisectAwayFrom`).  Since
bisection only ever goes to a part, an interval that is apart from one number stays so while it is
parted from the others (`PartsFromAll.spec`).
-/

noncomputable section

open Polynomial

namespace Cylindrical

namespace Univariate

/-- Bisecting the interval until it does not contain `x`, ends included, ends with an interval. -/
inductive PartsTo (cs : List ℚ) (x : ℚ) : Interval → Interval → Prop
  | apart {s} (h : ¬(s.lo ≤ x ∧ x ≤ s.hi)) : PartsTo cs x s s
  | bisect {s t} (h : s.lo ≤ x ∧ x ≤ s.hi) (rest : PartsTo cs x (bisect cs s) t) : PartsTo cs x s t

/-- Parting the interval from one number after the other ends with an interval. -/
inductive PartsFromAll (cs : List ℚ) : List ℚ → Interval → Interval → Prop
  | nil {s} : PartsFromAll cs [] s s
  | cons {x xs s t u} (first : PartsTo cs x s t) (rest : PartsFromAll cs xs t u) :
    PartsFromAll cs (x :: xs) s u

variable {cs : List ℚ} {x : ℚ} {ξ : ℝ} {s t : Interval}

/-! ## Bisection -/

/-- The number is the only root of the square-free polynomial in the interval, and not an end of it. -/
def IsolatesRoot (cs : List ℚ) (s : Interval) (ξ : ℝ) : Prop :=
  (AlgebraicNumber.ofRoot 0 cs s).Isolates ξ

theorem refine_ofRoot (d : Poly) (cs : List ℚ) (s : Interval) :
    (AlgebraicNumber.ofRoot d cs s).refine = .ofRoot d cs (bisect cs s) := by
  simp only [AlgebraicNumber.refine, AlgebraicNumber.ofRoot, bisect,
    AlgebraicNumber.ofOrdering_injective.eq_iff]
  by_cases h : signAt cs s.lo = signAt cs (splitPoint cs s.lo s.hi)
  · rw [if_pos h.symm, if_pos h, h]
  · rw [if_neg (Ne.symm h), if_neg h]

namespace IsolatesRoot

theorem lo_lt_hi (h : IsolatesRoot cs s ξ) : s.lo < s.hi := AlgebraicNumber.Isolates.lo_lt_hi h

theorem bisect (h : IsolatesRoot cs s ξ) : IsolatesRoot cs (bisect cs s) ξ := by
  unfold IsolatesRoot at h ⊢
  rw [← refine_ofRoot]
  exact h.refine

theorem within_bisect (h : IsolatesRoot cs s ξ) :
    s.lo ≤ (Univariate.bisect cs s).lo ∧ (Univariate.bisect cs s).hi ≤ s.hi := by
  have hspan := AlgebraicNumber.Isolates.span_refine h
  rwa [refine_ofRoot] at hspan

theorem width_bisect (h : IsolatesRoot cs s ξ) :
    (Univariate.bisect cs s).width ≤ 3 / 4 * s.width := by
  have hwidth := AlgebraicNumber.Isolates.width_refine h
  rwa [refine_ofRoot] at hwidth

end IsolatesRoot

/-! ## Parting -/

/-- The part that is left still isolates the root. -/
theorem PartsTo.spec (h : PartsTo cs x s t) (hs : IsolatesRoot cs s ξ) :
    IsolatesRoot cs t ξ ∧ s.lo ≤ t.lo ∧ t.hi ≤ s.hi ∧ ¬(t.lo ≤ x ∧ x ≤ t.hi) := by
  induction h with
  | apart h => exact ⟨hs, le_rfl, le_rfl, h⟩
  | bisect _ _ ih =>
    have hwithin := hs.within_bisect
    have hpart := ih hs.bisect
    exact ⟨hpart.1, hwithin.1.trans hpart.2.1, hpart.2.2.1.trans hwithin.2, hpart.2.2.2⟩

/-- What is apart from a number stays so in all later parts. -/
theorem PartsFromAll.spec {xs : List ℚ} (h : PartsFromAll cs xs s t) (hs : IsolatesRoot cs s ξ) :
    IsolatesRoot cs t ξ ∧ s.lo ≤ t.lo ∧ t.hi ≤ s.hi ∧ ∀ x ∈ xs, ¬(t.lo ≤ x ∧ x ≤ t.hi) := by
  induction h with
  | nil => exact ⟨hs, le_rfl, le_rfl, List.forall_mem_nil _⟩
  | cons first _ ih =>
    obtain ⟨hfirst, hlo, hhi, hapart⟩ := first.spec hs
    obtain ⟨hlast, hlo', hhi', hall⟩ := ih hfirst
    refine ⟨hlast, hlo.trans hlo', hhi'.trans hhi, List.forall_mem_cons.2 ⟨fun hx => ?_, hall⟩⟩
    exact hapart ⟨hlo'.trans hx.1, hx.2.trans hhi'⟩

/-- With enough steps, the bounded loop is the parting: a width below the distance of the root is
reached in time. -/
theorem partsTo_of_width_lt {n : ℕ} (hs : IsolatesRoot cs s ξ)
    (h : (((3 / 4) ^ n * s.width : ℚ) : ℝ) < |x - ξ|) :
    PartsTo cs x s (bisectAwayFrom cs x n s) := by
  induction n generalizing s with
  | zero =>
    refine .apart fun hx => ?_
    have hlo : (s.lo : ℝ) ≤ x := Rat.cast_le.2 hx.1
    have hhi : (x : ℝ) ≤ s.hi := Rat.cast_le.2 hx.2
    have hξ : (s.lo : ℝ) < ξ := hs.lo_lt
    have hξ' : ξ < s.hi := hs.lt_hi
    rw [pow_zero, one_mul, Interval.width, Rat.cast_sub] at h
    have hle : |x - ξ| ≤ s.hi - s.lo := abs_sub_le_iff.2 ⟨by linarith, by linarith⟩
    exact h.not_ge hle
  | succ n ih =>
    unfold bisectAwayFrom
    split_ifs with hx
    · refine .bisect (by simpa using hx) (ih hs.bisect (lt_of_le_of_lt (Rat.cast_le.2 ?_) h))
      rw [pow_succ, mul_assoc]
      exact mul_le_mul_of_nonneg_left hs.width_bisect (by positivity)
    · exact .apart (by simpa using hx)

/-! ## The distance of a root -/

/-- The value at a rational number times this denominator is an integer. -/
theorem exists_eval_mul_eq (cs : List ℚ) (x : ℚ) :
    ∃ k : ℤ, denominator cs * x.den ^ cs.length * eval cs x = k := by
  induction cs with
  | nil => exact ⟨0, by simp [eval]⟩
  | cons c cs ih =>
    obtain ⟨k, hk⟩ := ih
    refine ⟨c.den * k * x.num + denominator cs * x.den ^ (cs.length + 1) * c.num, ?_⟩
    have hx : (x.den : ℚ) * x = x.num := Rat.den_mul_eq_num x
    have hc : (c.den : ℚ) * c = c.num := Rat.den_mul_eq_num c
    have heval : eval (c :: cs) x = eval cs x * x + c := rfl
    have hden : denominator (c :: cs) = c.den * denominator cs := by simp [denominator]
    rw [heval, hden, List.length_cons]
    push_cast
    rw [← hk, ← hx, ← hc]
    ring

theorem one_le_mul_abs_eval (h : eval cs x ≠ 0) :
    1 ≤ denominator cs * x.den ^ cs.length * |eval cs x| := by
  obtain ⟨k, hk⟩ := exists_eval_mul_eq cs x
  have hpos : (0 : ℚ) < denominator cs * x.den ^ cs.length := by
    have hdenominator := denominator_ne_zero cs
    have hden := x.den_pos
    positivity
  have hk0 : k ≠ 0 := by
    rintro rfl
    rw [Int.cast_zero] at hk
    exact h ((mul_eq_zero.1 hk).resolve_left hpos.ne')
  calc (1 : ℚ) ≤ |(k : ℚ)| := by exact_mod_cast Int.one_le_abs hk0
    _ = denominator cs * x.den ^ cs.length * |eval cs x| := by rw [← hk, abs_mul, abs_of_pos hpos]

theorem absSum_nonneg (cs : List ℚ) : 0 ≤ absSum cs := by
  refine List.sum_nonneg fun c hc => ?_
  obtain ⟨d, -, rfl⟩ := List.mem_map.1 hc
  exact abs_nonneg d

theorem eval_toReal_cons (c : ℚ) (cs : List ℚ) (y : ℝ) :
    (toReal (c :: cs)).eval y = (toReal cs).eval y * y + c := by
  simp [toReal]

section

variable {b : ℝ}

theorem abs_eval_le (cs : List ℚ) (hb : 1 ≤ b) {y : ℝ} (hy : |y| ≤ b) :
    |(toReal cs).eval y| ≤ absSum cs * b ^ cs.length := by
  have hb0 : 0 ≤ b := zero_le_one.trans hb
  induction cs with
  | nil => simp [toReal, absSum]
  | cons c cs ih =>
    have hsum : 0 ≤ (absSum cs : ℝ) := Rat.cast_nonneg.2 (absSum_nonneg cs)
    have habs : (absSum (c :: cs) : ℝ) = |(c : ℝ)| + absSum cs := by simp [absSum]
    have hone : (1 : ℝ) ≤ b ^ (cs.length + 1) := one_le_pow₀ hb
    rw [eval_toReal_cons, List.length_cons, habs]
    calc |(toReal cs).eval y * y + c| ≤ |(toReal cs).eval y| * |y| + |(c : ℝ)| := by
          rw [← abs_mul]
          exact abs_add_le _ _
      _ ≤ absSum cs * b ^ cs.length * b + |(c : ℝ)| * b ^ (cs.length + 1) := by
          gcongr
          exact le_mul_of_one_le_right (abs_nonneg _) hone
      _ = (|(c : ℝ)| + absSum cs) * b ^ (cs.length + 1) := by ring

/-- Between two numbers the value does not change by more than this multiple of their distance. -/
theorem abs_eval_sub_eval_le (cs : List ℚ) (hb : 1 ≤ b) {y z : ℝ} (hy : |y| ≤ b) (hz : |z| ≤ b) :
    |(toReal cs).eval y - (toReal cs).eval z| ≤
      |y - z| * (absSum cs * cs.length * b ^ cs.length) := by
  have hb0 : 0 ≤ b := zero_le_one.trans hb
  induction cs with
  | nil => simp [toReal]
  | cons c cs ih =>
    have hsum : 0 ≤ (absSum cs : ℝ) := Rat.cast_nonneg.2 (absSum_nonneg cs)
    have habs : (absSum cs : ℝ) ≤ absSum (c :: cs) := by simp [absSum]
    have hpow : b ^ cs.length ≤ b ^ (cs.length + 1) := pow_le_pow_right₀ hb (Nat.le_succ _)
    have heval := abs_eval_le cs hb hz
    rw [eval_toReal_cons, eval_toReal_cons, List.length_cons]
    calc |(toReal cs).eval y * y + c - ((toReal cs).eval z * z + c)|
        = |((toReal cs).eval y - (toReal cs).eval z) * y + (toReal cs).eval z * (y - z)| := by
          congr 1
          ring
      _ ≤ |(toReal cs).eval y - (toReal cs).eval z| * |y| + |(toReal cs).eval z| * |y - z| := by
          rw [← abs_mul, ← abs_mul]
          exact abs_add_le _ _
      _ ≤ |y - z| * (absSum cs * cs.length * b ^ cs.length) * b +
            absSum cs * b ^ cs.length * |y - z| := by gcongr
      _ ≤ |y - z| * (absSum cs * cs.length * b ^ (cs.length + 1)) +
            |y - z| * (absSum cs * b ^ (cs.length + 1)) := by
          refine add_le_add (le_of_eq (by ring)) ?_
          rw [mul_comm]
          gcongr
      _ = |y - z| * (absSum cs * (cs.length + 1) * b ^ (cs.length + 1)) := by ring
      _ ≤ |y - z| * (absSum (c :: cs) * (cs.length + 1 : ℕ) * b ^ (cs.length + 1)) := by
          push_cast
          gcongr

/-- A rational number that is not a root is not very near to one. -/
theorem one_le_mul_abs_sub (hx : eval cs x ≠ 0) (hξ : (toReal cs).IsRoot ξ) (hb : 1 ≤ b)
    (hxb : |(x : ℝ)| ≤ b) (hξb : |ξ| ≤ b) :
    1 ≤ denominator cs * absSum cs * cs.length * x.den ^ cs.length * b ^ cs.length * |x - ξ| := by
  have hone : (1 : ℝ) ≤ denominator cs * x.den ^ cs.length * |(toReal cs).eval (x : ℝ)| := by
    rw [eval_toReal_cast]
    exact_mod_cast one_le_mul_abs_eval hx
  have hle := abs_eval_sub_eval_le cs hb hxb hξb
  rw [hξ, sub_zero] at hle
  calc (1 : ℝ) ≤ denominator cs * x.den ^ cs.length * |(toReal cs).eval (x : ℝ)| := hone
    _ ≤ denominator cs * x.den ^ cs.length *
          (|x - ξ| * (absSum cs * cs.length * b ^ cs.length)) := by gcongr
    _ = _ := by ring

end

/-! ## Enough steps -/

/-- The reciprocal of this power of two bounds the distance of a root from `x` from below, if both are
in the interval. -/
def distanceBits (cs : List ℚ) (x : ℚ) (s : Interval) : ℕ :=
  bits cs + cs.length + cs.length * (rationalBits x + rationalBits s.lo + rationalBits s.hi)

theorem abs_le_of_mem {y : ℝ} (hlo : (s.lo : ℝ) ≤ y) (hhi : y ≤ s.hi) :
    |y| ≤ 2 ^ (rationalBits s.lo + rationalBits s.hi) := by
  have hmono : ∀ {k : ℕ}, k ≤ rationalBits s.lo + rationalBits s.hi →
      (2 : ℝ) ^ k ≤ 2 ^ (rationalBits s.lo + rationalBits s.hi) :=
    fun hk => pow_le_pow_right₀ one_le_two hk
  have hends : ∀ c : ℚ, |(c : ℝ)| ≤ 2 ^ rationalBits c := fun c => by exact_mod_cast abs_le_two_pow c
  have hlo' := (hends s.lo).trans (hmono (Nat.le_add_right _ _))
  have hhi' := (hends s.hi).trans (hmono (Nat.le_add_left _ _))
  exact abs_le.2 ⟨(abs_le.1 hlo').1.trans hlo, hhi.trans (abs_le.1 hhi').2⟩

theorem one_le_two_pow_mul_abs_sub (hs : IsolatesRoot cs s ξ) (hx : eval cs x ≠ 0)
    (hmem : s.lo ≤ x ∧ x ≤ s.hi) : 1 ≤ 2 ^ distanceBits cs x s * |x - ξ| := by
  set b : ℝ := 2 ^ (rationalBits s.lo + rationalBits s.hi) with hb
  have hxb : |(x : ℝ)| ≤ b := abs_le_of_mem (Rat.cast_le.2 hmem.1) (Rat.cast_le.2 hmem.2)
  have hξb : |ξ| ≤ b := abs_le_of_mem hs.lo_lt.le hs.lt_hi.le
  have hone := one_le_mul_abs_sub hx hs.isRoot (one_le_pow₀ one_le_two) hxb hξb
  have hcoeffs : (denominator cs : ℝ) * absSum cs ≤ 2 ^ bits cs := by
    have hle : (denominator cs : ℚ) * absSum cs ≤ 2 ^ bits cs := by
      refine le_trans ?_ (denominator_mul_le cs)
      exact mul_le_mul_of_nonneg_left (by linarith) (Nat.cast_nonneg _)
    exact_mod_cast hle
  have hlength : (cs.length : ℝ) ≤ 2 ^ cs.length := by exact_mod_cast Nat.lt_two_pow_self.le
  have hden : (x.den : ℝ) ≤ 2 ^ rationalBits x := by
    have hle : (x.den : ℚ) ≤ 2 ^ rationalBits x :=
      (den_le x).trans (pow_le_pow_right₀ one_le_two (Nat.le_add_left _ _))
    exact_mod_cast hle
  have hsum : 0 ≤ (absSum cs : ℝ) := Rat.cast_nonneg.2 (absSum_nonneg cs)
  calc (1 : ℝ)
      ≤ denominator cs * absSum cs * cs.length * x.den ^ cs.length * b ^ cs.length * |x - ξ| := hone
    _ ≤ 2 ^ bits cs * 2 ^ cs.length * (2 ^ rationalBits x) ^ cs.length * b ^ cs.length *
          |x - ξ| := by gcongr
    _ = 2 ^ distanceBits cs x s * |x - ξ| := by
        rw [distanceBits, hb, ← pow_mul, ← pow_mul, ← pow_add, ← pow_add, ← pow_add]
        congr 2
        ring

theorem width_le (s : Interval) : s.width ≤ 2 ^ (1 + rationalBits s.lo + rationalBits s.hi) := by
  have hlo : |s.lo| ≤ 2 ^ (rationalBits s.lo + rationalBits s.hi) :=
    (abs_le_two_pow s.lo).trans (pow_le_pow_right₀ one_le_two (Nat.le_add_right _ _))
  have hhi : |s.hi| ≤ 2 ^ (rationalBits s.lo + rationalBits s.hi) :=
    (abs_le_two_pow s.hi).trans (pow_le_pow_right₀ one_le_two (Nat.le_add_left _ _))
  rw [Interval.width, add_assoc, pow_add, pow_one]
  have := abs_le.1 hlo
  have := abs_le.1 hhi
  linarith

/-- The steps that are allowed for make the interval narrower than half the distance of the root. -/
theorem pow_separationSteps_le (cs : List ℚ) (x : ℚ) (s : Interval) (h : 0 ≤ s.width) :
    (3 / 4 : ℚ) ^ separationSteps cs x s * s.width ≤ (2 ^ distanceBits cs x s)⁻¹ * 2⁻¹ := by
  set k := distanceBits cs x s + (2 + rationalBits s.lo + rationalBits s.hi) with hk
  have hsteps : 3 * k ≤ separationSteps cs x s := by
    rw [hk, distanceBits, separationSteps]
    nlinarith [Nat.zero_le (cs.length * bits cs), Nat.zero_le (cs.length * cs.length),
      Nat.zero_le (cs.length * rationalBits x), Nat.zero_le (cs.length * rationalBits s.lo),
      Nat.zero_le (cs.length * rationalBits s.hi)]
  calc (3 / 4 : ℚ) ^ separationSteps cs x s * s.width
      ≤ (2 ^ k)⁻¹ * 2 ^ (1 + rationalBits s.lo + rationalBits s.hi) := by
        gcongr
        · exact three_quarters_pow_le hsteps
        · exact width_le s
    _ = (2 ^ distanceBits cs x s)⁻¹ * 2⁻¹ := by
        rw [hk]
        field_simp
        ring

theorem pow_separationSteps_lt (cs : List ℚ) (x : ℚ) (s : Interval) (h : 0 ≤ s.width) :
    (3 / 4 : ℚ) ^ separationSteps cs x s * s.width < (2 ^ distanceBits cs x s)⁻¹ :=
  (pow_separationSteps_le cs x s h).trans_lt
    (mul_lt_of_lt_one_right (by positivity) (by norm_num))

/-- An isolating interval is parted from every number that is not a root, in the steps that are allowed
for. -/
theorem partsTo_bisectAwayFrom (hs : IsolatesRoot cs s ξ) (hx : eval cs x ≠ 0) :
    PartsTo cs x s (bisectAwayFrom cs x (separationSteps cs x s) s) := by
  by_cases hmem : s.lo ≤ x ∧ x ≤ s.hi
  · refine partsTo_of_width_lt hs ?_
    have hlt := Rat.cast_lt (K := ℝ).2 (pow_separationSteps_lt cs x s (sub_nonneg.2 hs.lo_lt_hi.le))
    refine hlt.trans_le ?_
    push_cast
    rw [inv_le_iff_one_le_mul₀' (by positivity)]
    exact one_le_two_pow_mul_abs_sub hs hx hmem
  · have happart : bisectAwayFrom cs x (separationSteps cs x s) s = s := by
      cases separationSteps cs x s with
      | zero => rfl
      | succ n =>
        unfold bisectAwayFrom
        rw [if_neg (by simpa using hmem)]
    rw [happart]
    exact .apart hmem

theorem partsFromAll_foldl {xs : List ℚ} (hs : IsolatesRoot cs s ξ) (hxs : ∀ x ∈ xs, eval cs x ≠ 0) :
    PartsFromAll cs xs s
      (xs.foldl (fun s x => bisectAwayFrom cs x (separationSteps cs x s) s) s) := by
  induction xs generalizing s with
  | nil => exact .nil
  | cons x xs ih =>
    obtain ⟨hx, hxs⟩ := List.forall_mem_cons.1 hxs
    have hfirst := partsTo_bisectAwayFrom hs hx
    exact .cons hfirst (ih (hfirst.spec hs).1 hxs)

/-! ## Isolating intervals -/

namespace IsolatesRoot

theorem ends (h : IsolatesRoot cs s ξ) :
    ¬(toReal cs).IsRoot (s.lo : ℝ) ∧ ¬(toReal cs).IsRoot (s.hi : ℝ) := by
  have hle : (s.lo : ℝ) ≤ s.hi := (h.lo_lt.trans h.lt_hi).le
  exact ⟨fun hr => h.lo_lt.ne (h.unique _ le_rfl hle hr),
    fun hr => h.lt_hi.ne' (h.unique _ hle le_rfl hr)⟩

theorem of_mem_isolate (hcs : Squarefree (toPolynomial cs)) (hs : s ∈ isolate cs)
    (hmem : ξ ∈ Set.Ioo (s.lo : ℝ) s.hi) (hroot : (toReal cs).IsRoot ξ) : IsolatesRoot cs s ξ where
  squarefree := hcs
  lo_lt := hmem.1
  lt_hi := hmem.2
  isRoot := hroot
  unique := by
    obtain ⟨-, hlo, hhi, hunique⟩ := (isolate_spec hcs).1 s hs
    intro y hy hy' hr
    refine hunique.unique ⟨⟨lt_of_le_of_ne hy ?_, lt_of_le_of_ne hy' ?_⟩, hr⟩ ⟨hmem, hroot⟩
    · rintro rfl
      exact hlo (isRoot_toReal_iff.1 hr)
    · rintro rfl
      exact hhi (isRoot_toReal_iff.1 hr)
  leftSign := rfl

end IsolatesRoot

theorem exists_isolatesRoot (hcs : Squarefree (toPolynomial cs)) (hs : s ∈ isolate cs) :
    ∃ ξ, IsolatesRoot cs s ξ := by
  obtain ⟨-, -, -, ξ, hξ, -⟩ := (isolate_spec hcs).1 s hs
  exact ⟨ξ, .of_mem_isolate hcs hs hξ.1 hξ.2⟩

end Univariate

end Cylindrical

end
