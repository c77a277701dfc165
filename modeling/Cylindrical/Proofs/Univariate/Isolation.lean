import Mathlib
import Cylindrical.Proofs.Univariate.Separation
import Cylindrical.Proofs.Univariate.ShortInterval

/-!
# Isolation of the roots of a square-free polynomial

Bisection without a limit on its depth is a relation between an interval and the list it ends with
(`BisectsTo`).  It ends on every branch, since each split leaves at most three quarters of the width
and Descartes' bound is zero or one on short intervals; the depth that `isolate` allows is enough
(`bisectsTo_isolate`).  What it ends with are intervals for exactly the roots (`BisectsTo.isolating`).
-/

noncomputable section

open Polynomial

namespace Cylindrical

namespace Univariate

variable {cs : List ℚ} {lo hi : ℚ}

/-! ## Bisection -/

/-- Bisecting the interval until Descartes' bound is zero or one ends with the intervals. -/
inductive BisectsTo (cs : List ℚ) : Interval → List Interval → Prop
  | none {s} (h : descartesBound cs s.lo s.hi = 0) : BisectsTo cs s []
  | one {s} (h : descartesBound cs s.lo s.hi = 1) : BisectsTo cs s [s]
  | split {s l r} (h : 2 ≤ descartesBound cs s.lo s.hi)
      (left : BisectsTo cs ⟨s.lo, splitPoint cs s.lo s.hi⟩ l)
      (right : BisectsTo cs ⟨splitPoint cs s.lo s.hi, s.hi⟩ r) : BisectsTo cs s (l ++ r)

/-- The intervals on one branch of the bisection, where `turn` says when to go to the right. -/
def branch (cs : List ℚ) (turn : ℕ → Bool) (s : Interval) : ℕ → Interval
  | 0 => s
  | k + 1 =>
    let s := branch cs turn s k
    let m := splitPoint cs s.lo s.hi
    if turn k then ⟨m, s.hi⟩ else ⟨s.lo, m⟩

/-- Each part is not empty and has at most three quarters of the width. -/
theorem splitPoint_width (cs : List ℚ) (h : lo < hi) :
    (lo < splitPoint cs lo hi ∧ splitPoint cs lo hi - lo ≤ 3 / 4 * (hi - lo)) ∧
      splitPoint cs lo hi < hi ∧ hi - splitPoint cs lo hi ≤ 3 / 4 * (hi - lo) := by
  obtain ⟨t, ht₁, ht₂, heq⟩ := splitPoint_eq cs lo hi
  have hw : 0 < hi - lo := sub_pos.2 h
  have hlow : 1 / 2 * (hi - lo) ≤ t * (hi - lo) := mul_le_mul_of_nonneg_right ht₁ hw.le
  have hhigh : t * (hi - lo) ≤ 3 / 4 * (hi - lo) := mul_le_mul_of_nonneg_right ht₂ hw.le
  rw [heq]
  refine ⟨⟨?_, ?_⟩, ?_, ?_⟩ <;> linarith

theorem branch_width (cs : List ℚ) (turn : ℕ → Bool) {s : Interval} (h : s.lo < s.hi) (k : ℕ) :
    (branch cs turn s k).lo < (branch cs turn s k).hi ∧
      (branch cs turn s k).width ≤ (3 / 4) ^ k * s.width := by
  induction k with
  | zero => simpa [branch] using h
  | succ k ih =>
    obtain ⟨hlt, hle⟩ := ih
    obtain ⟨⟨hleft, hleft'⟩, hright, hright'⟩ := splitPoint_width cs hlt
    have hshrink : 3 / 4 * (branch cs turn s k).width ≤ (3 / 4) ^ (k + 1) * s.width := by
      rw [pow_succ', mul_assoc]
      exact mul_le_mul_of_nonneg_left hle (by norm_num)
    simp only [branch]
    split_ifs
    · exact ⟨hright, hright'.trans hshrink⟩
    · exact ⟨hleft, hleft'.trans hshrink⟩

/-! ## Termination -/

/-- A width on which Descartes' bound is exact. -/
def safeWidth (cs : List ℚ) : ℚ := (2 ^ (separationBits cs + 1))⁻¹

theorem descartesBound_le_one_of_le (hcs : Squarefree (toPolynomial cs)) (h : lo < hi)
    (hw : hi - lo ≤ safeWidth cs) : descartesBound cs lo hi ≤ 1 := by
  refine descartesBound_le_one hcs h fun z w hz hw' hne => ?_
  have hsep := one_le_two_pow_mul_norm_sub hcs hz hw' hne
  have hw : ((hi - lo : ℚ) : ℝ) ≤ (safeWidth cs : ℚ) := Rat.cast_le.2 hw
  have hpos : (0 : ℝ) < 2 ^ separationBits cs := by positivity
  rw [safeWidth, pow_succ, mul_inv] at hw
  push_cast at hw
  rw [← div_le_iff₀' hpos, one_div] at hsep
  linarith

/-- On every branch Descartes' bound becomes zero or one. -/
theorem exists_descartesBound_branch_le_one (hcs : Squarefree (toPolynomial cs)) {s : Interval}
    (h : s.lo < s.hi) (turn : ℕ → Bool) :
    ∃ k, descartesBound cs (branch cs turn s k).lo (branch cs turn s k).hi ≤ 1 := by
  have hw : 0 < s.width := sub_pos.2 h
  have hpos : 0 < safeWidth cs := by
    rw [safeWidth]
    positivity
  obtain ⟨k, hk⟩ := exists_pow_lt_of_lt_one (div_pos hpos hw) (show (3 / 4 : ℚ) < 1 by norm_num)
  obtain ⟨hlt, hle⟩ := branch_width cs turn h k
  rw [lt_div_iff₀ hw] at hk
  exact ⟨k, descartesBound_le_one_of_le hcs hlt (hle.trans hk.le)⟩

/-- With enough depth, `isolateIn` is the bisection. -/
theorem bisectsTo_isolateIn (hcs : Squarefree (toPolynomial cs)) {depth : ℕ} (h : lo < hi)
    (hw : (3 / 4) ^ depth * (hi - lo) ≤ safeWidth cs) :
    BisectsTo cs ⟨lo, hi⟩ (isolateIn cs (depth + 1) lo hi) := by
  induction depth generalizing lo hi with
  | zero =>
    rw [pow_zero, one_mul] at hw
    have hle := descartesBound_le_one_of_le hcs h hw
    rw [isolateIn]
    rcases Nat.le_one_iff_eq_zero_or_eq_one.1 hle with hbound | hbound
    · rw [hbound]
      exact .none hbound
    · rw [hbound]
      exact .one hbound
  | succ depth ih =>
    obtain ⟨⟨hleft, hleft'⟩, hright, hright'⟩ := splitPoint_width cs h
    have hshrink : ∀ w, w ≤ 3 / 4 * (hi - lo) → (3 / 4) ^ depth * w ≤ safeWidth cs := fun w hle => by
      refine le_trans ?_ hw
      rw [pow_succ, mul_assoc]
      exact mul_le_mul_of_nonneg_left hle (by positivity)
    rw [isolateIn]
    rcases hbound : descartesBound cs lo hi with _ | _ | n
    · exact .none hbound
    · exact .one hbound
    · have htwo : 2 ≤ descartesBound cs lo hi := hbound ▸ Nat.le_add_left 2 n
      exact .split htwo (ih hleft (hshrink _ hleft')) (ih hright (hshrink _ hright'))

/-- Three steps that leave at most three quarters of a width halve it. -/
theorem three_quarters_pow_le {k n : ℕ} (h : 3 * k ≤ n) : (3 / 4 : ℚ) ^ n ≤ (2 ^ k)⁻¹ := by
  refine (pow_le_pow_of_le_one (by norm_num) (by norm_num) h).trans ?_
  rw [pow_mul, ← inv_pow]
  exact pow_le_pow_left₀ (by norm_num) (by norm_num) k

/-- The depth that `isolate` allows for is enough. -/
theorem pow_isolationDepth_le {c : ℚ} {ds : List ℚ} (hc : c ≠ 0) (hcs : cs = ds ++ [c]) :
    (3 / 4 : ℚ) ^ (isolationDepth cs - 1) * (2 * rootBound cs) ≤ safeWidth cs := by
  set k := bits cs + separationBits cs + 5 with hk
  have hdepth : 3 * k ≤ isolationDepth cs - 1 := by
    rw [hk, isolationDepth, separationBits]
    refine Nat.le_sub_one_of_lt ?_
    nlinarith [Nat.zero_le (cs.length * bits cs), Nat.zero_le (cs.length * cs.length)]
  have hbound : rootBound cs ≤ 2 ^ (bits cs + 3) := hcs ▸ rootBound_le hc ds
  calc (3 / 4 : ℚ) ^ (isolationDepth cs - 1) * (2 * rootBound cs)
      ≤ (3 / 4) ^ (isolationDepth cs - 1) * (2 * 2 ^ (bits cs + 3)) := by gcongr
    _ ≤ (2 ^ k)⁻¹ * (2 * 2 ^ (bits cs + 3)) := by
        gcongr
        exact three_quarters_pow_le hdepth
    _ = safeWidth cs := by
        rw [safeWidth, hk]
        field_simp
        ring

theorem rootBound_pos {c : ℚ} (hc : c ≠ 0) (ds : List ℚ) : 0 < rootBound (ds ++ [c]) :=
  (add_pos_of_nonneg_of_pos height_nonneg one_pos).trans (height_lt_rootBound hc ds)

theorem isolationDepth_pos (cs : List ℚ) : 0 < isolationDepth cs := by
  rw [isolationDepth]
  positivity

theorem bisectsTo_isolate (hcs : Squarefree (toPolynomial cs)) (h : 2 ≤ (trim cs).length) :
    BisectsTo (trim cs) ⟨-rootBound (trim cs), rootBound (trim cs)⟩ (isolate cs) := by
  obtain ⟨ds, c, hc, htrim⟩ := exists_trim_eq hcs.ne_zero
  obtain ⟨depth, hdepth⟩ := Nat.exists_eq_add_of_le' (isolationDepth_pos (trim cs))
  have hle := pow_isolationDepth_le hc htrim
  rw [hdepth, Nat.add_sub_cancel] at hle
  have hpos := rootBound_pos hc ds
  rw [← htrim] at hpos
  simp only [isolate]
  rw [if_neg (by omega), hdepth]
  refine bisectsTo_isolateIn (by rwa [toPolynomial_trim]) (by linarith) ?_
  rwa [sub_neg_eq_add, ← two_mul]

/-! ## Split points -/

/-- The points that are tried as split points, in turn: the midpoint, and then those a quarter, an
eighth, … of the width above it. -/
def splitCandidate (lo hi : ℚ) : ℕ → ℚ
  | 0 => (lo + hi) / 2
  | k + 1 => (lo + hi) / 2 + (hi - lo) / 2 ^ (k + 2)

theorem nextSplit_search (cs : List ℚ) (m step : ℚ) (n : ℕ) :
    ∃ k ≤ n, nextSplit cs m n step = m + step / 2 ^ (k + 1) ∧
      ∀ i < k, (toPolynomial cs).IsRoot (m + step / 2 ^ (i + 1)) := by
  induction n generalizing step with
  | zero => exact ⟨0, le_rfl, by rw [nextSplit, zero_add, pow_one], by simp⟩
  | succ n ih =>
    rw [nextSplit]
    split_ifs with hroot
    · obtain ⟨k, hk, heq, hroots⟩ := ih (step / 2)
      have hhalf : ∀ i, step / 2 / 2 ^ (i + 1) = step / 2 ^ (i + 1 + 1) := fun i => by
        rw [div_div, ← pow_succ']
      refine ⟨k + 1, by omega, by rw [heq, hhalf], fun i hi => ?_⟩
      cases i with
      | zero => simpa using signAt_eq_eq_iff.1 hroot
      | succ i => exact hhalf i ▸ hroots i (by omega)
    · exact ⟨0, by omega, by rw [zero_add, pow_one], by simp⟩

/-- The split point is the first candidate that is not a root. -/
theorem splitPoint_search (h0 : toPolynomial cs ≠ 0) (h : lo < hi) :
    ∃ k ≤ cs.length + 1, splitPoint cs lo hi = splitCandidate lo hi k ∧
      ¬(toPolynomial cs).IsRoot (splitCandidate lo hi k) ∧
      ∀ i < k, (toPolynomial cs).IsRoot (splitCandidate lo hi i) := by
  suffices hsearch : ∃ k ≤ cs.length + 1, splitPoint cs lo hi = splitCandidate lo hi k ∧
      ∀ i < k, (toPolynomial cs).IsRoot (splitCandidate lo hi i) by
    obtain ⟨k, hk, heq, hroots⟩ := hsearch
    exact ⟨k, hk, heq, heq ▸ (splitPoint_spec h0 h).2.2, hroots⟩
  rw [splitPoint]
  split_ifs with hmid
  · obtain ⟨k, hk, heq, hroots⟩ := nextSplit_search cs ((lo + hi) / 2) ((hi - lo) / 2) cs.length
    have hcandidate : ∀ i,
        (lo + hi) / 2 + (hi - lo) / 2 / 2 ^ (i + 1) = splitCandidate lo hi (i + 1) := fun i => by
      rw [splitCandidate, div_div, ← pow_succ']
    refine ⟨k + 1, by omega, by rw [heq, hcandidate], fun i hi => ?_⟩
    cases i with
    | zero => exact signAt_eq_eq_iff.1 hmid
    | succ i => exact hcandidate i ▸ hroots i (by omega)
  · exact ⟨0, by omega, rfl, by simp⟩

/-- For a square-free polynomial Descartes' bound becomes zero or one on every branch of the bisection, and
`isolate` allows for the depth of all of them; the search for a split point ends for every polynomial. -/
theorem isolation_terminates (h0 : toPolynomial cs ≠ 0) :
    (Squarefree (toPolynomial cs) →
      (∀ s : Interval, s.lo < s.hi → ∀ turn : ℕ → Bool, ∃ k,
        descartesBound (trim cs) (branch (trim cs) turn s k).lo (branch (trim cs) turn s k).hi ≤ 1) ∧
      (2 ≤ (trim cs).length →
        BisectsTo (trim cs) ⟨-rootBound (trim cs), rootBound (trim cs)⟩ (isolate cs))) ∧
    ∀ lo hi : ℚ, lo < hi → ∃ k, splitPoint cs lo hi = splitCandidate lo hi k ∧
      ¬(toPolynomial cs).IsRoot (splitCandidate lo hi k) ∧
      ∀ i < k, (toPolynomial cs).IsRoot (splitCandidate lo hi i) := by
  refine ⟨fun hcs => ⟨fun s hs turn => ?_, bisectsTo_isolate hcs⟩, fun lo hi h => ?_⟩
  · exact exists_descartesBound_branch_le_one (by rwa [toPolynomial_trim]) hs turn
  · obtain ⟨k, -, hsearch⟩ := splitPoint_search h0 h
    exact ⟨k, hsearch⟩

theorem toPolynomial_sqrtTwo : toPolynomial [-2, 0, 1, 0] = X ^ 2 - C 2 := by
  simp [pow_two, sub_eq_add_neg]

theorem squarefree_sqrtTwo : Squarefree (toPolynomial [-2, 0, 1, 0]) := by
  rw [toPolynomial_sqrtTwo]
  exact (separable_X_pow_sub_C 2 (by norm_num) (by norm_num)).squarefree

theorem isolation_terminates_sqrtTwo :
    toPolynomial [-2, 0, 1, 0] ≠ 0 ∧ Squarefree (toPolynomial [-2, 0, 1, 0]) ∧
      BisectsTo [-2, 0, 1] ⟨-rootBound [-2, 0, 1], rootBound [-2, 0, 1]⟩ (isolate [-2, 0, 1, 0]) ∧
      ∃ k, splitPoint [-2, 0, 1, 0] 0 2 = splitCandidate 0 2 k := by
  have htrim : trim [-2, 0, 1, 0] = [-2, 0, 1] := by decide +kernel
  obtain ⟨hbisect, hsplit⟩ := isolation_terminates squarefree_sqrtTwo.ne_zero
  have hbisect := (hbisect squarefree_sqrtTwo).2 (by rw [htrim]; decide)
  rw [htrim] at hbisect
  obtain ⟨k, hk, -⟩ := hsplit 0 2 (by norm_num)
  exact ⟨squarefree_sqrtTwo.ne_zero, squarefree_sqrtTwo, hbisect, k, hk⟩

/-! ## Exactness -/

/-- The intervals are in order within the given one, and each contains exactly one root of all that it
has. -/
structure Isolating (cs : List ℚ) (s : Interval) (out : List Interval) : Prop where
  within : ∀ t ∈ out, s.lo ≤ t.lo ∧ t.hi ≤ s.hi
  lo_lt_hi : ∀ t ∈ out, t.lo < t.hi
  ends : ∀ t ∈ out, ¬(toPolynomial cs).IsRoot t.lo ∧ ¬(toPolynomial cs).IsRoot t.hi
  unique : ∀ t ∈ out, ∃! x : ℝ, x ∈ Set.Ioo (t.lo : ℝ) t.hi ∧ (toReal cs).IsRoot x
  sorted : out.Pairwise fun t u => t.hi ≤ u.lo
  complete : ∀ x ∈ Set.Ioo (s.lo : ℝ) s.hi, (toReal cs).IsRoot x →
    ∃ t ∈ out, x ∈ Set.Ioo (t.lo : ℝ) t.hi

namespace Isolating

variable {s : Interval}

theorem nil (h : ∀ x ∈ Set.Ioo (s.lo : ℝ) s.hi, ¬(toReal cs).IsRoot x) : Isolating cs s [] where
  within := by simp
  lo_lt_hi := by simp
  ends := by simp
  unique := by simp
  sorted := .nil
  complete := fun x hx hroot => absurd hroot (h x hx)

theorem singleton (hlt : s.lo < s.hi)
    (hends : ¬(toPolynomial cs).IsRoot s.lo ∧ ¬(toPolynomial cs).IsRoot s.hi)
    (h : ∃! x : ℝ, x ∈ Set.Ioo (s.lo : ℝ) s.hi ∧ (toReal cs).IsRoot x) : Isolating cs s [s] where
  within := by simp
  lo_lt_hi := by simpa using hlt
  ends := fun _ ht => List.mem_singleton.1 ht ▸ hends
  unique := by simpa using h
  sorted := List.pairwise_singleton _ _
  complete := fun _ hx _ => ⟨s, List.mem_singleton_self s, hx⟩

/-- The intervals on both sides of a number that is not a root. -/
theorem append {m : ℚ} {l r : List Interval} (hlo : s.lo ≤ m) (hhi : m ≤ s.hi)
    (hm : ¬(toPolynomial cs).IsRoot m) (left : Isolating cs ⟨s.lo, m⟩ l)
    (right : Isolating cs ⟨m, s.hi⟩ r) : Isolating cs s (l ++ r) where
  within := List.forall_mem_append.2
    ⟨fun t ht => ⟨(left.within t ht).1, (left.within t ht).2.trans hhi⟩,
      fun t ht => ⟨hlo.trans (right.within t ht).1, (right.within t ht).2⟩⟩
  lo_lt_hi := List.forall_mem_append.2 ⟨left.lo_lt_hi, right.lo_lt_hi⟩
  ends := List.forall_mem_append.2 ⟨left.ends, right.ends⟩
  unique := List.forall_mem_append.2 ⟨left.unique, right.unique⟩
  sorted := List.pairwise_append.2 ⟨left.sorted, right.sorted, fun t ht u hu =>
    (left.within t ht).2.trans (right.within u hu).1⟩
  complete := fun x hx hroot => by
    have hne : x ≠ (m : ℚ) := fun h => hm (isRoot_toReal_iff.1 (h ▸ hroot))
    rcases lt_or_gt_of_ne hne with hx' | hx'
    · obtain ⟨t, ht, hxt⟩ := left.complete x ⟨hx.1, hx'⟩ hroot
      exact ⟨t, List.mem_append_left r ht, hxt⟩
    · obtain ⟨t, ht, hxt⟩ := right.complete x ⟨hx', hx.2⟩ hroot
      exact ⟨t, List.mem_append_right l ht, hxt⟩

end Isolating

/-- What the bisection keeps. -/
theorem BisectsTo.isolating {s : Interval} {out : List Interval} (h : BisectsTo cs s out)
    (hlt : s.lo < s.hi) (hlo : ¬(toPolynomial cs).IsRoot s.lo)
    (hhi : ¬(toPolynomial cs).IsRoot s.hi) : Isolating cs s out := by
  have h0 : toPolynomial cs ≠ 0 := fun h => hlo (h ▸ eval_zero)
  induction h with
  | none h => exact .nil fun x hx => not_isRoot_of_descartesBound_eq_zero h0 hlo h hx
  | one h =>
    exact .singleton hlt ⟨hlo, hhi⟩ (existsUnique_isRoot_of_descartesBound_eq_one hlt hlo hhi h)
  | split h _ _ left right =>
    obtain ⟨hleft, hright, hsplit⟩ := splitPoint_spec h0 hlt
    exact .append hleft.le hright.le hsplit (left hleft hlo hsplit) (right hright hsplit hhi)

/-- A square-free polynomial whose list has no second coefficient has no roots. -/
theorem not_isRoot_of_length_lt (h0 : toPolynomial cs ≠ 0) (h : (trim cs).length < 2) (x : ℝ) :
    ¬(toReal cs).IsRoot x := by
  intro hroot
  have hdegree := natDegree_pos_iff_degree_pos.2 (degree_pos_of_root (toReal_ne_zero_iff.2 h0) hroot)
  rw [natDegree_toReal h0] at hdegree
  omega

theorem isolating_isolate (hcs : Squarefree (toPolynomial cs)) (h : 2 ≤ (trim cs).length) :
    Isolating (trim cs) ⟨-rootBound (trim cs), rootBound (trim cs)⟩ (isolate cs) := by
  obtain ⟨ds, c, hc, htrim⟩ := exists_trim_eq hcs.ne_zero
  have hpos := htrim ▸ rootBound_pos hc ds
  have hends : ∀ b : ℚ, |b| = rootBound (trim cs) → ¬(toPolynomial (trim cs)).IsRoot b := by
    intro b hb hroot
    have hlt := abs_lt_rootBound hc (isRoot_toReal_iff.2 (htrim ▸ hroot))
    rw [← htrim, ← hb, Rat.cast_abs] at hlt
    exact lt_irrefl _ hlt
  refine (bisectsTo_isolate hcs h).isolating (neg_lt_self hpos) (hends _ ?_) (hends _ ?_)
  · rw [abs_neg, abs_of_pos hpos]
  · exact abs_of_pos hpos

/-- The intervals are not empty and in order, their ends are not roots, and they isolate exactly the real
roots. -/
theorem isolate_spec (hcs : Squarefree (toPolynomial cs)) :
    (∀ s ∈ isolate cs, s.lo < s.hi ∧
      ¬(toPolynomial cs).IsRoot s.lo ∧ ¬(toPolynomial cs).IsRoot s.hi ∧
      ∃! x : ℝ, x ∈ Set.Ioo (s.lo : ℝ) s.hi ∧ (toReal cs).IsRoot x) ∧
    ((isolate cs).Pairwise fun s t => s.hi ≤ t.lo) ∧
    ∀ x : ℝ, (toReal cs).IsRoot x → ∃ s ∈ isolate cs, x ∈ Set.Ioo (s.lo : ℝ) s.hi := by
  by_cases hlen : (trim cs).length < 2
  · have hnil : isolate cs = [] := by
      simp only [isolate]
      exact if_pos hlen
    rw [hnil]
    refine ⟨by simp, .nil, fun x hx => absurd hx (not_isRoot_of_length_lt hcs.ne_zero hlen x)⟩
  · have hiso := isolating_isolate hcs (not_lt.1 hlen)
    obtain ⟨ds, c, hc, htrim⟩ := exists_trim_eq hcs.ne_zero
    have hunique := hiso.unique
    have hends := hiso.ends
    have hcomplete := hiso.complete
    rw [toReal_trim] at hcomplete hunique
    rw [toPolynomial_trim] at hends
    refine ⟨fun s hs => ⟨hiso.lo_lt_hi s hs, (hends s hs).1, (hends s hs).2, hunique s hs⟩,
      hiso.sorted, fun x hx => hcomplete x ?_ hx⟩
    have hlt := abs_lt_rootBound hc (x := x) (by rwa [← htrim, toReal_trim])
    rw [← htrim, abs_lt] at hlt
    exact ⟨by simpa using hlt.1, hlt.2⟩

theorem isolate_spec_sqrtTwo :
    Squarefree (toPolynomial [-2, 0, 1, 0]) ∧
      ∃ s ∈ isolate [-2, 0, 1, 0], √2 ∈ Set.Ioo (s.lo : ℝ) s.hi := by
  refine ⟨squarefree_sqrtTwo, (isolate_spec squarefree_sqrtTwo).2.2 √2 ?_⟩
  rw [toReal, toPolynomial_sqrtTwo]
  simp

end Univariate

end Cylindrical

end
