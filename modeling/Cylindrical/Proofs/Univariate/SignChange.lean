import Mathlib
import Cylindrical.Univariate.Isolation
import Cylindrical.Proofs.Univariate.Denotation

/-!
# Sign changes at simple roots

A real polynomial without roots in a closed interval has one sign there.  A square-free polynomial
changes its sign at a root, so its signs at the ends of an interval tell whether it has the only
possible root in there.
-/

noncomputable section

open Polynomial

namespace Cylindrical

/-! ## Square-free polynomials over the real numbers -/

theorem eval_mul_eval_pos {P : ℝ[X]} {a b : ℝ} (hab : a ≤ b)
    (h : ∀ x ∈ Set.Icc a b, ¬P.IsRoot x) : 0 < P.eval a * P.eval b := by
  by_contra hneg
  have ha := h a ⟨le_rfl, hab⟩
  have hb := h b ⟨hab, le_rfl⟩
  have hcont : ContinuousOn (fun x => P.eval x) (Set.Icc a b) := P.continuous.continuousOn
  rw [IsRoot] at ha hb
  rcases lt_or_gt_of_ne ha with ha | ha
  · have hb : 0 ≤ P.eval b := by
      by_contra hlt
      exact hneg (mul_pos_of_neg_of_neg ha (not_le.1 hlt))
    obtain ⟨x, hx, h0⟩ := intermediate_value_Icc hab hcont ⟨ha.le, hb⟩
    exact h x hx h0
  · have hb : P.eval b ≤ 0 := by
      by_contra hlt
      exact hneg (mul_pos ha (not_le.1 hlt))
    obtain ⟨x, hx, h0⟩ := intermediate_value_Icc' hab hcont ⟨hb, ha.le⟩
    exact h x hx h0

theorem exists_eq_mul_of_squarefree {P : ℝ[X]} (hP : Squarefree P) {ξ : ℝ} (hξ : P.IsRoot ξ) :
    ∃ Q : ℝ[X], P = (X - C ξ) * Q ∧ ¬Q.IsRoot ξ := by
  obtain ⟨Q, hQ⟩ := dvd_iff_isRoot.2 hξ
  refine ⟨Q, hQ, fun hroot => ?_⟩
  obtain ⟨R, hR⟩ := dvd_iff_isRoot.2 hroot
  refine not_isUnit_X_sub_C ξ (hP _ ⟨R, ?_⟩)
  rw [hQ, hR, mul_assoc]

theorem eval_mul_eval_neg {P : ℝ[X]} (hP : Squarefree P) {a b ξ : ℝ} (ha : a < ξ) (hb : ξ < b)
    (hξ : P.IsRoot ξ) (h : ∀ x ∈ Set.Icc a b, P.IsRoot x → x = ξ) :
    P.eval a * P.eval b < 0 := by
  obtain ⟨Q, rfl, hQ⟩ := exists_eq_mul_of_squarefree hP hξ
  have hpos : 0 < Q.eval a * Q.eval b := by
    refine eval_mul_eval_pos (ha.trans hb).le fun x hx hroot => hQ ?_
    rwa [← h x hx (hroot.dvd (dvd_mul_left _ _))]
  have hneg : (a - ξ) * (b - ξ) < 0 := mul_neg_of_neg_of_pos (sub_neg.2 ha) (sub_pos.2 hb)
  have heq : eval a ((X - C ξ) * Q) * eval b ((X - C ξ) * Q) =
      (a - ξ) * (b - ξ) * (Q.eval a * Q.eval b) := by
    simp only [eval_mul, eval_sub, eval_X, eval_C]
    ring
  rw [heq]
  exact mul_neg_of_neg_of_pos hneg hpos

namespace Univariate

theorem squarefree_toReal {cs : List ℚ} (h : Squarefree (toPolynomial cs)) :
    Squarefree (toReal cs) :=
  ((PerfectField.separable_iff_squarefree.2 h).map).squarefree

/-! ## Signs at rational points -/

section

variable {cs : List ℚ} {a b : ℚ}

theorem signAt_eq_signAt_iff (ha : ¬(toReal cs).IsRoot a) (hb : ¬(toReal cs).IsRoot b) :
    signAt cs a = signAt cs b ↔ 0 < (toReal cs).eval (a : ℝ) * (toReal cs).eval (b : ℝ) := by
  rw [← eval_ne_zero_iff] at ha hb
  rw [signAt, signAt, compareZero_eq_iff ha hb, eval_toReal_cast, eval_toReal_cast, ← Rat.cast_mul,
    Rat.cast_pos]

theorem signAt_eq_of_forall_not_isRoot (hab : a ≤ b)
    (h : ∀ x ∈ Set.Icc (a : ℝ) b, ¬(toReal cs).IsRoot x) : signAt cs a = signAt cs b := by
  have hab : (a : ℝ) ≤ b := Rat.cast_le.2 hab
  rw [signAt_eq_signAt_iff (h _ ⟨le_rfl, hab⟩) (h _ ⟨hab, le_rfl⟩)]
  exact eval_mul_eval_pos hab h

theorem signAt_ne_of_isRoot (hcs : Squarefree (toReal cs)) {ξ : ℝ} (ha : (a : ℝ) < ξ)
    (hb : ξ < (b : ℝ)) (hξ : (toReal cs).IsRoot ξ)
    (h : ∀ x ∈ Set.Icc (a : ℝ) b, (toReal cs).IsRoot x → x = ξ) :
    signAt cs a ≠ signAt cs b := by
  have ha' : ¬(toReal cs).IsRoot (a : ℝ) := fun hr => ha.ne (h _ ⟨le_rfl, (ha.trans hb).le⟩ hr)
  have hb' : ¬(toReal cs).IsRoot (b : ℝ) := fun hr => hb.ne' (h _ ⟨(ha.trans hb).le, le_rfl⟩ hr)
  rw [Ne, signAt_eq_signAt_iff ha' hb', not_lt]
  exact (eval_mul_eval_neg hcs ha hb hξ h).le

end

/-! ## Split points -/

theorem card_le_of_isRoot {cs : List ℚ} (h0 : toPolynomial cs ≠ 0) {s : Finset ℚ}
    (h : ∀ x ∈ s, (toPolynomial cs).IsRoot x) : s.card < cs.length := by
  have hle : s.card ≤ (toPolynomial cs).natDegree :=
    card_le_degree_of_subset_roots fun x hx => (mem_roots h0).2 (h x hx)
  have hlt := degree_toPolynomial_lt cs
  rw [degree_eq_natDegree h0, Nat.cast_lt] at hlt
  omega

/-- The candidates for a split point, after `s` of them at least `step` above the midpoint have turned
out to be roots. -/
theorem nextSplit_spec {cs : List ℚ} (h0 : toPolynomial cs ≠ 0) {m : ℚ} {n : ℕ} {step : ℚ}
    (hstep : 0 < step) (s : Finset ℚ) (hs : ∀ x ∈ s, (toPolynomial cs).IsRoot x)
    (hout : ∀ x ∈ s, x = m ∨ m + step ≤ x) (hcard : cs.length ≤ s.card + n) :
    m < nextSplit cs m n step ∧ nextSplit cs m n step < m + step ∧
      ¬(toPolynomial cs).IsRoot (nextSplit cs m n step) := by
  induction n generalizing step s with
  | zero => exact absurd (card_le_of_isRoot h0 hs) (by omega)
  | succ n ih =>
    rw [nextSplit]
    split_ifs with hroot
    · have hnew : m + step / 2 ∉ s := fun hmem => by
        rcases hout _ hmem with h | h <;> linarith
      obtain ⟨h₁, h₂, h₃⟩ := ih (half_pos hstep) (insert (m + step / 2) s)
        (by
          intro x hx
          rcases Finset.mem_insert.1 hx with rfl | hx
          · exact signAt_eq_eq_iff.1 hroot
          · exact hs x hx)
        (by
          intro x hx
          rcases Finset.mem_insert.1 hx with rfl | hx
          · exact .inr le_rfl
          · exact (hout x hx).imp_right fun h => by linarith)
        (by
          rw [Finset.card_insert_of_notMem hnew]
          omega)
      exact ⟨h₁, by linarith, h₃⟩
    · exact ⟨by linarith, by linarith, fun h => hroot (signAt_eq_eq_iff.2 h)⟩

/-- Split points lie inside the interval and are not roots. -/
theorem splitPoint_spec {cs : List ℚ} (h0 : toPolynomial cs ≠ 0) {lo hi : ℚ} (h : lo < hi) :
    lo < splitPoint cs lo hi ∧ splitPoint cs lo hi < hi ∧
      ¬(toPolynomial cs).IsRoot (splitPoint cs lo hi) := by
  rw [splitPoint]
  split_ifs with hmid
  · have hstep : 0 < (hi - lo) / 2 := half_pos (sub_pos.2 h)
    obtain ⟨h₁, h₂, h₃⟩ := nextSplit_spec h0 (n := cs.length) hstep {(lo + hi) / 2}
      (m := (lo + hi) / 2) (by simpa using signAt_eq_eq_iff.1 hmid) (by simp) (by simp)
    exact ⟨by linarith, by linarith, h₃⟩
  · exact ⟨by linarith, by linarith, fun h => hmid (signAt_eq_eq_iff.2 h)⟩

theorem nextSplit_eq (cs : List ℚ) (m step : ℚ) (n : ℕ) :
    ∃ t : ℚ, 0 < t ∧ t ≤ 1 / 2 ∧ nextSplit cs m n step = m + t * step := by
  induction n generalizing step with
  | zero => exact ⟨1 / 2, by norm_num, le_rfl, by rw [nextSplit]; ring⟩
  | succ n ih =>
    rw [nextSplit]
    split_ifs
    · obtain ⟨t, hpos, hle, ht⟩ := ih (step / 2)
      exact ⟨t / 2, by linarith, by linarith, by rw [ht]; ring⟩
    · exact ⟨1 / 2, by norm_num, le_rfl, by ring⟩

/-- Split points are in the third quarter of an interval, also of one that is given upside down. -/
theorem splitPoint_eq (cs : List ℚ) (lo hi : ℚ) :
    ∃ t : ℚ, 1 / 2 ≤ t ∧ t ≤ 3 / 4 ∧ splitPoint cs lo hi = lo + t * (hi - lo) := by
  rw [splitPoint]
  split_ifs
  · obtain ⟨t, hpos, hle, ht⟩ := nextSplit_eq cs ((lo + hi) / 2) ((hi - lo) / 2) cs.length
    exact ⟨1 / 2 + t / 2, by linarith, by linarith, by rw [ht]; ring⟩
  · exact ⟨1 / 2, le_rfl, by norm_num, by ring⟩

end Univariate

end Cylindrical

end
