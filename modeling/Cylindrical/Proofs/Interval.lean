import Mathlib
import Cylindrical.Interval.Basic
import Cylindrical.Proofs.Poly.Value

/-!
# Enclosures

Interval arithmetic encloses: what is computed from enclosures of numbers encloses the result of the
same operation on the numbers, also after rounding.  The value of a polynomial is enclosed as long as
its exponents count as they are, that is, below `2 ^ 31`.
-/

noncomputable section

namespace Cylindrical

theorem minRat_eq_min (x y : ℚ) : minRat x y = min x y := by
  rw [minRat]
  split_ifs with h
  · exact (min_eq_right h.le).symm
  · exact (min_eq_left (not_lt.1 h)).symm

theorem maxRat_eq_max (x y : ℚ) : maxRat x y = max x y := by
  rw [maxRat]
  split_ifs with h
  · exact (max_eq_right h.le).symm
  · exact (max_eq_left (not_lt.1 h)).symm

theorem twoPow_pos (k : ℕ) : 0 < twoPow k := by
  rw [twoPow]
  exact_mod_cast Nat.pow_pos (n := k) (by omega : 0 < 2)

namespace Interval

/-- The number lies in the closed interval. -/
def Encloses (s : Interval) (x : ℝ) : Prop := (s.lo : ℝ) ≤ x ∧ x ≤ (s.hi : ℝ)

namespace Encloses

variable {s t : Interval} {x y : ℝ}

theorem point (r : ℚ) : (point r).Encloses (r : ℝ) := ⟨le_rfl, le_rfl⟩

theorem le (h : s.Encloses x) : s.lo ≤ s.hi := Rat.cast_le.1 (h.1.trans h.2)

theorem add (hx : s.Encloses x) (hy : t.Encloses y) : (s + t).Encloses (x + y) := by
  refine ⟨?_, ?_⟩
  · show ((s.lo + t.lo : ℚ) : ℝ) ≤ _
    rw [Rat.cast_add]
    exact add_le_add hx.1 hy.1
  · show _ ≤ ((s.hi + t.hi : ℚ) : ℝ)
    rw [Rat.cast_add]
    exact add_le_add hx.2 hy.2

/-- A bound for the products at both ends is one in between. -/
theorem mul_le_of_ends {a b x y u : ℝ} (ha : a ≤ x) (hb : x ≤ b) (h₁ : a * y ≤ u)
    (h₂ : b * y ≤ u) : x * y ≤ u := by
  rcases le_total 0 y with hy | hy
  · exact (mul_le_mul_of_nonneg_right hb hy).trans h₂
  · exact (mul_le_mul_of_nonpos_right ha hy).trans h₁

theorem mul (hx : s.Encloses x) (hy : t.Encloses y) : (s * t).Encloses (x * y) := by
  have hupper : ∀ u : ℝ, s.lo * t.lo ≤ u → s.lo * t.hi ≤ u → s.hi * t.lo ≤ u → s.hi * t.hi ≤ u →
      x * y ≤ u := by
    intro u h₁ h₂ h₃ h₄
    refine mul_le_of_ends hx.1 hx.2 ?_ ?_
    · rw [mul_comm] at h₁ h₂ ⊢
      exact mul_le_of_ends hy.1 hy.2 h₁ h₂
    · rw [mul_comm] at h₃ h₄ ⊢
      exact mul_le_of_ends hy.1 hy.2 h₃ h₄
  have hlower : ∀ u : ℝ, u ≤ s.lo * t.lo → u ≤ s.lo * t.hi → u ≤ s.hi * t.lo → u ≤ s.hi * t.hi →
      u ≤ x * y := by
    intro u h₁ h₂ h₃ h₄
    have hneg := mul_le_of_ends (y := y) (u := -u) (neg_le_neg hx.2) (neg_le_neg hx.1) ?_ ?_
    · rw [neg_mul] at hneg
      exact neg_le_neg_iff.1 hneg
    · rw [neg_mul, mul_comm, ← neg_mul]
      exact mul_le_of_ends (neg_le_neg hy.2) (neg_le_neg hy.1)
        (by rw [neg_mul, mul_comm]; exact neg_le_neg h₄)
        (by rw [neg_mul, mul_comm]; exact neg_le_neg h₃)
    · rw [neg_mul, mul_comm, ← neg_mul]
      exact mul_le_of_ends (neg_le_neg hy.2) (neg_le_neg hy.1)
        (by rw [neg_mul, mul_comm]; exact neg_le_neg h₂)
        (by rw [neg_mul, mul_comm]; exact neg_le_neg h₁)
  constructor
  · show ((minRat (minRat (minRat (s.lo * t.lo) (s.lo * t.hi)) (s.hi * t.lo)) (s.hi * t.hi) : ℚ) :
      ℝ) ≤ x * y
    simp only [minRat_eq_min, Rat.cast_min, Rat.cast_mul]
    refine hlower _ ?_ ?_ ?_ ?_ <;> simp
  · show x * y ≤ ((maxRat (maxRat (maxRat (s.lo * t.lo) (s.lo * t.hi)) (s.hi * t.lo))
      (s.hi * t.hi) : ℚ) : ℝ)
    simp only [maxRat_eq_max, Rat.cast_max, Rat.cast_mul]
    refine hupper _ ?_ ?_ ?_ ?_ <;> simp

/-- An even power is at most the larger one of those of the ends. -/
theorem pow_le_max_of_even {a b x : ℝ} {k : ℕ} (hk : Even k) (ha : a ≤ x) (hb : x ≤ b) :
    x ^ k ≤ max (a ^ k) (b ^ k) := by
  rw [le_max_iff]
  rcases le_total 0 x with h | h
  · exact .inr (pow_le_pow_left₀ h hb k)
  · refine .inl ?_
    rw [← hk.neg_pow x, ← hk.neg_pow a]
    exact pow_le_pow_left₀ (by linarith) (by linarith) k

/-- Away from zero an even power is at least the smaller one of those of the ends. -/
theorem min_le_pow_of_even {a b x : ℝ} {k : ℕ} (hk : Even k) (ha : a ≤ x) (hb : x ≤ b)
    (h : 0 ≤ a ∨ b ≤ 0) : min (a ^ k) (b ^ k) ≤ x ^ k := by
  rw [min_le_iff]
  rcases h with h | h
  · exact .inl (pow_le_pow_left₀ h ha k)
  · refine .inr ?_
    rw [← hk.neg_pow x, ← hk.neg_pow b]
    exact pow_le_pow_left₀ (by linarith) (by linarith) k

theorem nonneg_or_nonpos (h : ¬(s.lo < 0 && 0 < s.hi) = true) :
    0 ≤ (s.lo : ℝ) ∨ (s.hi : ℝ) ≤ 0 := by
  by_contra hneg
  push Not at hneg
  refine h ?_
  simp only [Bool.and_eq_true, decide_eq_true_eq]
  exact ⟨by exact_mod_cast hneg.1, by exact_mod_cast hneg.2⟩

theorem pow (hx : s.Encloses x) {k : ℕ} (hk : k < Nat.pow 2 31) : (s.pow k).Encloses (x ^ k) := by
  obtain ⟨hlo, hhi⟩ := hx
  have hcast : ∀ r : ℚ, ((signedPow r k : ℚ) : ℝ) = (r : ℝ) ^ k := fun r => by
    rw [signedPow_of_lt r hk, ← Rat.cast_pow]
    rfl
  have hcastle : ∀ {q r : ℚ}, signedPow q k ≤ signedPow r k → (q : ℝ) ^ k ≤ (r : ℝ) ^ k :=
    fun h => by
      rw [← hcast, ← hcast]
      exact_mod_cast h
  rw [Interval.pow]
  simp only
  split_ifs with h0 hodd hzero hle
  · rw [h0, pow_zero]
    exact ⟨by simp [Interval.point], by simp [Interval.point]⟩
  · have hodd : Odd k := Nat.odd_iff.2 hodd
    refine ⟨?_, ?_⟩
    · rw [hcast]
      exact hodd.pow_le_pow.2 hlo
    · rw [hcast]
      exact hodd.pow_le_pow.2 hhi
  · have heven : Even k := Nat.even_iff.2 (by omega)
    refine ⟨?_, ?_⟩
    · rw [Rat.cast_zero]
      exact heven.pow_nonneg x
    · rw [maxRat_eq_max, Rat.cast_max, hcast, hcast]
      exact pow_le_max_of_even heven hlo hhi
  · have heven : Even k := Nat.even_iff.2 (by omega)
    have hmin := min_le_pow_of_even heven hlo hhi (nonneg_or_nonpos hzero)
    have hmax := pow_le_max_of_even heven hlo hhi
    rw [min_eq_left (hcastle hle)] at hmin
    rw [max_eq_right (hcastle hle)] at hmax
    exact ⟨by rwa [hcast], by rwa [hcast]⟩
  · have heven : Even k := Nat.even_iff.2 (by omega)
    have hmin := min_le_pow_of_even heven hlo hhi (nonneg_or_nonpos hzero)
    have hmax := pow_le_max_of_even heven hlo hhi
    rw [min_eq_right (hcastle (not_le.1 hle).le)] at hmin
    rw [max_eq_left (hcastle (not_le.1 hle).le)] at hmax
    exact ⟨by rwa [hcast], by rwa [hcast]⟩

theorem mono (hx : s.Encloses x) (hlo : t.lo ≤ s.lo) (hhi : s.hi ≤ t.hi) : t.Encloses x :=
  ⟨(Rat.cast_le.2 hlo).trans hx.1, hx.2.trans (Rat.cast_le.2 hhi)⟩

theorem roundOutward (hx : s.Encloses x) (prec : ℕ) : (s.roundOutward prec).Encloses x := by
  have hpos := twoPow_pos prec
  refine hx.mono ?_ ?_
  · rw [Interval.roundOutward, div_le_iff₀ hpos]
    exact Rat.floor_le _
  · rw [Interval.roundOutward, le_div_iff₀ hpos]
    exact Rat.le_ceil

/-- The sign of an enclosure is the sign of the number. -/
theorem sign? (hx : s.Encloses x) :
    (s.sign? = some .gt → 0 < x) ∧ (s.sign? = some .lt → x < 0) := by
  rw [Interval.sign?]
  split_ifs with h₁ h₂ h₃
  · have h : (0 : ℝ) < s.lo := by exact_mod_cast h₁
    exact ⟨fun _ => h.trans_le hx.1, by simp⟩
  · have h : (s.hi : ℝ) < 0 := by exact_mod_cast h₂
    exact ⟨by simp, fun _ => hx.2.trans_lt h⟩
  · simp
  · simp

theorem containsZero (hs : s.Encloses 0) : s.containsZero = true := by
  obtain ⟨h₁, h₂⟩ := hs
  rw [Interval.containsZero]
  simp only [Bool.and_eq_true, decide_eq_true_eq]
  exact ⟨by exact_mod_cast h₁, by exact_mod_cast h₂⟩

end Encloses

/-! ## Values of polynomials -/

theorem aeval_monomial_exponentsOf (x : ℕ → ℝ) (c : ℚ) (p : ℕ × ℕ) (ps : List (ℕ × ℕ)) :
    MvPolynomial.aeval x (MvPolynomial.monomial (exponentsOf (p :: ps)) c) =
      MvPolynomial.aeval x (MvPolynomial.monomial (exponentsOf ps) c) * x p.1 ^ p.2 := by
  have h : MvPolynomial.monomial (exponentsOf (p :: ps)) c =
      MvPolynomial.monomial (exponentsOf ps) c * MvPolynomial.X p.1 ^ p.2 := by
    rw [MvPolynomial.X_pow_eq_monomial, MvPolynomial.monomial_mul, mul_one, exponentsOf_cons,
      add_comm]
  rw [h, map_mul, map_pow, MvPolynomial.aeval_X]

section

variable {box : ℕ → Option Interval} {x : ℕ → ℝ}

theorem encloses_of_evalPowers? (hbox : ∀ v s, box v = some s → s.Encloses (x v)) {prec : ℕ} {c : ℚ}
    {ps : List (ℕ × ℕ)} (hps : ∀ p ∈ ps, p.2 < Nat.pow 2 31) {s : Interval}
    (h : evalPowers? prec box c ps = some s) :
    s.Encloses (MvPolynomial.aeval x (MvPolynomial.monomial (exponentsOf ps) c)) := by
  induction ps generalizing s with
  | nil =>
    obtain rfl := Option.some.inj h
    rw [exponentsOf_nil, MvPolynomial.monomial_zero', MvPolynomial.aeval_C]
    exact .point c
  | cons p ps ih =>
    rw [evalPowers?] at h
    split at h
    · rename_i t y ht hy
      obtain rfl := Option.some.inj h
      rw [aeval_monomial_exponentsOf]
      exact ((ih (fun q hq => hps q (.tail _ hq)) ht).mul
        ((hbox _ _ hy).pow (hps p (.head _)))).roundOutward prec
    · cases h

theorem encloses_of_evalTerms? (hbox : ∀ v s, box v = some s → s.Encloses (x v)) {prec : ℕ}
    {acc : Interval} {y : ℝ} (hacc : acc.Encloses y) {ts : List Term}
    (hts : ∀ t ∈ ts, ∀ p ∈ t.monomial.powers, p.2 < Nat.pow 2 31) {s : Interval}
    (h : evalTerms? prec box acc ts = some s) :
    s.Encloses (y + MvPolynomial.aeval x (sumOf ts)) := by
  induction ts generalizing acc y with
  | nil =>
    obtain rfl := Option.some.inj h
    simpa using hacc
  | cons t ts ih =>
    rw [evalTerms?] at h
    split at h
    · rename_i u hu
      have hu := encloses_of_evalPowers? hbox (hts t (.head _)) hu
      have := ih (hacc.add hu) (fun r hr => hts r (.tail _ hr)) h
      rwa [add_assoc, ← map_add] at this
    · cases h

/-- The value of a polynomial over a box is enclosed. -/
theorem encloses_of_evalPoly? (hbox : ∀ v s, box v = some s → s.Encloses (x v)) {prec : ℕ} {p : Poly}
    (hp : ∀ v, p.degreeOf v < Nat.pow 2 31) {s : Interval} (h : evalPoly? prec box p = some s) :
    s.Encloses (p.value x) := by
  obtain ⟨t, ht, rfl⟩ := Option.map_eq_some_iff.1 h
  have h0 : (point 0).Encloses 0 := by simpa using Encloses.point 0
  have := encloses_of_evalTerms? hbox h0 (fun t ht q hq => ?_) ht
  · rw [zero_add] at this
    exact this.roundOutward prec
  · have hle := Poly.degreeOf_le_iff.1 (le_refl (p.degreeOf q.1)) t ht
    have hq : q.2 ≤ t.monomial.toFinsupp q.1 := snd_le_exponentsOf hq
    rw [Monomial.toFinsupp_apply] at hq
    have := hp q.1
    omega

end

end Interval

end Cylindrical

end
