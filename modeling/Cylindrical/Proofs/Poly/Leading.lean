import Mathlib
import Cylindrical.Monomial.WellOrder
import Cylindrical.Proofs.Poly.Normal

/-!
# Leading terms

In every monomial order the leading term of a product is the product of the leading terms.  So in the
graded lexicographic order the canonical form, the leading coefficient of which is positive, is
determined up to a positive number, and products of polynomials with positive leading coefficients
have positive leading coefficients.
-/

noncomputable section

open MvPolynomial

namespace Cylindrical

/-! ## The order of exponents -/

/-- The lexicographic comparison looks at the largest variable with different exponents. -/
theorem lexCompare_eq_lt_iff {ps qs : List (ℕ × ℕ)} (hp : PowerList ps) (hq : PowerList qs) :
    lexCompare ps qs = .lt ↔ ∃ v, exponentIn v ps < exponentIn v qs ∧
      ∀ w, v < w → exponentIn w ps = exponentIn w qs := by
  induction ps generalizing qs with
  | nil =>
    cases qs with
    | nil => simp [lexCompare, exponentIn]
    | cons q qs =>
      refine iff_of_true rfl ⟨q.1, ?_, fun w hw => ?_⟩
      · rw [exponentIn, exponentIn, if_pos rfl]
        exact hq.head_pos
      · rw [exponentIn, exponentIn, if_neg hw.ne,
          exponentIn_of_lt fun r hr => (hq.lt_head r hr).trans hw]
  | cons p ps ih =>
    cases qs with
    | nil => simp [lexCompare, exponentIn]
    | cons q qs =>
      have hp0 := hp.head_pos
      have hq0 := hq.head_pos
      have hps : ∀ {w}, p.1 ≤ w → exponentIn w ps = 0 := fun hw =>
        exponentIn_of_lt fun r hr => (hp.lt_head r hr).trans_le hw
      have hqs : ∀ {w}, q.1 ≤ w → exponentIn w qs = 0 := fun hw =>
        exponentIn_of_lt fun r hr => (hq.lt_head r hr).trans_le hw
      rw [lexCompare_cons_eq_lt, ih hp.tail hq.tail]
      simp only [exponentIn]
      constructor
      · rintro (hlt | ⟨heq, hlt⟩ | ⟨rfl, v, hv, hw⟩)
        · refine ⟨q.1, by rw [if_neg hlt.ne, hps hlt.le, if_pos rfl]; exact hq0, fun w hw => ?_⟩
          rw [if_neg (hlt.trans hw).ne, if_neg hw.ne, hps (hlt.trans hw).le, hqs hw.le]
        · refine ⟨q.1, by rw [if_pos heq, if_pos rfl]; exact hlt, fun w hw => ?_⟩
          rw [if_neg (heq ▸ hw).ne, if_neg hw.ne, hps (heq ▸ hw).le, hqs hw.le]
        · have hvp : p.1 ≠ v := fun h => by
            rw [hps h.le, hqs h.le] at hv
            exact lt_irrefl 0 hv
          refine ⟨v, by rwa [if_neg hvp, if_neg hvp], fun w hvw => ?_⟩
          split_ifs
          · rfl
          · exact hw w hvw
      · rintro ⟨v, hv, hw⟩
        have hle : v ≤ q.1 := by
          by_contra hgt
          rw [if_neg (by omega : q.1 ≠ v), hqs (by omega)] at hv
          exact Nat.not_lt_zero _ hv
        rcases lt_trichotomy p.1 q.1 with hlt | heq | hgt
        · exact .inl hlt
        · rcases lt_trichotomy p.2 q.2 with hlt₂ | heq₂ | hgt₂
          · exact .inr (.inl ⟨heq, hlt₂⟩)
          · have hvp : p.1 ≠ v := fun h => by
              rw [if_pos h, if_pos (heq ▸ h), heq₂] at hv
              exact lt_irrefl _ hv
            rw [if_neg hvp, if_neg (heq ▸ hvp)] at hv
            refine .inr (.inr ⟨Prod.ext heq heq₂, v, hv, fun w hvw => ?_⟩)
            by_cases hwp : p.1 = w
            · rw [hps hwp.le, hqs (heq ▸ hwp).le]
            · have := hw w hvw
              rwa [if_neg hwp, if_neg (heq ▸ hwp)] at this
          · exfalso
            rcases hle.lt_or_eq with hlt | rfl
            · have := hw q.1 hlt
              rw [if_pos heq, if_pos rfl] at this
              omega
            · rw [if_pos heq, if_pos rfl] at hv
              omega
        · exfalso
          have := hw p.1 (hle.trans_lt hgt)
          rw [if_pos rfl, if_neg hgt.ne, hqs hgt.le] at this
          omega

theorem Ascending.exponentIn_tail {p : ℕ × ℕ} {ps : List (ℕ × ℕ)} (h : Ascending (p :: ps)) {w : ℕ}
    (hw : w ≤ p.1) : exponentIn w ps = 0 :=
  exponentIn_eq_zero fun r hr => (hw.trans_lt ((List.pairwise_cons.1 h.ascending).1 r hr)).ne'

/-- The reverse lexicographic comparison looks at the least variable with different exponents. -/
theorem revLexCompare_eq_lt_iff {ps qs : List (ℕ × ℕ)} (hp : Ascending ps) (hq : Ascending qs) :
    revLexCompare ps qs = .lt ↔ ∃ v, exponentIn v qs < exponentIn v ps ∧
      ∀ w, w < v → exponentIn w ps = exponentIn w qs := by
  induction ps generalizing qs with
  | nil => cases qs <;> simp [revLexCompare, exponentIn]
  | cons p ps ih =>
    have hps : ∀ {w}, w ≤ p.1 → exponentIn w ps = 0 := hp.exponentIn_tail
    cases qs with
    | nil =>
      refine iff_of_true rfl ⟨p.1, ?_, fun w hw => ?_⟩
      · rw [exponentIn, exponentIn, if_pos rfl]
        exact hp.head_pos
      · rw [exponentIn, exponentIn, if_neg hw.ne', hps hw.le]
    | cons q qs =>
      have hp0 := hp.head_pos
      have hq0 := hq.head_pos
      have hqs : ∀ {w}, w ≤ q.1 → exponentIn w qs = 0 := hq.exponentIn_tail
      rw [revLexCompare_cons_eq_lt, ih hp.tail hq.tail]
      simp only [exponentIn]
      constructor
      · rintro (hlt | ⟨heq, hlt⟩ | ⟨rfl, v, hv, hw⟩)
        · refine ⟨p.1, by rw [if_neg hlt.ne', hqs hlt.le, if_pos rfl]; exact hp0, fun w hw => ?_⟩
          rw [if_neg (hw.trans hlt).ne', if_neg hw.ne', hps hw.le, hqs (hw.trans hlt).le]
        · refine ⟨p.1, by rw [if_pos heq.symm, if_pos rfl]; exact hlt, fun w hw => ?_⟩
          rw [if_neg hw.ne', if_neg (heq ▸ hw).ne', hps hw.le, hqs (heq ▸ hw).le]
        · have hvp : p.1 ≠ v := fun h => by
            rw [hps h.ge, hqs h.ge] at hv
            exact lt_irrefl 0 hv
          refine ⟨v, by rwa [if_neg hvp, if_neg hvp], fun w hvw => ?_⟩
          split_ifs
          · rfl
          · exact hw w hvw
      · rintro ⟨v, hv, hw⟩
        have hle : p.1 ≤ v := by
          by_contra hgt
          rw [if_neg (by omega : p.1 ≠ v), hps (by omega)] at hv
          exact Nat.not_lt_zero _ hv
        rcases lt_trichotomy p.1 q.1 with hlt | heq | hgt
        · exact .inl hlt
        · rcases lt_trichotomy q.2 p.2 with hlt₂ | heq₂ | hgt₂
          · exact .inr (.inl ⟨heq, hlt₂⟩)
          · have hvp : p.1 ≠ v := fun h => by
              rw [if_pos h, if_pos (heq ▸ h), heq₂] at hv
              exact lt_irrefl _ hv
            rw [if_neg hvp, if_neg (heq ▸ hvp)] at hv
            refine .inr (.inr ⟨Prod.ext heq heq₂.symm, v, hv, fun w hvw => ?_⟩)
            by_cases hwp : p.1 = w
            · rw [hps hwp.ge, hqs (heq ▸ hwp).ge]
            · have := hw w hvw
              rwa [if_neg hwp, if_neg (heq ▸ hwp)] at this
          · exfalso
            rcases hle.lt_or_eq with hlt | rfl
            · have := hw p.1 hlt
              rw [if_pos rfl, if_pos heq.symm] at this
              omega
            · rw [if_pos rfl, if_pos heq.symm] at hv
              omega
        · exfalso
          have := hw q.1 (hgt.trans_le hle)
          rw [if_pos rfl, if_neg hgt.ne', hps hgt.le] at this
          omega

theorem exponentIn_append (v : ℕ) (ps qs : List (ℕ × ℕ)) (h : ∀ q ∈ qs, q.1 ≠ v) :
    exponentIn v (ps ++ qs) = exponentIn v ps := by
  induction ps with
  | nil => exact exponentIn_eq_zero h
  | cons p ps ih => rw [List.cons_append, exponentIn, exponentIn, ih]

theorem exponentIn_append_of_ne {v : ℕ} {ps qs : List (ℕ × ℕ)} (h : ∀ p ∈ ps, p.1 ≠ v) :
    exponentIn v (ps ++ qs) = exponentIn v qs := by
  induction ps with
  | nil => rfl
  | cons p ps ih =>
    rw [List.cons_append, exponentIn, if_neg (h p (.head _)), ih fun r hr => h r (.tail _ hr)]

theorem exponentIn_reverse {ps : List (ℕ × ℕ)} (h : PowerList ps) (v : ℕ) :
    exponentIn v ps.reverse = exponentIn v ps := by
  induction ps with
  | nil => rfl
  | cons p ps ih =>
    rw [List.reverse_cons, exponentIn]
    split_ifs with hp
    · rw [exponentIn_append_of_ne, exponentIn, if_pos hp]
      exact fun r hr => hp ▸ (h.lt_head r (List.mem_reverse.1 hr)).ne
    · rw [exponentIn_append v _ _ (List.forall_mem_singleton.2 hp), ih h.tail]

theorem degree_exponentsOf (ps : List (ℕ × ℕ)) : (exponentsOf ps).degree = degreeSum ps := by
  induction ps with
  | nil => rfl
  | cons p ps ih => rw [exponentsOf_cons, map_add, Finsupp.degree_single, ih, degreeSum]

theorem Monomial.degree_toFinsupp (m : Monomial) : m.toFinsupp.degree = m.totalDegree := by
  rw [toFinsupp, degree_exponentsOf, m.totalDegree_eq]

/-- The lexicographic order of exponents, in which a larger variable weighs more. -/
def LexLT (m n : ℕ →₀ ℕ) : Prop := ∃ v, m v < n v ∧ ∀ w, v < w → m w = n w

/-- The reverse lexicographic order of exponents, in which the smaller power of the least variable is
the larger. -/
def RevLexLT (m n : ℕ →₀ ℕ) : Prop := ∃ v, n v < m v ∧ ∀ w, w < v → m w = n w

namespace MonomialOrder

/-- The order of exponents by which power products are compared. -/
def ExponentLT : MonomialOrder → (ℕ →₀ ℕ) → (ℕ →₀ ℕ) → Prop
  | lex, m, n => LexLT m n
  | grLex, m, n => m.degree < n.degree ∨ m.degree = n.degree ∧ LexLT m n
  | gRevLex, m, n => m.degree < n.degree ∨ m.degree = n.degree ∧ RevLexLT m n

theorem compare_eq_lt_iff {o : MonomialOrder} {a b : Monomial} :
    o.compare a b = .lt ↔ o.ExponentLT a.toFinsupp b.toFinsupp := by
  have hlex : lexCompare a.powers b.powers = .lt ↔ LexLT a.toFinsupp b.toFinsupp := by
    simp only [lexCompare_eq_lt_iff a.valid b.valid, LexLT, Monomial.toFinsupp_apply,
      Monomial.degreeOf]
  have hrev : revLexCompare a.powers.reverse b.powers.reverse = .lt ↔
      RevLexLT a.toFinsupp b.toFinsupp := by
    simp only [revLexCompare_eq_lt_iff a.valid.reverse b.valid.reverse, RevLexLT,
      exponentIn_reverse a.valid, exponentIn_reverse b.valid, Monomial.toFinsupp_apply,
      Monomial.degreeOf]
  cases o <;>
    simp only [compare, ExponentLT, Ordering.then_eq_lt, Nat.compare_eq_lt, Nat.compare_eq_eq,
      hlex, hrev, Monomial.degree_toFinsupp]

end MonomialOrder

/-! ### Sums of exponents -/

section

variable {m n k l : ℕ →₀ ℕ}

theorem LexLT.add_right (h : LexLT m n) (k : ℕ →₀ ℕ) : LexLT (m + k) (n + k) := by
  obtain ⟨v, hv, hw⟩ := h
  refine ⟨v, ?_, fun w hvw => ?_⟩
  · simp only [Finsupp.add_apply]
    omega
  · simp only [Finsupp.add_apply, hw w hvw]

theorem RevLexLT.add_right (h : RevLexLT m n) (k : ℕ →₀ ℕ) : RevLexLT (m + k) (n + k) := by
  obtain ⟨v, hv, hw⟩ := h
  refine ⟨v, ?_, fun w hvw => ?_⟩
  · simp only [Finsupp.add_apply]
    omega
  · simp only [Finsupp.add_apply, hw w hvw]

theorem LexLT.trans (h₁ : LexLT m n) (h₂ : LexLT n k) : LexLT m k := by
  obtain ⟨v, hv, hv'⟩ := h₁
  obtain ⟨w, hw, hw'⟩ := h₂
  refine ⟨max v w, ?_, fun u hu => ?_⟩
  · rcases lt_trichotomy v w with hlt | rfl | hgt
    · rw [max_eq_right hlt.le, hv' w hlt]
      exact hw
    · rw [max_self]
      exact hv.trans hw
    · rw [max_eq_left hgt.le, ← hw' v hgt]
      exact hv
  · rw [hv' u (lt_of_le_of_lt (le_max_left ..) hu), hw' u (lt_of_le_of_lt (le_max_right ..) hu)]

theorem RevLexLT.trans (h₁ : RevLexLT m n) (h₂ : RevLexLT n k) : RevLexLT m k := by
  obtain ⟨v, hv, hv'⟩ := h₁
  obtain ⟨w, hw, hw'⟩ := h₂
  refine ⟨min v w, ?_, fun u hu => ?_⟩
  · rcases lt_trichotomy v w with hlt | rfl | hgt
    · rw [min_eq_left hlt.le, ← hw' v hlt]
      exact hv
    · rw [min_self]
      exact hw.trans hv
    · rw [min_eq_right hgt.le, hv' w hgt]
      exact hw
  · rw [hv' u (lt_of_lt_of_le hu (min_le_left ..)), hw' u (lt_of_lt_of_le hu (min_le_right ..))]

end

namespace MonomialOrder.ExponentLT

variable {o : MonomialOrder} {m n k l : ℕ →₀ ℕ}

theorem add_right (h : o.ExponentLT m n) (k : ℕ →₀ ℕ) : o.ExponentLT (m + k) (n + k) := by
  cases o with
  | lex => exact LexLT.add_right h k
  | grLex =>
    rcases h with h | ⟨hd, h⟩
    · exact .inl (by simp only [map_add]; omega)
    · exact .inr ⟨by simp only [map_add]; omega, h.add_right k⟩
  | gRevLex =>
    rcases h with h | ⟨hd, h⟩
    · exact .inl (by simp only [map_add]; omega)
    · exact .inr ⟨by simp only [map_add]; omega, h.add_right k⟩

theorem trans (h₁ : o.ExponentLT m n) (h₂ : o.ExponentLT n k) : o.ExponentLT m k := by
  cases o with
  | lex => exact LexLT.trans h₁ h₂
  | grLex =>
    rcases h₁ with h₁ | ⟨hd₁, h₁⟩ <;> rcases h₂ with h₂ | ⟨hd₂, h₂⟩
    · exact .inl (h₁.trans h₂)
    · exact .inl (hd₂ ▸ h₁)
    · exact .inl (hd₁ ▸ h₂)
    · exact .inr ⟨hd₁.trans hd₂, h₁.trans h₂⟩
  | gRevLex =>
    rcases h₁ with h₁ | ⟨hd₁, h₁⟩ <;> rcases h₂ with h₂ | ⟨hd₂, h₂⟩
    · exact .inl (h₁.trans h₂)
    · exact .inl (hd₂ ▸ h₁)
    · exact .inl (hd₁ ▸ h₂)
    · exact .inr ⟨hd₁.trans hd₂, h₁.trans h₂⟩

theorem irrefl (o : MonomialOrder) (m : ℕ →₀ ℕ) : ¬o.ExponentLT m m := by
  cases o with
  | lex => exact fun ⟨_, hv, _⟩ => lt_irrefl _ hv
  | grLex => exact fun h => h.elim (lt_irrefl _) fun ⟨_, _, hv, _⟩ => lt_irrefl _ hv
  | gRevLex => exact fun h => h.elim (lt_irrefl _) fun ⟨_, _, hv, _⟩ => lt_irrefl _ hv

theorem add (h₁ : o.ExponentLT m n) (h₂ : o.ExponentLT k l) : o.ExponentLT (m + k) (n + l) := by
  refine (h₁.add_right k).trans ?_
  rw [add_comm n k, add_comm n l]
  exact h₂.add_right n

end MonomialOrder.ExponentLT

/-! ## Leading terms -/

/-- The leading term of `P` in an order has the exponents `m` and the coefficient `c`. -/
structure Leads (o : MonomialOrder) (P : MvPolynomial ℕ ℚ) (m : ℕ →₀ ℕ) (c : ℚ) : Prop where
  coeff : P.coeff m = c
  ne_zero : c ≠ 0
  below : ∀ n ∈ P.support, n = m ∨ o.ExponentLT n m

namespace Leads

variable {o : MonomialOrder} {P Q : MvPolynomial ℕ ℚ} {m n : ℕ →₀ ℕ} {c d : ℚ}

theorem mem_support (h : Leads o P m c) : m ∈ P.support := by
  rw [MvPolynomial.mem_support_iff, h.coeff]
  exact h.ne_zero

theorem poly_ne_zero (h : Leads o P m c) : P ≠ 0 := fun hP => by
  have := h.mem_support
  rw [hP] at this
  exact absurd this (Finset.notMem_empty m)

theorem unique (h₁ : Leads o P m c) (h₂ : Leads o P n d) : m = n ∧ c = d := by
  have hmn : m = n := by
    rcases h₂.below m h₁.mem_support with h | h
    · exact h
    · rcases h₁.below n h₂.mem_support with h' | h'
      · exact h'.symm
      · exact absurd (h.trans h') (MonomialOrder.ExponentLT.irrefl o m)
  subst hmn
  exact ⟨rfl, h₁.coeff.symm.trans h₂.coeff⟩

theorem add_below (hm : n = m ∨ o.ExponentLT n m) {k l : ℕ →₀ ℕ} (hk : k = l ∨ o.ExponentLT k l) :
    n + k = m + l ∨ o.ExponentLT (n + k) (m + l) := by
  rcases hm with rfl | hm <;> rcases hk with rfl | hk
  · exact .inl rfl
  · rw [add_comm n k, add_comm n l]
    exact .inr (hk.add_right n)
  · exact .inr (hm.add_right k)
  · exact .inr (hm.add hk)

theorem mul (hP : Leads o P m c) (hQ : Leads o Q n d) : Leads o (P * Q) (m + n) (c * d) where
  coeff := by
    rw [MvPolynomial.coeff_mul, Finset.sum_eq_single (m, n)]
    · rw [hP.coeff, hQ.coeff]
    · rintro ⟨a, b⟩ hab hne
      by_contra hcoeff
      rw [Finset.HasAntidiagonal.mem_antidiagonal] at hab
      obtain ⟨ha, hb⟩ := mul_ne_zero_iff.1 hcoeff
      rw [← MvPolynomial.mem_support_iff] at ha hb
      -- both factors are at their leading exponents, as otherwise the sum would be smaller
      rcases hP.below a ha with rfl | ha
      · exact hne (Prod.ext rfl (add_left_cancel hab))
      · rcases hQ.below b hb with rfl | hb
        · exact hne (Prod.ext (add_right_cancel hab) rfl)
        · have hlt := ha.add hb
          rw [show a + b = m + n from hab] at hlt
          exact MonomialOrder.ExponentLT.irrefl o _ hlt
    · intro h
      rw [Finset.HasAntidiagonal.mem_antidiagonal] at h
      exact absurd rfl h
  ne_zero := mul_ne_zero hP.ne_zero hQ.ne_zero
  below k hk := by
    obtain ⟨a, ha, b, hb, rfl⟩ := Finset.mem_add.1 (MvPolynomial.support_mul P Q hk)
    exact add_below (hP.below a ha) (hQ.below b hb)

theorem const (hc : c ≠ 0) : Leads o (C c) 0 c where
  coeff := by rw [MvPolynomial.coeff_C, if_pos rfl]
  ne_zero := hc
  below n hn := by
    rw [MvPolynomial.mem_support_iff, MvPolynomial.coeff_C] at hn
    exact .inl (by_contra fun h => hn (if_neg (Ne.symm h)))

end Leads

namespace Poly

variable {p q : Poly}

/-- The first term of a polynomial leads. -/
theorem leads_of_terms {t : Term} {ts : List Term} (ht : p.terms = t :: ts) :
    Leads p.order p.toMv t.monomial.toFinsupp t.coeff where
  coeff := coeff_toMv (ht ▸ .head _)
  ne_zero := p.valid.nonzero t (ht ▸ .head _)
  below n hn := by
    obtain ⟨s, hs, rfl⟩ := mem_support_toMv.1 hn
    have hlt := (ht ▸ p.valid : TermList p.order (t :: ts)).lt_head
    rw [ht] at hs
    rcases List.mem_cons.1 hs with rfl | hs
    · exact .inl rfl
    · exact .inr (MonomialOrder.compare_eq_lt_iff.1 (hlt s hs))

theorem exists_leads (hp : p.toMv ≠ 0) : ∃ m, Leads p.order p.toMv m p.leadingCoeff := by
  cases ht : p.terms with
  | nil => exact absurd (toMv_eq_zero_of_isZero (by rw [isZero, ht]; rfl)) hp
  | cons t ts =>
    refine ⟨t.monomial.toFinsupp, ?_⟩
    rw [leadingCoeff, ht]
    exact leads_of_terms ht

end Poly

/-- The leading coefficient is positive. -/
def LeadsPositive (P : MvPolynomial ℕ ℚ) : Prop := ∃ m c, 0 < c ∧ Leads .grLex P m c

namespace LeadsPositive

variable {P Q : MvPolynomial ℕ ℚ} {c : ℚ}

theorem ne_zero (h : LeadsPositive P) : P ≠ 0 := by
  obtain ⟨m, c, -, h⟩ := h
  exact h.poly_ne_zero

theorem one : LeadsPositive 1 := ⟨0, 1, one_pos, C_1 (σ := ℕ) (R := ℚ) ▸ Leads.const one_ne_zero⟩

theorem mul (hP : LeadsPositive P) (hQ : LeadsPositive Q) : LeadsPositive (P * Q) := by
  obtain ⟨m, c, hc, hP⟩ := hP
  obtain ⟨n, d, hd, hQ⟩ := hQ
  exact ⟨m + n, c * d, mul_pos hc hd, hP.mul hQ⟩

theorem pow (hP : LeadsPositive P) (k : ℕ) : LeadsPositive (P ^ k) := by
  induction k with
  | zero => exact pow_zero P ▸ one
  | succ k ih => exact pow_succ P k ▸ ih.mul hP

theorem pos_of_const_mul (hP : LeadsPositive P) (hQ : LeadsPositive Q) (h : P = C c * Q) :
    0 < c := by
  have hc : c ≠ 0 := fun hc => hP.ne_zero (by rw [h, hc, C_0, zero_mul])
  obtain ⟨m, a, ha, hP⟩ := hP
  obtain ⟨n, b, hb, hQ⟩ := hQ
  rw [h] at hP
  obtain ⟨-, rfl⟩ := hP.unique ((Leads.const hc).mul hQ)
  exact (mul_pos_iff_of_pos_right hb).1 ha

/-- Associated polynomials with positive leading coefficients differ by a positive number. -/
theorem exists_pos_of_associated (hP : LeadsPositive P) (hQ : LeadsPositive Q)
    (h : Associated P Q) : ∃ c : ℚ, 0 < c ∧ P = C c * Q := by
  obtain ⟨u, hu⟩ := h.symm
  obtain ⟨c, -, hc⟩ := MvPolynomial.isUnit_iff_eq_C_of_isReduced.1 u.isUnit
  rw [hc, mul_comm] at hu
  exact ⟨c, hP.pos_of_const_mul hQ hu.symm, hu.symm⟩

end LeadsPositive

namespace Poly

variable {p : Poly}

/-! ### Orders of results -/

theorem order_withOrder (o : MonomialOrder) (p : Poly) : (p.withOrder o).order = o := by
  rw [withOrder]
  split_ifs with h
  · exact h
  · rfl

section

variable {O : MonomialOrder → Prop} (hO : O .grLex) (h : O p.order)

include hO h

/-- Results have the order of an operand or that of constants, so that computations do not leave a
class of orders with graded lexicographic order in it. -/
theorem order_mul_mem (q : Poly) : O (p * q).order := by
  change O (Poly.mul p q).order
  rw [Poly.mul]
  split_ifs
  · exact hO
  · exact h

theorem order_scale_mem (c : ℚ) : O (p.scale c).order := by
  rw [scale]
  split_ifs
  · exact hO
  · exact h

theorem order_primitive_mem : O p.primitive.order := by
  rw [primitive]
  split_ifs
  · exact h
  · exact order_scale_mem hO h _

theorem order_canonical_mem : O p.canonical.order := by
  have hprimitive := order_primitive_mem hO h
  rw [canonical]
  split_ifs
  · exact hprimitive
  · exact hprimitive

end

theorem order_mul (ho : p.order = .grLex) (q : Poly) : (p * q).order = .grLex :=
  order_mul_mem (O := (· = .grLex)) rfl ho q

theorem order_canonical (ho : p.order = .grLex) : p.canonical.order = .grLex :=
  order_canonical_mem (O := (· = .grLex)) rfl ho

/-! ### Canonical forms -/

theorem leadingCoeff_neg (p : Poly) : (-p).leadingCoeff = -p.leadingCoeff := by
  obtain ⟨o, ts, hv⟩ := p
  cases ts with
  | nil => exact neg_zero.symm
  | cons t ts => rfl

/-- The canonical form has a positive leading coefficient. -/
theorem leadsPositive_canonical (ho : p.order = .grLex) (hp : p.toMv ≠ 0) :
    LeadsPositive p.canonical.toMv := by
  have hc : p.canonical.toMv ≠ 0 := fun h => hp (by rw [toMv_canonical, h, mul_zero])
  obtain ⟨m, hm⟩ := exists_leads hc
  rw [order_canonical ho] at hm
  refine ⟨m, _, lt_of_le_of_ne ?_ hm.ne_zero.symm, hm⟩
  rw [canonical]
  split_ifs with hneg
  · rw [leadingCoeff_neg]
    exact (neg_pos.2 hneg).le
  · exact not_lt.1 hneg

end Poly

end Cylindrical

end
