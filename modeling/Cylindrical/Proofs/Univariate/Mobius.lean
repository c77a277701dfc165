import Mathlib
import Cylindrical.Proofs.Univariate.SignChange
import Cylindrical.Proofs.Univariate.SignVariations

/-!
# Roots in an interval

The transform of a polynomial `P` of degree `n` to the interval from `a` to `b` takes the value
`(1 + t) ^ n * P ((a + b * t) / (1 + t))` at a positive number `t` (`isTransform_mobius`).  Its
positive roots are the roots of `P` inside the interval, and its first and last coefficients are the
values of `P` at the ends.  So Descartes' bound is exact when it is zero
(`not_isRoot_of_descartesBound_eq_zero`) or one (`existsUnique_isRoot_of_descartesBound_eq_one`).
-/

noncomputable section

open Polynomial

namespace Cylindrical

/-! ## The transform -/

/-- `Q` takes the values of `P`, of degree at most `n`, on the interval from `a` to `b` at the positive
numbers. -/
def IsTransform (a b : ℝ) (n : ℕ) (P Q : ℝ[X]) : Prop :=
  ∀ t : ℝ, 0 < t → Q.eval t = (1 + t) ^ n * P.eval ((a + b * t) / (1 + t))

namespace IsTransform

variable {a b : ℝ} {m n : ℕ} {P P' Q Q' : ℝ[X]}

theorem C (a b : ℝ) (c : ℝ) : IsTransform a b 0 (.C c) (.C c) := fun t _ => by simp

theorem mul (h : IsTransform a b m P Q) (h' : IsTransform a b n P' Q') :
    IsTransform a b (m + n) (P * P') (Q * Q') := fun t ht => by
  rw [eval_mul, eval_mul, h t ht, h' t ht]
  ring

/-- There is only one transform. -/
theorem unique (h : IsTransform a b n P Q) (h' : IsTransform a b n P Q') : Q = Q' := by
  refine eq_of_infinite_eval_eq Q Q' ((Set.Ioi_infinite (0 : ℝ)).mono fun t ht => ?_)
  exact (h t ht).trans (h' t ht).symm

end IsTransform

namespace Univariate

variable {a b c : ℚ} {cs ds : List ℚ}

/-! ## Coefficients of the transform -/

theorem toPolynomial_mulLinear (a b : ℚ) (cs : List ℚ) :
    toPolynomial (mulLinear a b cs) = (C a + C b * X) * toPolynomial cs := by
  have hgo : ∀ (cs : List ℚ) (low prev : ℚ), toPolynomial (mulLinear.go a b low prev cs) =
      C low + X * (C (b * prev) + (C a + C b * X) * toPolynomial cs) := by
    intro cs
    induction cs with
    | nil =>
      intro low prev
      simp [mulLinear.go, mul_comm X]
      ring
    | cons c cs ih =>
      intro low prev
      rw [mulLinear.go, toPolynomial_cons, ih, toPolynomial_cons]
      simp only [C_add, C_mul]
      ring
  cases cs with
  | nil => simp [mulLinear]
  | cons c cs =>
    rw [mulLinear, hgo, toPolynomial_cons]
    simp only [C_mul]
    ring

theorem toPolynomial_add (cs ds : List ℚ) :
    toPolynomial (add cs ds) = toPolynomial cs + toPolynomial ds := by
  induction cs generalizing ds with
  | nil => simp [add]
  | cons c cs ih =>
    cases ds with
    | nil => simp [add]
    | cons d ds =>
      rw [add, toPolynomial_cons, ih, toPolynomial_cons, toPolynomial_cons, C_add]
      ring

theorem toPolynomial_map_mul (c : ℚ) (cs : List ℚ) :
    toPolynomial (cs.map (c * ·)) = C c * toPolynomial cs := by
  induction cs with
  | nil => simp
  | cons d cs ih =>
    rw [List.map_cons, toPolynomial_cons, ih, toPolynomial_cons, C_mul]
    ring

/-- The sum of `cᵢ * (a + b * t) ^ i * (1 + t) ^ (n - i)`, where `n` is the last index. -/
def homogeneous (a b : ℚ) : List ℚ → ℚ[X]
  | [] => 0
  | c :: cs => (C a + C b * X) * homogeneous a b cs + C c * (1 + X) ^ cs.length

/-- One step of the transformation, on the coefficients so far and a power of `1 + t`. -/
def mobiusStep (a b c : ℚ) (s : List ℚ × List ℚ) : List ℚ × List ℚ :=
  (add (mulLinear a b s.1) (s.2.map (c * ·)), mulLinear 1 1 s.2)

theorem toPolynomial_foldr_mobiusStep (a b : ℚ) (ds : List ℚ) :
    toPolynomial (ds.foldr (mobiusStep a b) ([], [1])).1 = homogeneous a b ds ∧
      toPolynomial (ds.foldr (mobiusStep a b) ([], [1])).2 = (1 + X) ^ ds.length := by
  induction ds with
  | nil => simp [homogeneous]
  | cons c ds ih =>
    rw [List.foldr_cons, mobiusStep]
    refine ⟨?_, ?_⟩
    · rw [toPolynomial_add, toPolynomial_mulLinear, toPolynomial_map_mul, ih.1, ih.2, homogeneous]
    · rw [toPolynomial_mulLinear, ih.2, List.length_cons, pow_succ, C_1]
      ring

theorem toPolynomial_mobius (cs : List ℚ) (a b : ℚ) :
    toPolynomial (mobius cs a b) = homogeneous a b (trim cs) :=
  (toPolynomial_foldr_mobiusStep a b (trim cs)).1

theorem coeff_zero_homogeneous (a b : ℚ) (ds : List ℚ) :
    (homogeneous a b ds).coeff 0 = eval ds a := by
  induction ds with
  | nil => simp [homogeneous, eval]
  | cons c ds ih =>
    simp only [homogeneous, coeff_zero_eq_eval_zero, eval_add, eval_mul, eval_C, eval_X, eval_pow,
      eval_one] at ih ⊢
    rw [ih]
    simp [Univariate.eval]
    ring

theorem coeff_succ_homogeneous (a b c : ℚ) (ds : List ℚ) (k : ℕ) :
    (homogeneous a b (c :: ds)).coeff (k + 1) =
      a * (homogeneous a b ds).coeff (k + 1) + b * (homogeneous a b ds).coeff k +
        c * ds.length.choose (k + 1) := by
  rw [homogeneous, add_mul, coeff_add, coeff_add, coeff_C_mul, mul_assoc, coeff_C_mul, coeff_X_mul,
    coeff_C_mul, coeff_one_add_X_pow]

theorem coeff_homogeneous_eq_zero {k : ℕ} (h : ds.length ≤ k) :
    (homogeneous a b ds).coeff k = 0 := by
  induction ds generalizing k with
  | nil => simp [homogeneous]
  | cons c ds ih =>
    rw [List.length_cons] at h
    obtain ⟨k, rfl⟩ := Nat.exists_eq_add_of_le' (show 1 ≤ k by omega)
    rw [coeff_succ_homogeneous, ih (by omega), ih (by omega), Nat.choose_eq_zero_of_lt (by omega)]
    simp

/-- The first and the last coefficient are the values at the ends. -/
theorem coeff_last_homogeneous (a b c : ℚ) (ds : List ℚ) :
    (homogeneous a b (c :: ds)).coeff ds.length = eval (c :: ds) b := by
  induction ds generalizing c with
  | nil => simp [homogeneous, Univariate.eval]
  | cons d ds ih =>
    rw [List.length_cons, coeff_succ_homogeneous, ih, List.length_cons, Nat.choose_self,
      coeff_homogeneous_eq_zero (by simp)]
    simp [Univariate.eval]
    ring

theorem eval_homogeneous {t : ℝ} (ht : 0 < t) (a b : ℚ) (ds : List ℚ) :
    (1 + t) * ((homogeneous a b ds).map (algebraMap ℚ ℝ)).eval t =
      (1 + t) ^ ds.length * (toReal ds).eval ((a + b * t) / (1 + t)) := by
  have h0 : 1 + t ≠ 0 := by positivity
  induction ds with
  | nil => simp [homogeneous, toReal]
  | cons c ds ih =>
    have hx : (1 + t) * ((a + b * t) / (1 + t)) = a + b * t := by field_simp
    have hleft : ((homogeneous a b (c :: ds)).map (algebraMap ℚ ℝ)).eval t =
        (a + b * t) * ((homogeneous a b ds).map (algebraMap ℚ ℝ)).eval t +
          c * (1 + t) ^ ds.length := by
      simp [homogeneous]
    have hright : (toReal (c :: ds)).eval ((a + b * t) / (1 + t)) =
        (toReal ds).eval ((a + b * t) / (1 + t)) * ((a + b * t) / (1 + t)) + c := by
      simp [toReal]
    rw [hleft, hright, List.length_cons]
    linear_combination (a + b * t) * ih -
      (1 + t) ^ ds.length * (toReal ds).eval ((a + b * t) / (1 + t)) * hx

/-- The list of the transform stands for the transform. -/
theorem isTransform_mobius (h : trim cs ≠ []) (a b : ℚ) :
    IsTransform a b ((trim cs).length - 1) (toReal cs) (toReal (mobius cs a b)) := by
  intro t ht
  obtain ⟨n, hn⟩ := Nat.exists_eq_add_of_le' (List.length_pos_iff.2 h)
  have heval := eval_homogeneous ht a b (trim cs)
  rw [toReal_trim, hn, pow_succ', mul_assoc] at heval
  rw [toReal, toPolynomial_mobius, hn]
  exact mul_left_cancel₀ (by positivity) heval

/-! ## Descartes' bound -/

section

theorem trim_ne_nil (h0 : toPolynomial cs ≠ 0) : trim cs ≠ [] := fun h =>
  h0 (by rw [← toPolynomial_trim, h, toPolynomial_nil])

/-- The number of the transform that goes to `x`. -/
def position (a b x : ℝ) : ℝ := (x - a) / (b - x)

variable {x y : ℝ}

theorem position_pos (hx : x ∈ Set.Ioo (a : ℝ) b) : 0 < position a b x :=
  div_pos (sub_pos.2 hx.1) (sub_pos.2 hx.2)

theorem eq_of_position (hx : x ∈ Set.Ioo (a : ℝ) b) :
    (a + b * position a b x) / (1 + position a b x) = x := by
  have hb : (b : ℝ) - x ≠ 0 := (sub_pos.2 hx.2).ne'
  have hw : (b : ℝ) - a ≠ 0 := (sub_pos.2 (hx.1.trans hx.2)).ne'
  have hsum : 1 + position a b x = (b - a) / (b - x) := by
    rw [position]
    field_simp
    ring
  rw [hsum, position]
  field_simp
  ring

theorem isRoot_position (h0 : toPolynomial cs ≠ 0) (hx : x ∈ Set.Ioo (a : ℝ) b)
    (hroot : (toReal cs).IsRoot x) : (toReal (mobius cs a b)).IsRoot (position a b x) := by
  rw [IsRoot, isTransform_mobius (trim_ne_nil h0) a b _ (position_pos hx), eq_of_position hx, hroot,
    mul_zero]

theorem toReal_mobius_ne_zero (ha : ¬(toPolynomial cs).IsRoot a) (b : ℚ) :
    toReal (mobius cs a b) ≠ 0 := by
  rw [toReal, Polynomial.map_ne_zero_iff (algebraMap ℚ ℝ).injective]
  intro h
  refine ha ?_
  rw [IsRoot, ← toPolynomial_trim, eval_toPolynomial, ← coeff_zero_homogeneous a b,
    ← toPolynomial_mobius, h, coeff_zero]

/-- The positions of distinct roots in the interval are distinct positive roots. -/
theorem card_le_descartesBound (h0 : toPolynomial cs ≠ 0) (ha : ¬(toPolynomial cs).IsRoot a)
    {s : Finset ℝ} (hs : ∀ x ∈ s, x ∈ Set.Ioo (a : ℝ) b ∧ (toReal cs).IsRoot x) :
    s.card ≤ descartesBound cs a b := by
  classical
  have hinj : Set.InjOn (position a b) s := fun x hx y hy h => by
    rw [← eq_of_position (hs x hx).1, h, eq_of_position (hs y hy).1]
  have hsub : s.image (position a b) ⊆ ((toReal (mobius cs a b)).roots.filter (0 < ·)).toFinset := by
    intro t ht
    obtain ⟨x, hx, rfl⟩ := Finset.mem_image.1 ht
    obtain ⟨hmem, hroot⟩ := hs x hx
    rw [Multiset.mem_toFinset, Multiset.mem_filter, mem_roots (toReal_mobius_ne_zero ha b)]
    exact ⟨isRoot_position h0 hmem hroot, position_pos hmem⟩
  calc s.card = (s.image (position a b)).card := (Finset.card_image_of_injOn hinj).symm
    _ ≤ ((toReal (mobius cs a b)).roots.filter (0 < ·)).toFinset.card := Finset.card_le_card hsub
    _ ≤ ((toReal (mobius cs a b)).roots.filter (0 < ·)).card := Multiset.toFinset_card_le _
    _ = (toReal (mobius cs a b)).roots.countP (0 < ·) := (Multiset.countP_eq_card_filter _ _).symm
    _ ≤ descartesBound cs a b := countP_roots_toReal_le _

theorem not_isRoot_of_descartesBound_eq_zero (h0 : toPolynomial cs ≠ 0)
    (ha : ¬(toPolynomial cs).IsRoot a) (h : descartesBound cs a b = 0) (hx : x ∈ Set.Ioo (a : ℝ) b) :
    ¬(toReal cs).IsRoot x := fun hroot => by
  have hcard := card_le_descartesBound h0 ha (b := b) (s := {x})
    fun y hy => Finset.mem_singleton.1 hy ▸ ⟨hx, hroot⟩
  rw [Finset.card_singleton] at hcard
  omega

/-- The last sign of the transform is that of the value at the upper end. -/
theorem lastSign_mobius (hb : ¬(toPolynomial cs).IsRoot b) :
    lastSign .eq (mobius cs a b) = signAt cs b := by
  have h0 : toPolynomial cs ≠ 0 := fun h => hb (h ▸ eval_zero)
  obtain ⟨c, ds, hds⟩ := List.exists_cons_of_ne_nil (trim_ne_nil h0)
  have heval : eval (c :: ds) b = eval cs b := by
    rw [← hds, ← eval_toPolynomial, toPolynomial_trim, eval_toPolynomial]
  have hlast : (toPolynomial (mobius cs a b)).coeff ds.length = eval cs b := by
    rw [toPolynomial_mobius, hds, coeff_last_homogeneous, heval]
  rw [IsRoot, eval_toPolynomial] at hb
  have hdegree : (toPolynomial (mobius cs a b)).natDegree = ds.length := by
    refine natDegree_eq_of_le_of_coeff_ne_zero (natDegree_le_iff_coeff_eq_zero.2 fun k hk => ?_)
      (by rwa [hlast])
    rw [toPolynomial_mobius, hds]
    exact coeff_homogeneous_eq_zero hk
  have hsign := sign_leadingCoeff_toReal (mobius cs a b)
  have hlead : (toReal (mobius cs a b)).leadingCoeff = (eval cs b : ℚ) := by
    rw [toReal, leadingCoeff_map, leadingCoeff, hdegree, hlast]
    rfl
  rw [hlead, sign_cast] at hsign
  exact signType_injective hsign.symm

/-- When the bound is odd, the polynomial has different signs at the ends. -/
theorem signAt_ne_of_odd_descartesBound (ha : ¬(toPolynomial cs).IsRoot a)
    (hb : ¬(toPolynomial cs).IsRoot b) (h : Odd (descartesBound cs a b)) :
    signAt cs a ≠ signAt cs b := by
  have hfirst : (mobius cs a b).getD 0 0 = eval cs a := by
    rw [← coeff_toPolynomial, toPolynomial_mobius, coeff_zero_homogeneous, ← eval_toPolynomial,
      toPolynomial_trim, eval_toPolynomial]
  rw [IsRoot, eval_toPolynomial] at ha
  rw [← lastSign_mobius hb (a := a)]
  rw [descartesBound, signVariations, ← Nat.not_even_iff_odd] at h
  cases hms : mobius cs a b with
  | nil =>
    rw [hms] at hfirst
    exact absurd hfirst.symm ha
  | cons m ms =>
    rw [hms] at hfirst h
    obtain rfl : m = eval cs a := hfirst
    have hm : compareZero (eval cs a) ≠ .eq := fun h => ha (compareZero_eq_eq_iff.1 h)
    rw [signVariationsAfter_cons ha, if_neg (by simp), zero_add,
      even_signVariationsAfter_iff hm] at h
    rw [lastSign_cons, if_neg ha]
    exact fun heq => h heq.symm

/-- When the bound is one, there is exactly one root in the interval. -/
theorem existsUnique_isRoot_of_descartesBound_eq_one (hab : a < b)
    (ha : ¬(toPolynomial cs).IsRoot a) (hb : ¬(toPolynomial cs).IsRoot b)
    (h : descartesBound cs a b = 1) :
    ∃! x : ℝ, x ∈ Set.Ioo (a : ℝ) b ∧ (toReal cs).IsRoot x := by
  have h0 : toPolynomial cs ≠ 0 := fun h => ha (h ▸ eval_zero)
  have hsign := signAt_ne_of_odd_descartesBound ha hb (h ▸ odd_one)
  have hexists : ∃ x ∈ Set.Icc (a : ℝ) b, (toReal cs).IsRoot x := by
    by_contra hnone
    push Not at hnone
    exact hsign (signAt_eq_of_forall_not_isRoot hab.le hnone)
  obtain ⟨x, hx, hroot⟩ := hexists
  have hne : ∀ {r : ℚ}, ¬(toPolynomial cs).IsRoot r → x ≠ r := fun hr hxr =>
    hr (isRoot_toReal_iff.1 (hxr ▸ hroot))
  have hmem : x ∈ Set.Ioo (a : ℝ) b :=
    ⟨lt_of_le_of_ne hx.1 (hne ha).symm, lt_of_le_of_ne hx.2 (hne hb)⟩
  refine ⟨x, ⟨hmem, hroot⟩, ?_⟩
  rintro y ⟨hy, hyroot⟩
  by_contra hyx
  have hcard := card_le_descartesBound h0 ha (b := b) (s := {x, y}) (by
    intro z hz
    rcases Finset.mem_insert.1 hz with rfl | hz
    · exact ⟨hmem, hroot⟩
    · exact Finset.mem_singleton.1 hz ▸ ⟨hy, hyroot⟩)
  rw [Finset.card_pair (Ne.symm hyx)] at hcard
  omega

end

end Univariate

end Cylindrical

end
