import Mathlib
import Cylindrical.Proofs.Univariate.Degree
import Cylindrical.Proofs.Univariate.SignChange

/-!
# Distances of roots

The resultant of a square-free integer polynomial and its derivative is a nonzero integer, and up to
the leading coefficient it is the product of the differences of all roots.  The other differences are
bounded in terms of Mahler's measure, so no difference is very small
(`one_le_mahlerMeasure_mul_norm_sub`).  A list of rational coefficients has an integer multiple whose
measure its size in bits bounds (`one_le_two_pow_mul_norm_sub`).
-/

noncomputable section

open Polynomial

namespace Cylindrical

/-! ## Products of differences -/

section

variable (S : Finset ℂ)

/-- The product of the numbers' absolute values, as far as they are above one. -/
def outside : ℝ := ∏ x ∈ S, max 1 ‖x‖

theorem norm_sub_le_max (x y : ℂ) : ‖x - y‖ ≤ 2 * max 1 ‖x‖ * max 1 ‖y‖ := by
  have hx : 1 ≤ max 1 ‖x‖ := le_max_left _ _
  have hy : 1 ≤ max 1 ‖y‖ := le_max_left _ _
  calc ‖x - y‖ ≤ ‖x‖ + ‖y‖ := norm_sub_le x y
    _ ≤ max 1 ‖x‖ + max 1 ‖y‖ := add_le_add (le_max_right _ _) (le_max_right _ _)
    _ ≤ 2 * max 1 ‖x‖ * max 1 ‖y‖ := by nlinarith

/-- The product of the distances from `x` to the other numbers. -/
def distances (x : ℂ) : ℝ := ∏ y ∈ S.erase x, ‖x - y‖

/-- A bound for the distances from `x`. -/
def distanceBound (x : ℂ) : ℝ := ∏ y ∈ S.erase x, (2 * max 1 ‖x‖ * max 1 ‖y‖)

variable {S} {x z w : ℂ}

theorem distances_nonneg : 0 ≤ distances S x := Finset.prod_nonneg fun _ _ => norm_nonneg _

theorem distances_le : distances S x ≤ distanceBound S x :=
  Finset.prod_le_prod (fun _ _ => norm_nonneg _) fun y _ => norm_sub_le_max x y

theorem one_le_two_mul_max (x y : ℂ) : 1 ≤ 2 * max 1 ‖x‖ * max 1 ‖y‖ := by
  have hx : 1 ≤ max 1 ‖x‖ := le_max_left _ _
  have hy : 1 ≤ max 1 ‖y‖ := le_max_left _ _
  nlinarith

theorem distanceBound_nonneg : 0 ≤ distanceBound S x :=
  Finset.prod_nonneg fun y _ => zero_le_one.trans (one_le_two_mul_max x y)

/-- One of the distances is kept, the others are bounded. -/
theorem distances_le_mul (hw : w ∈ S) (hne : z ≠ w) :
    distances S z ≤ ‖z - w‖ * distanceBound S z := by
  have hmem : w ∈ S.erase z := Finset.mem_erase.2 ⟨hne.symm, hw⟩
  have hrest : ∏ y ∈ (S.erase z).erase w, ‖z - y‖ ≤ distanceBound S z := by
    calc ∏ y ∈ (S.erase z).erase w, ‖z - y‖
        ≤ ∏ y ∈ (S.erase z).erase w, (2 * max 1 ‖z‖ * max 1 ‖y‖) :=
          Finset.prod_le_prod (fun _ _ => norm_nonneg _) fun y _ => norm_sub_le_max z y
      _ ≤ 2 * max 1 ‖z‖ * max 1 ‖w‖ *
            ∏ y ∈ (S.erase z).erase w, (2 * max 1 ‖z‖ * max 1 ‖y‖) :=
          le_mul_of_one_le_left
            (Finset.prod_nonneg fun y _ => zero_le_one.trans (one_le_two_mul_max z y))
            (one_le_two_mul_max z w)
      _ = distanceBound S z :=
          Finset.mul_prod_erase _ (fun y => 2 * max 1 ‖z‖ * max 1 ‖y‖) hmem
  calc distances S z = ‖z - w‖ * ∏ y ∈ (S.erase z).erase w, ‖z - y‖ :=
        (Finset.mul_prod_erase _ (fun y => ‖z - y‖) hmem).symm
    _ ≤ ‖z - w‖ * distanceBound S z := mul_le_mul_of_nonneg_left hrest (norm_nonneg _)

theorem prod_distances_le (hz : z ∈ S) (hw : w ∈ S) (hne : z ≠ w) :
    ∏ x ∈ S, distances S x ≤ ‖z - w‖ * ∏ x ∈ S, distanceBound S x := by
  calc ∏ x ∈ S, distances S x = distances S z * ∏ x ∈ S.erase z, distances S x :=
        (Finset.mul_prod_erase S _ hz).symm
    _ ≤ ‖z - w‖ * distanceBound S z * ∏ x ∈ S.erase z, distanceBound S x :=
        mul_le_mul (distances_le_mul hw hne)
          (Finset.prod_le_prod (fun _ _ => distances_nonneg) fun _ _ => distances_le)
          (Finset.prod_nonneg fun _ _ => distances_nonneg)
          (mul_nonneg (norm_nonneg _) distanceBound_nonneg)
    _ = ‖z - w‖ * ∏ x ∈ S, distanceBound S x := by rw [mul_assoc, Finset.mul_prod_erase S _ hz]

theorem prod_distanceBound_le :
    ∏ x ∈ S, distanceBound S x ≤ 2 ^ (S.card * (S.card - 1)) * outside S ^ (2 * S.card - 1) := by
  have hfactor : ∀ x ∈ S, distanceBound S x ≤
      2 ^ (S.card - 1) * max 1 ‖x‖ ^ (S.card - 1) * outside S := by
    intro x hx
    have herase : ∏ y ∈ S.erase x, max 1 ‖y‖ ≤ outside S := by
      rw [outside, ← Finset.mul_prod_erase S (fun y => max 1 ‖y‖) hx]
      exact le_mul_of_one_le_left (Finset.prod_nonneg fun _ _ => by positivity) (le_max_left _ _)
    rw [distanceBound, Finset.prod_mul_distrib, Finset.prod_const, Finset.card_erase_of_mem hx,
      mul_pow]
    exact mul_le_mul_of_nonneg_left herase (by positivity)
  calc ∏ x ∈ S, distanceBound S x
      ≤ ∏ x ∈ S, (2 ^ (S.card - 1) * max 1 ‖x‖ ^ (S.card - 1) * outside S) :=
        Finset.prod_le_prod (fun _ _ => distanceBound_nonneg) hfactor
    _ = (2 ^ (S.card - 1)) ^ S.card * outside S ^ (S.card - 1) * outside S ^ S.card := by
        rw [Finset.prod_mul_distrib, Finset.prod_mul_distrib, Finset.prod_const, Finset.prod_const,
          Finset.prod_pow, outside]
    _ = 2 ^ (S.card * (S.card - 1)) * outside S ^ (2 * S.card - 1) := by
        rw [← pow_mul, mul_comm S.card, mul_assoc, ← pow_add]
        congr 2
        omega

end

/-! ## Integer polynomials -/

section

variable {Q : ℂ[X]} {z w : ℂ}

theorem prod_toFinset_roots {M : Type*} [CommMonoid M] (hQ : Q.roots.Nodup) (f : ℂ → M) :
    (Q.roots.map f).prod = ∏ x ∈ Q.roots.toFinset, f x := by
  rw [Finset.prod, Multiset.toFinset_val, Multiset.dedup_eq_self.2 hQ]

theorem card_toFinset_roots (hQ : Q.roots.Nodup) : Q.roots.toFinset.card = Q.natDegree := by
  rw [Multiset.toFinset_card_of_nodup hQ, splits_iff_card_roots.1 (IsAlgClosed.splits Q)]

/-- The derivative at a root is the product of the differences, up to the leading coefficient. -/
theorem norm_eval_derivative (hQ : Q.roots.Nodup) (hz : z ∈ Q.roots.toFinset) :
    ‖Q.derivative.eval z‖ = ‖Q.leadingCoeff‖ * distances Q.roots.toFinset z := by
  obtain ⟨R, hR⟩ : ∃ R, R = C Q.leadingCoeff * ∏ y ∈ Q.roots.toFinset.erase z, (X - C y) := ⟨_, rfl⟩
  have hsplit : Q = (X - C z) * R := by
    rw [hR, mul_left_comm, Finset.mul_prod_erase _ (fun y => X - C y) hz, ← prod_toFinset_roots hQ]
    exact (IsAlgClosed.splits Q).eq_prod_roots
  have hderivative : Q.derivative.eval z = R.eval z := by
    rw [hsplit]
    simp
  rw [hderivative, hR, eval_mul, eval_C, eval_prod, norm_mul, norm_prod, distances]
  simp

/-- The resultant with the derivative, as it is for a square-free polynomial. -/
theorem norm_resultant_derivative (hQ : Q.roots.Nodup) :
    ‖Q.resultant (derivative Q) Q.natDegree (Q.natDegree - 1)‖ =
      ‖Q.leadingCoeff‖ ^ (2 * Q.natDegree - 1) *
        ∏ x ∈ Q.roots.toFinset, distances Q.roots.toFinset x := by
  rw [resultant_eq_prod_eval Q _ _ (natDegree_derivative_le Q) (IsAlgClosed.splits Q),
    prod_toFinset_roots hQ, norm_mul, norm_pow, norm_prod,
    Finset.prod_congr rfl fun x hx => norm_eval_derivative hQ hx, Finset.prod_mul_distrib,
    Finset.prod_const, card_toFinset_roots hQ, ← mul_assoc, ← pow_add]
  congr 2
  omega

/-- For an integer polynomial the resultant is an integer, so its norm is at least one. -/
theorem one_le_norm_resultant {P : ℤ[X]} (hP : P.map (Int.castRingHom ℂ) = Q)
    (hQ : Q.roots.Nodup) (hQ0 : Q ≠ 0) :
    1 ≤ ‖Q.resultant (derivative Q) Q.natDegree (Q.natDegree - 1)‖ := by
  have hlead : 0 < ‖Q.leadingCoeff‖ := norm_pos_iff.2 (leadingCoeff_ne_zero.2 hQ0)
  have hpos : 0 < ∏ x ∈ Q.roots.toFinset, distances Q.roots.toFinset x :=
    Finset.prod_pos fun x _ => Finset.prod_pos fun y hy =>
      norm_pos_iff.2 (sub_ne_zero.2 (Finset.ne_of_mem_erase hy).symm)
  have hne : Q.resultant (derivative Q) Q.natDegree (Q.natDegree - 1) ≠ 0 := by
    rw [← norm_pos_iff, norm_resultant_derivative hQ]
    positivity
  rw [← hP, derivative_map, resultant_map_map] at hne ⊢
  rw [eq_intCast, Complex.norm_intCast]
  exact_mod_cast Int.one_le_abs (fun h => hne (by rw [h, map_zero]))

/-- Distinct roots of a square-free integer polynomial are not very near to each other. -/
theorem one_le_mahlerMeasure_mul_norm_sub {P : ℤ[X]} (hP : P.map (Int.castRingHom ℂ) = Q)
    (hQ : Q.Separable) (hz : Q.IsRoot z) (hw : Q.IsRoot w) (hne : z ≠ w) :
    1 ≤ 2 ^ (Q.natDegree * (Q.natDegree - 1)) * Q.mahlerMeasure ^ (2 * Q.natDegree - 1) *
      ‖z - w‖ := by
  have hnodup := nodup_roots hQ
  have hQ0 : Q ≠ 0 := hQ.ne_zero
  have hone := one_le_norm_resultant hP hnodup hQ0
  have hmem : ∀ {x}, Q.IsRoot x → x ∈ Q.roots.toFinset := fun hx =>
    Multiset.mem_toFinset.2 ((mem_roots hQ0).2 hx)
  calc 1 ≤ ‖Q.leadingCoeff‖ ^ (2 * Q.natDegree - 1) *
          ∏ x ∈ Q.roots.toFinset, distances Q.roots.toFinset x := norm_resultant_derivative hnodup ▸ hone
    _ ≤ ‖Q.leadingCoeff‖ ^ (2 * Q.natDegree - 1) * (‖z - w‖ *
          (2 ^ (Q.natDegree * (Q.natDegree - 1)) *
            outside Q.roots.toFinset ^ (2 * Q.natDegree - 1))) := by
        have hle := prod_distanceBound_le (S := Q.roots.toFinset)
        rw [card_toFinset_roots hnodup] at hle
        gcongr
        exact (prod_distances_le (hmem hz) (hmem hw) hne).trans
          (mul_le_mul_of_nonneg_left hle (norm_nonneg _))
    _ = 2 ^ (Q.natDegree * (Q.natDegree - 1)) * Q.mahlerMeasure ^ (2 * Q.natDegree - 1) *
          ‖z - w‖ := by
        rw [mahlerMeasure_eq_leadingCoeff_mul_prod_roots, prod_toFinset_roots hnodup, ← outside,
          mul_pow]
        ring

end

/-! ## Lists of rational coefficients -/

namespace Univariate

variable {c : ℚ} {cs : List ℚ}

/-- The product of the denominators. -/
def denominator (cs : List ℚ) : ℕ := (cs.map Rat.den).prod

theorem denominator_ne_zero (cs : List ℚ) : denominator cs ≠ 0 := by
  refine List.prod_ne_zero fun h => ?_
  obtain ⟨c, -, hc⟩ := List.mem_map.1 h
  exact c.den_ne_zero hc

theorem exists_denominator_mul_eq (h : c ∈ cs) : ∃ k : ℤ, denominator cs * c = k := by
  obtain ⟨n, hn⟩ : c.den ∣ denominator cs := List.dvd_prod (List.mem_map_of_mem h)
  refine ⟨n * c.num, ?_⟩
  rw [hn, Nat.cast_mul, mul_right_comm, Rat.den_mul_eq_num, mul_comm]
  push_cast
  rfl

/-- The sum of the absolute values. -/
def absSum (cs : List ℚ) : ℚ := (cs.map (|·|)).sum

theorem two_pow_add_le (c : ℚ) :
    (2 : ℚ) ^ bitLength c.den + 2 ^ bitLength c.num.natAbs ≤ 2 ^ rationalBits c := by
  have hden : (2 : ℚ) ≤ 2 ^ bitLength c.den := le_self_pow₀ one_le_two (Nat.succ_ne_zero _)
  have hnum : (2 : ℚ) ≤ 2 ^ bitLength c.num.natAbs := le_self_pow₀ one_le_two (Nat.succ_ne_zero _)
  rw [rationalBits, pow_add]
  nlinarith

/-- Each coefficient is at most the product of its two parts, and so is the product of all
denominators. -/
theorem denominator_mul_le (cs : List ℚ) : denominator cs * (1 + absSum cs) ≤ 2 ^ bits cs := by
  induction cs using List.reverseRecOn with
  | nil => simp [denominator, absSum, bits]
  | append_singleton cs c ih =>
    have hpos : (1 : ℚ) ≤ 1 + absSum cs :=
      le_add_of_nonneg_right (List.sum_nonneg fun x hx => by
        obtain ⟨y, -, rfl⟩ := List.mem_map.1 hx
        exact abs_nonneg y)
    have hden : (denominator cs : ℚ) ≤ 2 ^ bits cs :=
      (le_mul_of_one_le_right (by positivity) hpos).trans ih
    have hnum := natAbs_num_le c
    have hcden := den_le c
    have hsum := two_pow_add_le c
    have habs : (c.den : ℚ) * |c| = c.num.natAbs := by
      rw [abs_eq_natAbs_div, mul_div_cancel₀ _ (Nat.cast_ne_zero.2 c.den_ne_zero)]
    calc (denominator (cs ++ [c]) : ℚ) * (1 + absSum (cs ++ [c]))
        = denominator cs * (1 + absSum cs) * c.den + denominator cs * (c.den * |c|) := by
          simp only [denominator, absSum, List.map_append, List.map_cons, List.map_nil,
            List.prod_append, List.prod_singleton, List.sum_append, List.sum_singleton]
          push_cast
          ring
      _ ≤ 2 ^ bits cs * 2 ^ bitLength c.den + 2 ^ bits cs * 2 ^ bitLength c.num.natAbs := by
          rw [habs]
          gcongr
      _ = 2 ^ bits cs * (2 ^ bitLength c.den + 2 ^ bitLength c.num.natAbs) := by ring
      _ ≤ 2 ^ bits cs * 2 ^ rationalBits c := by gcongr
      _ = 2 ^ bits (cs ++ [c]) := by rw [bits_append_singleton, pow_add]

/-- The polynomial over the complex numbers. -/
def toComplex (cs : List ℚ) : ℂ[X] := (toPolynomial cs).map (algebraMap ℚ ℂ)

theorem isRoot_toComplex {z : ℂ} : (toComplex cs).IsRoot z ↔ aeval z (toReal cs) = 0 := by
  rw [toReal, aeval_map_algebraMap, IsRoot, toComplex, eval_map_algebraMap]

theorem natDegree_toComplex_le (cs : List ℚ) : (toComplex cs).natDegree ≤ cs.length :=
  natDegree_map_le.trans (natDegree_le_of_degree_le (degree_toPolynomial_lt cs).le)

theorem mahlerMeasure_toComplex_le (cs : List ℚ) : (toComplex cs).mahlerMeasure ≤ absSum cs := by
  have hsum : ∑ k ∈ Finset.range (cs.length + 1), |cs.getD k 0| = absSum cs := by
    induction cs with
    | nil => simp [absSum]
    | cons c cs ih =>
      rw [List.length_cons, Finset.sum_range_succ']
      simp only [List.getD_cons_succ, List.getD_cons_zero]
      rw [ih, absSum, absSum, List.map_cons, List.sum_cons, add_comm]
  refine (mahlerMeasure_le_sum_norm_coeff _).trans_eq ?_
  rw [sum_over_range' _ (fun _ => norm_zero) _ (Nat.lt_succ_of_le (natDegree_toComplex_le cs)),
    ← hsum, Rat.cast_sum]
  refine Finset.sum_congr rfl fun k _ => ?_
  rw [toComplex, coeff_map, coeff_toPolynomial, eq_ratCast, Rat.cast_abs]
  exact Complex.norm_ratCast _

/-- An integer polynomial with the roots of the list. -/
theorem exists_map_eq (cs : List ℚ) :
    ∃ P : ℤ[X], P.map (Int.castRingHom ℂ) = C (denominator cs : ℂ) * toComplex cs := by
  refine (mem_lifts _).1 ((lifts_iff_coeff_lifts _).2 fun k => ?_)
  rw [coeff_C_mul, toComplex, coeff_map, coeff_toPolynomial, eq_ratCast]
  rcases lt_or_ge k cs.length with hk | hk
  · rw [List.getD_eq_getElem _ _ hk]
    obtain ⟨n, hn⟩ := exists_denominator_mul_eq (List.getElem_mem hk)
    exact ⟨n, by rw [eq_intCast]; exact_mod_cast congrArg (Rat.cast : ℚ → ℂ) hn.symm⟩
  · rw [List.getD_eq_default _ _ hk, Rat.cast_zero, mul_zero]
    exact ⟨0, map_zero _⟩

/-- The measure of the integer polynomial is a number with as many bits as the coefficients. -/
theorem mahlerMeasure_denominator_mul_le (cs : List ℚ) :
    (C (denominator cs : ℂ) * toComplex cs).mahlerMeasure ≤ 2 ^ bits cs := by
  rw [mahlerMeasure_mul, mahlerMeasure_const, Complex.norm_natCast]
  calc (denominator cs : ℝ) * (toComplex cs).mahlerMeasure
      ≤ denominator cs * (1 + absSum cs : ℚ) := by
        gcongr
        refine (mahlerMeasure_toComplex_le cs).trans (Rat.cast_le.2 ?_)
        linarith
    _ ≤ 2 ^ bits cs := by exact_mod_cast denominator_mul_le cs

/-- The reciprocal of this power of two bounds the distances of roots from below. -/
def separationBits (cs : List ℚ) : ℕ := cs.length * (2 * bits cs + cs.length)

theorem one_le_two_pow_mul_norm_sub (hcs : Squarefree (toPolynomial cs)) {z w : ℂ}
    (hz : aeval z (toReal cs) = 0) (hw : aeval w (toReal cs) = 0) (hne : z ≠ w) :
    1 ≤ 2 ^ separationBits cs * ‖z - w‖ := by
  obtain ⟨P, hP⟩ := exists_map_eq cs
  have hunit : IsUnit (C (denominator cs : ℂ)) :=
    isUnit_C.2 (isUnit_iff_ne_zero.2 (Nat.cast_ne_zero.2 (denominator_ne_zero cs)))
  have hseparable : (C (denominator cs : ℂ) * toComplex cs).Separable :=
    .unit_mul hunit (PerfectField.separable_iff_squarefree.2 hcs).map
  have hroot : ∀ {y}, aeval y (toReal cs) = 0 → (C (denominator cs : ℂ) * toComplex cs).IsRoot y :=
    fun hy => (isRoot_toComplex.2 hy).dvd (dvd_mul_left _ _)
  have hmeasure := mahlerMeasure_denominator_mul_le cs
  have hdegree : (C (denominator cs : ℂ) * toComplex cs).natDegree ≤ cs.length :=
    (natDegree_C_mul_le _ _).trans (natDegree_toComplex_le cs)
  have hbound := one_le_mahlerMeasure_mul_norm_sub hP hseparable (hroot hz) (hroot hw) hne
  generalize (C (denominator cs : ℂ) * toComplex cs).natDegree = n at hdegree hbound
  have hexponent : n * (n - 1) + bits cs * (2 * n - 1) ≤ separationBits cs := by
    calc n * (n - 1) + bits cs * (2 * n - 1)
        ≤ cs.length * cs.length + bits cs * (2 * cs.length) := by gcongr <;> omega
      _ = separationBits cs := by
        rw [separationBits]
        ring
  calc 1 ≤ 2 ^ (n * (n - 1)) * (2 ^ bits cs) ^ (2 * n - 1) * ‖z - w‖ :=
        hbound.trans (by gcongr; exact mahlerMeasure_nonneg _)
    _ = 2 ^ (n * (n - 1) + bits cs * (2 * n - 1)) * ‖z - w‖ := by rw [← pow_mul, pow_add]
    _ ≤ 2 ^ separationBits cs * ‖z - w‖ := by
      gcongr
      exact one_le_two

end Univariate

end Cylindrical

end
