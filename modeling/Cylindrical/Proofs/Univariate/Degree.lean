import Mathlib
import Cylindrical.Univariate.Isolation
import Cylindrical.Proofs.Interval
import Cylindrical.Proofs.Univariate.Denotation

/-!
# Trimmed lists

A list without zeros at its end shows the degree and the leading coefficient of its polynomial
(`natDegree_toPolynomial`, `leadingCoeff_toReal_append_singleton`).  The quotients by the leading
coefficient give Cauchy's bound, so all roots are strictly below the power of two that isolation
starts from (`abs_lt_rootBound`), and the coefficients' size bounds that power (`rootBound_le`).
-/

noncomputable section

open Polynomial

namespace Cylindrical

namespace Univariate

variable {c : ℚ} {cs : List ℚ}

/-! ## Degrees -/

theorem toPolynomial_append_singleton (cs : List ℚ) (c : ℚ) :
    toPolynomial (cs ++ [c]) = toPolynomial cs + C c * X ^ cs.length := by
  induction cs with
  | nil => simp
  | cons d cs ih =>
    rw [List.cons_append, toPolynomial_cons, ih, toPolynomial_cons, List.length_cons]
    ring

theorem toReal_append_singleton (cs : List ℚ) (c : ℚ) :
    toReal (cs ++ [c]) = toReal cs + C (c : ℝ) * X ^ cs.length := by
  simp [toReal, toPolynomial_append_singleton]

theorem coeff_toReal_of_getElem {i : ℕ} (hi : i < cs.length) :
    (toReal cs).coeff i = (cs[i] : ℝ) := by
  rw [toReal, coeff_map, coeff_toPolynomial, List.getD_eq_getElem _ _ hi]
  rfl

theorem toReal_trim (cs : List ℚ) : toReal (trim cs) = toReal cs := by
  rw [toReal, toPolynomial_trim, toReal]

theorem degree_toReal_lt (cs : List ℚ) : (toReal cs).degree < cs.length :=
  degree_map_le.trans_lt (degree_toPolynomial_lt cs)

/-- A last coefficient that is not zero leads. -/
theorem leadingCoeff_toReal_append_singleton (hc : c ≠ 0) (cs : List ℚ) :
    (toReal (cs ++ [c])).leadingCoeff = c ∧ (toReal (cs ++ [c])).eraseLead = toReal cs := by
  have hc : (c : ℝ) ≠ 0 := Rat.cast_ne_zero.2 hc
  have hlt : (toReal cs).degree < (C (c : ℝ) * X ^ cs.length).degree := by
    rw [degree_C_mul_X_pow _ hc]
    exact degree_toReal_lt cs
  rw [toReal_append_singleton, eraseLead_add_of_degree_lt_right hlt, eraseLead_C_mul_X_pow,
    add_zero, leadingCoeff_add_of_degree_lt hlt, leadingCoeff_C_mul_X_pow]
  exact ⟨rfl, rfl⟩

theorem toReal_ne_zero_iff : toReal cs ≠ 0 ↔ toPolynomial cs ≠ 0 :=
  Polynomial.map_ne_zero_iff (algebraMap ℚ ℝ).injective

theorem natDegree_toPolynomial_append_singleton (hc : c ≠ 0) (cs : List ℚ) :
    (toPolynomial (cs ++ [c])).natDegree = cs.length := by
  have hlt := degree_toPolynomial_lt cs
  rw [← degree_C_mul_X_pow cs.length hc] at hlt
  rw [toPolynomial_append_singleton, natDegree_add_eq_right_of_degree_lt hlt,
    natDegree_C_mul_X_pow _ _ hc]

theorem natDegree_toReal_append_singleton (hc : c ≠ 0) (cs : List ℚ) :
    (toReal (cs ++ [c])).natDegree = cs.length := by
  rw [toReal, natDegree_map, natDegree_toPolynomial_append_singleton hc]

/-! ## Trimmed lists -/

theorem trim_eq_nil (h : toPolynomial cs = 0) : trim cs = [] := by
  induction cs with
  | nil => rfl
  | cons c cs ih =>
    have hc : c = 0 := by simpa using congrArg (Polynomial.eval 0) h
    rw [toPolynomial_cons, hc, C_0, add_zero, mul_eq_zero, or_iff_left X_ne_zero] at h
    rw [trim, ih h]
    exact if_pos hc

/-- The trimmed list of a polynomial that is not zero ends with the leading coefficient. -/
theorem exists_trim_eq (h0 : toPolynomial cs ≠ 0) : ∃ ds c, c ≠ 0 ∧ trim cs = ds ++ [c] := by
  induction cs with
  | nil => exact absurd rfl h0
  | cons d cs ih =>
    rw [trim]
    by_cases h : toPolynomial cs = 0
    · have hd : d ≠ 0 := by
        rintro rfl
        exact h0 (by rw [toPolynomial_cons, h, zero_mul, C_0, add_zero])
      rw [trim_eq_nil h]
      exact ⟨[], d, hd, if_neg hd⟩
    · obtain ⟨ds, c, hc, htrim⟩ := ih h
      rw [htrim]
      refine ⟨d :: ds, c, hc, ?_⟩
      split
      · rename_i hnil
        simp at hnil
      · rfl

theorem trim_append_singleton (hc : c ≠ 0) (ds : List ℚ) : trim (ds ++ [c]) = ds ++ [c] := by
  induction ds with
  | nil => simp [trim, hc]
  | cons d ds ih =>
    rw [List.cons_append, trim, ih]
    split
    · rename_i hnil
      simp at hnil
    · rfl

theorem trim_trim (cs : List ℚ) : trim (trim cs) = trim cs := by
  by_cases h0 : toPolynomial cs = 0
  · rw [trim_eq_nil h0, trim]
  · obtain ⟨ds, c, hc, h⟩ := exists_trim_eq h0
    rw [h, trim_append_singleton hc]

theorem natDegree_toReal (h0 : toPolynomial cs ≠ 0) :
    (toReal cs).natDegree = (trim cs).length - 1 := by
  obtain ⟨ds, c, hc, h⟩ := exists_trim_eq h0
  rw [← toReal_trim, h, natDegree_toReal_append_singleton hc, List.length_append,
    List.length_singleton, Nat.add_sub_cancel]

/-! ## Cauchy's bound -/

theorem ratAbs_eq_abs (x : ℚ) : x.abs = |x| := by
  rcases le_total 0 x with h | h
  · rw [Rat.abs_of_nonneg h, abs_of_nonneg h]
  · rw [Rat.abs_of_nonpos h, abs_of_nonpos h]

/-- The largest absolute value of a quotient by the leading coefficient `c`. -/
def height (c : ℚ) (ds : List ℚ) : ℚ := ds.foldl (fun h d => max h |d / c|) 0

theorem height_le_iff {m : ℚ} : height c cs ≤ m ↔ 0 ≤ m ∧ ∀ d ∈ cs, |d / c| ≤ m := by
  rw [height]
  generalize (0 : ℚ) = h
  induction cs generalizing h with
  | nil => simp
  | cons d cs ih => rw [List.foldl_cons, ih, max_le_iff, List.forall_mem_cons, and_assoc]

theorem height_nonneg : 0 ≤ height c cs := (height_le_iff.1 le_rfl).1

theorem rootBound_append_singleton (hc : c ≠ 0) (ds : List ℚ) :
    rootBound (ds ++ [c]) = 2 ^ bitLength (height c ds + 1).ceil.toNat := by
  have hmax : (fun (h d : ℚ) => let r := (d / c).abs; if h < r then r else h) =
      fun h d => max h |d / c| := by
    funext h d
    rw [← maxRat_eq_max, ← ratAbs_eq_abs]
    rfl
  rw [rootBound, trim_append_singleton hc, List.getLast?_concat, List.dropLast_concat]
  simp only [hmax, twoPow]
  rw [height]
  norm_cast

theorem cauchyBound_le (hc : c ≠ 0) (ds : List ℚ) :
    (cauchyBound (toReal (ds ++ [c])) : ℝ) ≤ (height c ds + 1 : ℚ) := by
  have hpos : 0 < |(c : ℝ)| := abs_pos.2 (Rat.cast_ne_zero.2 hc)
  have hnonneg : 0 ≤ (height c ds : ℝ) * |(c : ℝ)| :=
    mul_nonneg (Rat.cast_nonneg.2 height_nonneg) hpos.le
  have hsup : (Finset.range ds.length).sup (fun k => ‖(toReal (ds ++ [c])).coeff k‖₊) ≤
      Real.toNNReal (height c ds * |(c : ℝ)|) := by
    refine Finset.sup_le fun k hk => NNReal.coe_le_coe.1 ?_
    have hk := Finset.mem_range.1 hk
    have hcoeff : (toReal (ds ++ [c])).coeff k = (ds[k] : ℝ) := by
      rw [coeff_toReal_of_getElem (by rw [List.length_append]; omega), List.getElem_append_left hk]
    have hle := (height_le_iff.1 (le_refl (height c ds))).2 _ (List.getElem_mem hk)
    rw [abs_div, div_le_iff₀ (abs_pos.2 hc)] at hle
    rw [hcoeff, coe_nnnorm, Real.norm_eq_abs, Real.coe_toNNReal _ hnonneg]
    exact_mod_cast hle
  have hsup := NNReal.coe_le_coe.2 hsup
  rw [Real.coe_toNNReal _ hnonneg] at hsup
  rw [cauchyBound, natDegree_toReal_append_singleton hc, (leadingCoeff_toReal_append_singleton hc ds).1,
    NNReal.coe_add, NNReal.coe_div, coe_nnnorm, Real.norm_eq_abs, NNReal.coe_one, Rat.cast_add,
    Rat.cast_one]
  gcongr
  rwa [div_le_iff₀ hpos]

theorem ceil_height (c : ℚ) (ds : List ℚ) :
    ((height c ds + 1).ceil.toNat : ℚ) = (height c ds + 1).ceil := by
  have hpos : (0 : ℚ) < (height c ds + 1).ceil :=
    (add_pos_of_nonneg_of_pos height_nonneg one_pos).trans_le Rat.le_ceil
  exact_mod_cast Int.toNat_of_nonneg (Int.cast_pos.1 hpos).le

theorem height_lt_rootBound (hc : c ≠ 0) (ds : List ℚ) : height c ds + 1 < rootBound (ds ++ [c]) := by
  rw [rootBound_append_singleton hc]
  calc height c ds + 1 ≤ (height c ds + 1).ceil := Rat.le_ceil
    _ = ((height c ds + 1).ceil.toNat : ℚ) := (ceil_height c ds).symm
    _ < 2 ^ bitLength (height c ds + 1).ceil.toNat := by exact_mod_cast Nat.lt_log2_self

/-- All real roots lie strictly between the negative of the bound and the bound. -/
theorem abs_lt_rootBound (hc : c ≠ 0) {ds : List ℚ} {x : ℝ} (hx : (toReal (ds ++ [c])).IsRoot x) :
    |x| < rootBound (ds ++ [c]) := by
  have h0 : toReal (ds ++ [c]) ≠ 0 := fun h => by
    have := (leadingCoeff_toReal_append_singleton hc ds).1
    rw [h, leadingCoeff_zero] at this
    exact hc (Rat.cast_eq_zero.1 this.symm)
  calc |x| < cauchyBound (toReal (ds ++ [c])) := hx.norm_lt_cauchyBound h0
    _ ≤ (height c ds + 1 : ℚ) := cauchyBound_le hc ds
    _ < rootBound (ds ++ [c]) := Rat.cast_lt.2 (height_lt_rootBound hc ds)

/-! ## The size of the coefficients -/

theorem bits_append_singleton (cs : List ℚ) (c : ℚ) : bits (cs ++ [c]) = bits cs + rationalBits c := by
  rw [bits, List.foldl_append]
  rfl

theorem rationalBits_le_bits (h : c ∈ cs) : rationalBits c ≤ bits cs := by
  induction cs using List.reverseRecOn with
  | nil => exact absurd h List.not_mem_nil
  | append_singleton cs d ih =>
    rw [bits_append_singleton]
    rcases List.mem_append.1 h with h | h
    · exact (ih h).trans (Nat.le_add_right _ _)
    · rw [List.mem_singleton.1 h]
      exact Nat.le_add_left _ _

theorem natAbs_num_le (x : ℚ) : (x.num.natAbs : ℚ) ≤ 2 ^ bitLength x.num.natAbs := by
  exact_mod_cast Nat.lt_log2_self.le

theorem den_le (x : ℚ) : (x.den : ℚ) ≤ 2 ^ bitLength x.den := by
  exact_mod_cast Nat.lt_log2_self.le

theorem abs_eq_natAbs_div (x : ℚ) : |x| = x.num.natAbs / x.den := by
  rw [Rat.abs_def, Rat.divInt_eq_div, Int.cast_natCast, Int.cast_natCast]

theorem abs_le_two_pow (x : ℚ) : |x| ≤ 2 ^ rationalBits x := by
  have hden : (1 : ℚ) ≤ x.den := by exact_mod_cast x.den_pos
  calc |x| = x.num.natAbs / x.den := abs_eq_natAbs_div x
    _ ≤ x.num.natAbs := div_le_self (by positivity) hden
    _ ≤ 2 ^ bitLength x.num.natAbs := natAbs_num_le x
    _ ≤ 2 ^ rationalBits x := pow_le_pow_right₀ one_le_two (Nat.le_add_right _ _)

theorem inv_abs_le_two_pow (hc : c ≠ 0) : |c|⁻¹ ≤ 2 ^ rationalBits c := by
  have hnum : (1 : ℚ) ≤ c.num.natAbs := by
    exact_mod_cast Int.natAbs_pos.2 (Rat.num_ne_zero.2 hc)
  calc |c|⁻¹ = c.den / c.num.natAbs := by rw [abs_eq_natAbs_div, inv_div]
    _ ≤ c.den := div_le_self (by positivity) hnum
    _ ≤ 2 ^ bitLength c.den := den_le c
    _ ≤ 2 ^ rationalBits c := pow_le_pow_right₀ one_le_two (Nat.le_add_left _ _)

theorem height_le (hc : c ≠ 0) (ds : List ℚ) : height c ds ≤ 2 ^ bits (ds ++ [c]) := by
  refine height_le_iff.2 ⟨by positivity, fun d hd => ?_⟩
  rw [bits_append_singleton, pow_add, abs_div, div_eq_mul_inv]
  gcongr
  · exact (abs_le_two_pow d).trans (pow_le_pow_right₀ one_le_two (rationalBits_le_bits hd))
  · exact inv_abs_le_two_pow hc

theorem rootBound_le (hc : c ≠ 0) (ds : List ℚ) :
    rootBound (ds ++ [c]) ≤ 2 ^ (bits (ds ++ [c]) + 3) := by
  set n := (height c ds + 1).ceil.toNat with hn
  have hbits : (1 : ℚ) ≤ 2 ^ bits (ds ++ [c]) := one_le_pow₀ one_le_two
  have hlt : (n : ℚ) < 2 ^ (bits (ds ++ [c]) + 2) := by
    rw [hn, ceil_height]
    calc ((height c ds + 1).ceil : ℚ) < height c ds + 1 + 1 := Rat.ceil_lt
      _ ≤ 2 ^ bits (ds ++ [c]) + 1 + 1 := by
        have := height_le hc ds
        linarith
      _ ≤ 2 ^ (bits (ds ++ [c]) + 2) := by
        rw [pow_add]
        linarith
  have hn0 : n ≠ 0 := fun h0 => by
    have hle : height c ds + 1 ≤ n := (ceil_height c ds).symm ▸ Rat.le_ceil
    rw [h0, Nat.cast_zero] at hle
    have hnonneg : 0 ≤ height c ds := height_nonneg
    linarith
  rw [rootBound_append_singleton hc, ← hn, bitLength, pow_succ, pow_succ]
  have hlog : ((2 ^ n.log2 : ℕ) : ℚ) ≤ n := by exact_mod_cast Nat.log2_self_le hn0
  push_cast at hlog
  linarith

end Univariate

end Cylindrical

end
