import Mathlib
import Cylindrical.Residue.Reconstruction
import Cylindrical.Proofs.Residue.Field

/-!
# Rational numbers from residues

The remainders of the Euclidean algorithm and their cofactors are a basis of the lattice of all
`(n, d)` with `n ≡ d * u` modulo `m`, and its determinant is `m` up to the sign
(`IsLatticeBasis`).  Stopped at the first remainder up to the square root of `m / 2`, the algorithm
finds a fraction only if it has the residue `u` (`toRat?_sound`), and for `m ≠ 2` it finds the
fraction whose numerator and denominator are up to that bound, if there is one
(`toRat?_complete`); from `m = 3` on there is no more than one (`toRat?_spec`).
-/

namespace Cylindrical

namespace Residue

/-! ## Fractions with a given residue -/

/-- A rational number has the residue `u` modulo `m`. -/
def HasResidue (m : ℕ) (u : ℤ) (x : ℚ) : Prop :=
  Nat.Coprime x.den m ∧ x.num ≡ x.den * u [ZMOD m]

theorem hasResidue_zero {m : ℕ} {u : ℤ} (h : u ≡ 0 [ZMOD m]) : HasResidue m u 0 :=
  ⟨Nat.coprime_one_left m, by simpa using h.symm⟩

theorem mod_ne_zero_of_coprime {a p : ℕ} (hp : p.Prime) (h : a.Coprime p) : a % p ≠ 0 := fun h0 =>
  hp.one_lt.ne' (Nat.eq_one_of_dvd_coprimes h (Nat.dvd_of_mod_eq_zero h0) dvd_rfl)

theorem HasResidue.dvd_of_eq_zero {m u : ℕ} (h : HasResidue m u 0) : m ∣ u := by
  have := h.2.dvd
  simp only [Rat.den_zero, Nat.cast_one, one_mul, Rat.num_zero, sub_zero] at this
  exact_mod_cast this

theorem HasResidue.of_dvd {m n : ℕ} {u v : ℤ} {x : ℚ} (h : HasResidue m u x) (hn : n ∣ m)
    (hv : u ≡ v [ZMOD n]) : HasResidue n v x := by
  refine ⟨h.1.coprime_dvd_right hn, (h.2.of_dvd ?_).trans (hv.mul_left _)⟩
  exact_mod_cast hn

theorem HasResidue.modEq {m : ℕ} {u v : ℤ} {x : ℚ} (hu : HasResidue m u x)
    (hv : HasResidue m v x) : u ≡ v [ZMOD m] := by
  have h := (hu.2.symm.trans hv.2).dvd
  rw [← mul_sub] at h
  exact Int.modEq_iff_dvd.2
    ((Nat.isCoprime_iff_coprime.2 hu.1.symm).dvd_of_dvd_mul_left h)

/-- Residues modulo coprime numbers make up one modulo their product. -/
theorem HasResidue.mul {m n : ℕ} {u : ℤ} {x : ℚ} (hmn : m.Coprime n) (hm : HasResidue m u x)
    (hn : HasResidue n u x) : HasResidue (m * n) u x := by
  refine ⟨hm.1.mul_right hn.1, ?_⟩
  rw [Nat.cast_mul]
  exact (Int.modEq_and_modEq_iff_modEq_mul (by simpa using hmn)).1 ⟨hm.2, hn.2⟩

theorem hasResidue_prod {ps : List ℕ} {u : ℤ} {x : ℚ} (hcop : ps.Pairwise Nat.Coprime)
    (h : ∀ p ∈ ps, HasResidue p u x) : HasResidue ps.prod u x := by
  induction ps with
  | nil => exact ⟨Nat.coprime_one_right _, Int.modEq_one⟩
  | cons p ps ih =>
    obtain ⟨hp, hps⟩ := List.pairwise_cons.1 hcop
    rw [List.prod_cons]
    exact (h p (.head _)).mul (Nat.coprime_list_prod_right_iff.2 hp)
      (ih hps fun q hq => h q (.tail _ hq))

/-- The denominator of a number in lowest terms cannot share a factor with the modulus. -/
theorem hasResidue_of_modEq {m : ℕ} {u : ℤ} {x : ℚ} (h : x.num ≡ x.den * u [ZMOD m]) :
    HasResidue m u x := by
  refine ⟨Nat.eq_one_of_dvd_coprimes x.reduced ?_ (Nat.gcd_dvd_left _ _), h⟩
  have hden : ((Nat.gcd x.den m : ℕ) : ℤ) ∣ x.den := by exact_mod_cast Nat.gcd_dvd_left _ _
  have hm : ((Nat.gcd x.den m : ℕ) : ℤ) ∣ m := by exact_mod_cast Nat.gcd_dvd_right _ _
  have hnum := (dvd_sub_right (hden.mul_right u)).1 (hm.trans h.dvd)
  exact Int.natCast_dvd.1 hnum

theorem hasResidue_div_of_pos {m : ℕ} {u n d : ℤ} (hd : 0 < d) (hgcd : n.natAbs.Coprime d.natAbs)
    (h : n ≡ d * u [ZMOD m]) : HasResidue m u ((n : ℚ) / d) := by
  refine hasResidue_of_modEq ?_
  rwa [Rat.num_div_eq_of_coprime hd hgcd, Rat.den_div_eq_of_coprime hd hgcd]

theorem hasResidue_div {m : ℕ} {u n d : ℤ} (hd : d ≠ 0) (hgcd : n.natAbs.Coprime d.natAbs)
    (h : n ≡ d * u [ZMOD m]) : HasResidue m u ((n : ℚ) / d) := by
  rcases lt_or_gt_of_ne hd with hd | hd
  · have := hasResidue_div_of_pos (m := m) (u := u) (n := -n) (d := -d) (by omega)
      (by simpa using hgcd) (by simpa using h.neg)
    simpa using this
  · exact hasResidue_div_of_pos hd hgcd h

/-! ## The Euclidean algorithm -/

theorem abs_add_of_mul_nonneg {a b : ℤ} (h : 0 ≤ a * b) : |a + b| = |a| + |b| :=
  (abs_add_eq_add_abs_iff a b).2 (mul_nonneg_iff.1 h)

/-- Two successive remainders and their cofactors, as the Euclidean algorithm on `m` and `u`
produces them. -/
structure IsLatticeBasis (m : ℕ) (u : ℤ) (r₀ r₁ : ℕ) (t₀ t₁ : ℤ) : Prop where
  previous : (r₀ : ℤ) ≡ t₀ * u [ZMOD m]
  current : (r₁ : ℤ) ≡ t₁ * u [ZMOD m]
  det : (r₀ : ℤ) * t₁ - r₁ * t₀ = m ∨ (r₀ : ℤ) * t₁ - r₁ * t₀ = -m
  alternate : t₀ * t₁ ≤ 0

namespace IsLatticeBasis

variable {m r₀ r₁ : ℕ} {u t₀ t₁ : ℤ}

theorem start (m : ℕ) (u : ℤ) {r : ℕ} (hr : (r : ℤ) ≡ u [ZMOD m]) :
    IsLatticeBasis m u m r 0 1 where
  previous := by simp [Int.ModEq]
  current := by simpa using hr
  det := by simp
  alternate := by simp

theorem next (h : IsLatticeBasis m u r₀ r₁ t₀ t₁) :
    IsLatticeBasis m u r₁ (r₀ % r₁) t₁ (t₀ - (r₀ / r₁ : ℕ) * t₁) := by
  have hdet : (r₁ : ℤ) * (t₀ - (r₀ / r₁ : ℕ) * t₁) - (r₀ % r₁ : ℕ) * t₁ =
      -(r₀ * t₁ - r₁ * t₀) := by
    rw [cast_remainder]
    ring
  refine ⟨h.current, ?_, ?_, ?_⟩
  · rw [cast_remainder]
    calc _ ≡ t₀ * u - (r₀ / r₁ : ℕ) * (t₁ * u) [ZMOD m] :=
          h.previous.sub (h.current.mul_left _)
      _ = (t₀ - (r₀ / r₁ : ℕ) * t₁) * u := by ring
  · rw [hdet]
    rcases h.det with h | h <;> simp [h]
  · nlinarith [h.alternate, mul_nonneg (Int.natCast_nonneg (r₀ / r₁)) (sq_nonneg t₁)]

/-- Every element of the lattice is an integer combination of the basis. -/
theorem exists_combination (h : IsLatticeBasis m u r₀ r₁ t₀ t₁) (hm : m ≠ 0) {a b : ℤ}
    (hab : a ≡ b * u [ZMOD m]) : ∃ x y : ℤ, a = x * r₀ + y * r₁ ∧ b = x * t₀ + y * t₁ := by
  have hm : (m : ℤ) ≠ 0 := by exact_mod_cast hm
  -- By Cramer's rule the coefficients are these two numbers up to the sign of the determinant.
  obtain ⟨x, hx⟩ : (m : ℤ) ∣ a * t₁ - b * r₁ := by
    refine (Int.modEq_zero_iff_dvd).1 ?_
    calc a * t₁ - b * r₁ ≡ b * u * t₁ - b * (t₁ * u) [ZMOD m] :=
          (hab.mul_right _).sub (h.current.mul_left _)
      _ = 0 := by ring
  obtain ⟨y, hy⟩ : (m : ℤ) ∣ b * r₀ - a * t₀ := by
    refine (Int.modEq_zero_iff_dvd).1 ?_
    calc b * r₀ - a * t₀ ≡ b * (t₀ * u) - b * u * t₀ [ZMOD m] :=
          (h.previous.mul_left _).sub (hab.mul_right _)
      _ = 0 := by ring
  rcases h.det with hd | hd
  · refine ⟨x, y, mul_left_cancel₀ hm ?_, mul_left_cancel₀ hm ?_⟩
    · linear_combination r₀ * hx + r₁ * hy - a * hd
    · linear_combination t₀ * hx + t₁ * hy - b * hd
  · refine ⟨-x, -y, mul_left_cancel₀ hm ?_, mul_left_cancel₀ hm ?_⟩
    · linear_combination -r₀ * hx - r₁ * hy + a * hd
    · linear_combination -t₀ * hx - t₁ * hy + b * hd

/-- A short element of the lattice is a multiple of the current remainder with its cofactor, unless its
two entries are as large as the bound. -/
theorem eq_smul_of_short (h : IsLatticeBasis m u r₀ r₁ t₀ t₁) (hm : m ≠ 0) {B a b : ℤ}
    (hB : 2 * B ^ 2 ≤ m) (h₀ : B < r₀) (h₁ : r₁ ≤ B) (hab : a ≡ b * u [ZMOD m]) (ha : |a| ≤ B)
    (hb : |b| ≤ B) :
    (∃ y : ℤ, a = y * r₁ ∧ b = y * t₁) ∨ |a| = B ∧ |b| = B ∧ (m : ℤ) = 2 * B ^ 2 := by
  obtain ⟨x, y, rfl, rfl⟩ := h.exists_combination hm hab
  by_cases hx : x = 0
  · exact .inl ⟨y, by simp [hx], by simp [hx]⟩
  have hB0 : 0 ≤ B := (Int.natCast_nonneg r₁).trans h₁
  have hx1 : 1 ≤ |x| := Int.one_le_abs hx
  rcases lt_or_ge (x * y) 0 with hxy | hxy
  · -- The cofactors have opposite signs, so that their multiples cannot cancel each other.
    right
    have hy1 : 1 ≤ |y| := Int.one_le_abs (right_ne_zero_of_mul hxy.ne)
    have ht : |t₁| ≤ B := by
      have hsum := abs_add_of_mul_nonneg (a := x * t₀) (b := y * t₁)
        (by nlinarith [h.alternate])
      have : |t₁| ≤ |y * t₁| := by
        rw [abs_mul]
        exact le_mul_of_one_le_left (abs_nonneg _) hy1
      linarith [abs_nonneg (x * t₀)]
    have hdet : (m : ℤ) * |x| = |(x * r₀ + y * r₁) * t₁ - (x * t₀ + y * t₁) * r₁| := by
      rw [show (x * r₀ + y * r₁) * t₁ - (x * t₀ + y * t₁) * r₁ = (r₀ * t₁ - r₁ * t₀) * x by ring,
        abs_mul]
      rcases h.det with hd | hd <;> simp [hd]
    have hle : (m : ℤ) ≤ |x * r₀ + y * r₁| * |t₁| + |x * t₀ + y * t₁| * r₁ := by
      refine (le_mul_of_one_le_right (Int.natCast_nonneg m) hx1).trans ?_
      rw [hdet]
      refine (abs_sub _ _).trans ?_
      rw [abs_mul, abs_mul, Nat.abs_cast]
    generalize x * r₀ + y * r₁ = a at ha hle
    generalize x * t₀ + y * t₁ = b at hb hle
    have ha' := mul_le_mul_of_nonneg_left ht (abs_nonneg a)
    have hb' := mul_le_mul_of_nonneg_left h₁ (abs_nonneg b)
    have hm1 : (1 : ℤ) ≤ m := by exact_mod_cast Nat.one_le_iff_ne_zero.2 hm
    -- Both products reach the square of the bound, and so does each of their factors.
    refine ⟨le_antisymm ha ?_, le_antisymm hb ?_, ?_⟩ <;> nlinarith
  · -- The multiples of the remainders add up, and the previous one is too large already.
    have hsum := abs_add_of_mul_nonneg (a := x * r₀) (b := y * r₁) (by
      have := mul_nonneg hxy (mul_nonneg (Int.natCast_nonneg r₀) (Int.natCast_nonneg r₁))
      linarith)
    have : (r₀ : ℤ) ≤ |x * r₀| := by
      rw [abs_mul, Nat.abs_cast]
      exact le_mul_of_one_le_left (Int.natCast_nonneg _) hx1
    linarith [abs_nonneg (y * r₁)]

end IsLatticeBasis

/-- Where the bounded algorithm stops, the remainders on both sides of the bound are a basis. -/
theorem boundedCofactor_spec {m bound r₀ r₁ : ℕ} {u t₀ t₁ : ℤ}
    (h : IsLatticeBasis m u r₀ r₁ t₀ t₁) (h₀ : bound < r₀) {n : ℕ} {d : ℤ}
    (he : boundedCofactor bound r₀ r₁ t₀ t₁ = (n, d)) :
    n ≤ bound ∧ ∃ r t, bound < r ∧ IsLatticeBasis m u r n t d := by
  fun_induction boundedCofactor bound r₀ r₁ t₀ t₁ with
  | case1 r₀ r₁ t₀ t₁ hr =>
    cases he
    exact ⟨hr, r₀, t₀, h₀, h⟩
  | case2 r₀ r₁ t₀ t₁ hr _ ih => exact ih h.next (by omega) he

/-! ## The reconstruction -/

/-- The bound on numerators and denominators. -/
def fractionBound (m : ℕ) : ℕ := (m / 2).sqrt

theorem le_fractionBound_iff {m n : ℕ} : n ≤ fractionBound m ↔ 2 * n ^ 2 ≤ m := by
  rw [fractionBound, Nat.le_sqrt']
  omega

theorem cast_le_sqrt_iff {m n : ℕ} : (n : ℝ) ≤ √((m : ℝ) / 2) ↔ n ≤ fractionBound m := by
  rw [Real.le_sqrt (by positivity) (by positivity), le_fractionBound_iff, le_div_iff₀' two_pos]
  exact_mod_cast Iff.rfl

theorem fractionBound_mono {m n : ℕ} (h : m ≤ n) : fractionBound m ≤ fractionBound n :=
  Nat.sqrt_le_sqrt (Nat.div_le_div_right h)

theorem fractionBound_lt {m : ℕ} (hm : m ≠ 0) : fractionBound m < m := by
  have := Nat.sqrt_le_self (m / 2)
  rw [fractionBound]
  omega

theorem ofInt_modEq {m : ℕ} (hm : m ≠ 0) (u : ℤ) : ((ofInt m u : ℕ) : ℤ) ≡ u [ZMOD m] := by
  have hm : (m : ℤ) ≠ 0 := by exact_mod_cast hm
  rw [ofInt, Int.toNat_of_nonneg (Int.emod_nonneg _ hm)]
  exact Int.mod_modEq u m

/-- What the algorithm stops at. -/
theorem exists_basis_of_boundedCofactor {m : ℕ} (hm : m ≠ 0) (u : ℤ) {n : ℕ} {d : ℤ}
    (he : boundedCofactor (fractionBound m) m (ofInt m u) 0 1 = (n, d)) :
    n ≤ fractionBound m ∧ ∃ r t, fractionBound m < r ∧ IsLatticeBasis m u r n t d :=
  boundedCofactor_spec (.start m u (ofInt_modEq hm u)) (fractionBound_lt hm) he

theorem toRat?_eq_some_iff {m : ℕ} {u : ℤ} {x : ℚ} {n : ℕ} {d : ℤ}
    (he : boundedCofactor (fractionBound m) m (ofInt m u) 0 1 = (n, d)) :
    toRat? m u = some x ↔
      (d ≠ 0 ∧ d.natAbs ≤ fractionBound m ∧ n.Coprime d.natAbs) ∧ x = ((n : ℤ) : ℚ) / d := by
  rw [fractionBound] at he
  rw [toRat?, he, fractionBound]
  simp only [Bool.or_eq_true, decide_eq_true_eq, bne_iff_ne, ne_eq]
  split_ifs with hc
  · simp only [false_iff]
    rintro ⟨⟨hd, hle, hgcd⟩, -⟩
    rcases hc with (hc | hc) | hc
    · exact hd hc
    · omega
    · exact hc hgcd
  · simp only [not_or, not_not] at hc
    simp only [Option.some.injEq]
    exact ⟨fun h => ⟨⟨hc.1.1, by omega, hc.2⟩, h.symm⟩, fun h => h.2.symm⟩

/-- A fraction that is found has the residue it is found for. -/
theorem toRat?_sound {m : ℕ} (hm : m ≠ 0) {u : ℤ} {x : ℚ} (h : toRat? m u = some x) :
    HasResidue m u x := by
  obtain ⟨n, d, he⟩ : ∃ n d, boundedCofactor (fractionBound m) m (ofInt m u) 0 1 = (n, d) :=
    ⟨_, _, rfl⟩
  obtain ⟨⟨hd, -, hgcd⟩, rfl⟩ := (toRat?_eq_some_iff he).1 h
  obtain ⟨-, r, t, -, hbasis⟩ := exists_basis_of_boundedCofactor hm u he
  exact hasResidue_div hd hgcd hbasis.current

/-- A fraction within the bounds is found for its residue. -/
theorem toRat?_complete {m : ℕ} (hm : m ≠ 2) {u : ℤ} {x : ℚ}
    (h : x.num ≡ x.den * u [ZMOD m]) (hnum : x.num.natAbs ≤ fractionBound m)
    (hden : x.den ≤ fractionBound m) : toRat? m u = some x := by
  obtain ⟨n, d, he⟩ : ∃ n d, boundedCofactor (fractionBound m) m (ofInt m u) 0 1 = (n, d) :=
    ⟨_, _, rfl⟩
  have hpos : 0 < fractionBound m := x.den_pos.trans_le hden
  have hle : 2 * fractionBound m ^ 2 ≤ m := le_fractionBound_iff.1 le_rfl
  have hm0 : m ≠ 0 := by
    rintro rfl
    simp [fractionBound] at hpos
  obtain ⟨hn, r, t, hr, hbasis⟩ := exists_basis_of_boundedCofactor hm0 u he
  obtain ⟨y, hy, hy'⟩ : ∃ y : ℤ, x.num = y * n ∧ x.den = y * d := by
    refine (hbasis.eq_smul_of_short hm0 (B := fractionBound m) (by exact_mod_cast hle)
      (by exact_mod_cast hr) (by exact_mod_cast hn) h
      (by rw [Int.abs_eq_natAbs]; exact_mod_cast hnum)
      (by rw [Nat.abs_cast]; exact_mod_cast hden)).resolve_right ?_
    -- Numerator and denominator are coprime, so they are both equal to the bound only if it is one.
    rintro ⟨ha, hb, heq⟩
    rw [Int.abs_eq_natAbs] at ha
    rw [Nat.abs_cast] at hb
    have hone : fractionBound m = 1 := Nat.eq_one_of_dvd_coprimes x.reduced
      (by rw [Int.natCast_inj.1 ha]) (by rw [Int.natCast_inj.1 hb])
    rw [hone] at heq
    exact hm (by exact_mod_cast heq)
  -- The fraction is in lowest terms, so the multiple is the remainder itself up to the sign.
  have hunit : y.natAbs = 1 := Nat.eq_one_of_dvd_coprimes x.reduced
    (Int.natAbs_dvd_natAbs.2 ⟨n, hy⟩) (by simpa using Int.natAbs_dvd_natAbs.2 ⟨d, hy'⟩)
  have hnum' : x.num.natAbs = n := by rw [hy, Int.natAbs_mul, hunit, one_mul, Int.natAbs_natCast]
  have hden' : x.den = d.natAbs := by
    simpa [Int.natAbs_mul, hunit] using congrArg Int.natAbs hy'
  have hd : d ≠ 0 := by
    rintro rfl
    simp at hden'
  refine (toRat?_eq_some_iff he).2 ⟨⟨hd, hden' ▸ hden, ?_⟩, ?_⟩
  · rw [← hnum', ← hden']
    exact x.reduced
  · have hy0 : (y : ℚ) ≠ 0 := by
      rintro h0
      simp [Int.cast_eq_zero.1 h0] at hunit
    have hx : x = (x.num : ℚ) / (x.den : ℤ) := by simpa using x.num_div_den.symm
    rw [hx, hy, hy', Int.cast_mul, Int.cast_mul, mul_div_mul_left _ _ hy0]

/-! ## Fractions within the bounds -/

/-- A fraction `n / d` in lowest terms and within the bounds that has the residue `u` modulo `m`. -/
structure IsBoundedFraction (m : ℕ) (u n d : ℤ) : Prop where
  coprime : IsCoprime n d
  pos : 0 < d
  den_le : d ≤ fractionBound m
  num_le : |n| ≤ fractionBound m
  modEq : n ≡ d * u [ZMOD m]

namespace IsBoundedFraction

variable {m : ℕ} {u n d : ℤ}

theorem num_div (h : IsBoundedFraction m u n d) : ((n : ℚ) / d).num = n :=
  Rat.num_div_eq_of_coprime h.pos (Int.isCoprime_iff_gcd_eq_one.1 h.coprime)

theorem den_div (h : IsBoundedFraction m u n d) : (((n : ℚ) / d).den : ℤ) = d :=
  Rat.den_div_eq_of_coprime h.pos (Int.isCoprime_iff_gcd_eq_one.1 h.coprime)

theorem toRat?_eq (h : IsBoundedFraction m u n d) (hm : m ≠ 2) : toRat? m u = some ((n : ℚ) / d) := by
  have hnum := h.num_le
  have hden := h.den_le
  rw [Int.abs_eq_natAbs] at hnum
  refine toRat?_complete hm ?_ ?_ ?_
  · rw [h.num_div, h.den_div]
    exact h.modEq
  · rw [h.num_div]
    exact_mod_cast hnum
  · rw [← h.den_div] at hden
    exact_mod_cast hden

theorem of_pos {n d : ℤ} (hd : 0 < d) (hgcd : n.natAbs.Coprime d.natAbs)
    (hle : d.natAbs ≤ fractionBound m) (hn : n.natAbs ≤ fractionBound m)
    (h : n ≡ d * u [ZMOD m]) : IsBoundedFraction m u n d where
  coprime := Int.isCoprime_iff_gcd_eq_one.2 hgcd
  pos := hd
  den_le := by omega
  num_le := by
    rw [Int.abs_eq_natAbs]
    exact_mod_cast hn
  modEq := h

/-- What is found is a fraction within the bounds. -/
theorem of_toRat? (hm : m ≠ 0) {x : ℚ} (h : toRat? m u = some x) :
    ∃ n d, IsBoundedFraction m u n d ∧ x = (n : ℚ) / d := by
  obtain ⟨n, d, he⟩ : ∃ n d, boundedCofactor (fractionBound m) m (ofInt m u) 0 1 = (n, d) :=
    ⟨_, _, rfl⟩
  obtain ⟨⟨hd, hle, hgcd⟩, rfl⟩ := (toRat?_eq_some_iff he).1 h
  obtain ⟨hn, r, t, -, hbasis⟩ := exists_basis_of_boundedCofactor hm u he
  rcases lt_or_gt_of_ne hd with hneg | hpos
  · refine ⟨-n, -d, of_pos (by omega) (by simpa using hgcd) (by simpa using hle) (by simpa using hn)
      (by simpa using hbasis.current.neg), ?_⟩
    rw [Int.cast_neg, Int.cast_neg, neg_div_neg_eq]
  · exact ⟨n, d, of_pos hpos (by simpa using hgcd) hle (by simpa using hn) hbasis.current, rfl⟩

theorem eq_of_eq {n' d' : ℤ} (h : IsBoundedFraction m u n d) (h' : IsBoundedFraction m u n' d')
    (he : (n : ℚ) / d = n' / d') : n = n' ∧ d = d' :=
  ⟨by rw [← h.num_div, he, h'.num_div], by rw [← h.den_div, he, h'.den_div]⟩

end IsBoundedFraction

/-- A fraction is found exactly if there is one within the bounds, and then there is only one. -/
theorem toRat?_spec {m : ℕ} (hm : 3 ≤ m) (u : ℤ) :
    (∀ x, toRat? m u = some x ↔ ∃ n d : ℤ, IsBoundedFraction m u n d ∧ x = (n : ℚ) / d) ∧
    (toRat? m u = none ↔ ¬∃ n d : ℤ, IsBoundedFraction m u n d) ∧
    ∀ n d : ℤ, IsBoundedFraction m u n d →
      IsCoprime d m ∧ ∀ n' d' : ℤ, IsBoundedFraction m u n' d' → n' = n ∧ d' = d := by
  have hfound : ∀ n d : ℤ, IsBoundedFraction m u n d → toRat? m u = some ((n : ℚ) / d) :=
    fun n d h => h.toRat?_eq (by omega)
  refine ⟨fun x => ⟨IsBoundedFraction.of_toRat? (by omega), ?_⟩, ?_, fun n d h =>
    ⟨?_, fun n' d' h' => ?_⟩⟩
  · rintro ⟨n, d, h, rfl⟩
    exact hfound n d h
  · refine ⟨?_, fun hne => Option.eq_none_iff_forall_ne_some.2 fun x hx => ?_⟩
    · rintro hnone ⟨n, d, h⟩
      rw [hfound n d h] at hnone
      cases hnone
    · obtain ⟨n, d, h, -⟩ := IsBoundedFraction.of_toRat? (by omega) hx
      exact hne ⟨n, d, h⟩
  · have hcop := (toRat?_sound (by omega) (hfound n d h)).1
    rw [← h.den_div]
    exact Nat.isCoprime_iff_coprime.2 hcop
  · have he := (hfound n' d' h').symm.trans (hfound n d h)
    exact h'.eq_of_eq h (Option.some.inj he)

/-- The numerator of `-4 / 3` reaches the bound for the modulus 32. -/
theorem toRat?_spec_thirtyTwo :
    IsBoundedFraction 32 20 (-4) 3 ∧ toRat? 32 20 = some (((-4 : ℤ) : ℚ) / (3 : ℤ)) := by
  have h : IsBoundedFraction 32 20 (-4) 3 := by
    refine .of_pos ?_ ?_ ?_ ?_ ?_ <;> decide +kernel
  exact ⟨h, ((toRat?_spec (by decide) 20).1 _).2 ⟨-4, 3, h, rfl⟩⟩

end Residue

end Cylindrical
