import Mathlib
import Cylindrical.Poly.Factorization
import Cylindrical.Proofs.Univariate.Degree

/-!
# Rational roots

The numerator of a rational root divides the constant coefficient of an integer polynomial and the
denominator divides the leading one.  As long as these are within the limit all their divisors are
listed (`mem_of_dvd_of_divisors?`), so every rational root is found (`mem_rationalRoots`).
-/

noncomputable section

namespace Cylindrical

namespace Poly

/-! ## Divisors -/

section

variable {n k d : ℕ} {ds : List ℕ}

/-- A divisor up to the next bound is the bound itself or one that was reached before. -/
theorem divisor_le_succ_iff :
    d ≠ 0 ∧ d ≤ k + 1 ∧ d ∣ n ↔ (d = k + 1 ∧ d ∣ n) ∨ (d ≠ 0 ∧ d ≤ k ∧ d ∣ n) := by
  constructor
  · rintro ⟨h0, hle, hd⟩
    rcases Nat.eq_or_lt_of_le hle with heq | hlt
    · exact .inl ⟨heq, hd⟩
    · exact .inr ⟨h0, Nat.le_of_lt_succ hlt, hd⟩
  · rintro (⟨rfl, hd⟩ | ⟨h0, hle, hd⟩)
    · exact ⟨k.succ_ne_zero, le_rfl, hd⟩
    · exact ⟨h0, hle.trans k.le_succ, hd⟩

theorem mem_divisorsUpTo : d ∈ divisorsUpTo n k ds ↔ d ∈ ds ∨ (d ≠ 0 ∧ d ≤ k ∧ d ∣ n) := by
  induction k generalizing ds with
  | zero =>
    rw [divisorsUpTo]
    exact ⟨.inl, fun h => h.resolve_right fun h => h.1 (Nat.le_zero.1 h.2.1)⟩
  | succ k ih =>
    rw [divisorsUpTo, ih, divisor_le_succ_iff]
    split_ifs with hdvd
    · have hdvd := Nat.dvd_of_mod_eq_zero hdvd
      rw [List.mem_cons, or_comm (a := d = k + 1), or_assoc]
      refine or_congr_right (or_congr_left ⟨?_, And.left⟩)
      rintro rfl
      exact ⟨rfl, hdvd⟩
    · refine or_congr_right ⟨.inr, fun h => h.resolve_left ?_⟩
      rintro ⟨rfl, hd⟩
      exact hdvd (Nat.mod_eq_zero_of_dvd hd)

theorem divisors?_eq_none_iff : divisors? n = none ↔ n = 0 ∨ divisorLimit < n := by
  rw [divisors?]
  split_ifs with h
  · simpa using h
  · simpa using h

/-- The list is complete: of two factors of a number one is at most the square root. -/
theorem mem_of_dvd_of_divisors? (h : divisors? n = some ds) (hd : d ∣ n) : d ∈ ds := by
  rw [divisors?] at h
  split_ifs at h with hn
  have hn0 : n ≠ 0 := fun h0 => hn (by simp [h0])
  obtain rfl := Option.some.inj h
  obtain ⟨e, rfl⟩ := hd
  have hd0 : d ≠ 0 := left_ne_zero_of_mul hn0
  have he0 : e ≠ 0 := right_ne_zero_of_mul hn0
  have hsmall : ∀ {k}, k ≠ 0 → k ≤ (d * e).sqrt → k ∣ d * e →
      k ∈ divisorsUpTo (d * e) (d * e).sqrt [] :=
    fun h0 hle hk => mem_divisorsUpTo.2 (.inr ⟨h0, hle, hk⟩)
  rcases Nat.lt_or_ge (d * e).sqrt d with hlt | hle
  · have hle : e ≤ (d * e).sqrt := by
      by_contra hgt
      have := Nat.mul_le_mul (Nat.succ_le_of_lt hlt) (Nat.succ_le_of_lt (not_le.1 hgt))
      have := Nat.lt_succ_sqrt (d * e)
      omega
    refine List.mem_append_right _ (List.mem_reverse.2 (List.mem_map.2 ⟨e, ?_, ?_⟩))
    · refine List.mem_filter.2 ⟨hsmall he0 hle (dvd_mul_left e d), ?_⟩
      rw [bne_iff_ne]
      intro h
      have := mul_right_cancel₀ he0 h
      omega
    · exact Nat.mul_div_cancel d (Nat.pos_of_ne_zero he0)
  · exact List.mem_append_left _ (hsmall hd0 hle (dvd_mul_right d e))

end

/-! ## Roots -/

variable {cs : List ℚ} {x a b : ℚ}

theorem mem_signedFractions {rs ss : List ℕ} (hr : x.num.natAbs ∈ rs) (hs : x.den ∈ ss) :
    x ∈ signedFractions rs ss := by
  refine List.mem_flatMap.2 ⟨_, hr, List.mem_flatMap.2 ⟨_, hs, ?_⟩⟩
  rcases Int.natAbs_eq x.num with h | h
  · rw [← h, Rat.mkRat_self]
    exact .head _
  · have hneg : -(x.num.natAbs : ℤ) = x.num := h.symm
    rw [hneg, Rat.mkRat_self]
    exact .tail _ (.head _)

/-- Adds a root to a list, unless it is there. -/
def addRoot (cs roots : List ℚ) (x : ℚ) : List ℚ :=
  if roots.contains x then roots
  else if Univariate.eval cs x = 0 then roots ++ [x]
  else roots

theorem mem_addRoot {y : ℚ} {roots : List ℚ} :
    y ∈ addRoot cs roots x ↔ y ∈ roots ∨ y = x ∧ Univariate.eval cs x = 0 := by
  rw [addRoot]
  split_ifs with hmem hroot
  · rw [List.contains_iff_mem] at hmem
    exact ⟨.inl, fun h => h.elim id fun h => h.1 ▸ hmem⟩
  · rw [List.mem_append, List.mem_singleton, and_iff_left hroot]
  · exact ⟨.inl, fun h => h.resolve_right fun h => hroot h.2⟩

theorem nodup_addRoot {roots : List ℚ} (h : roots.Nodup) : (addRoot cs roots x).Nodup := by
  rw [addRoot]
  split_ifs with hmem
  · exact h
  · rw [List.contains_iff_mem] at hmem
    exact List.nodup_append.2 ⟨h, List.nodup_singleton x, fun y hy z hz =>
      List.mem_singleton.1 hz ▸ fun hyx => hmem (hyx ▸ hy)⟩
  · exact h

/-- Collecting the roots in a list finds all of them, each once. -/
theorem foldl_addRoot_spec (cs : List ℚ) {roots : List ℚ} (h : roots.Nodup) (xs : List ℚ) :
    (xs.foldl (addRoot cs) roots).Nodup ∧
      ∀ y, y ∈ xs.foldl (addRoot cs) roots ↔
        y ∈ roots ∨ y ∈ xs ∧ Univariate.eval cs y = 0 := by
  induction xs generalizing roots with
  | nil => exact ⟨h, by simp⟩
  | cons x xs ih =>
    obtain ⟨hnodup, hmem⟩ := ih (nodup_addRoot (x := x) h)
    refine ⟨hnodup, fun y => ?_⟩
    rw [List.foldl_cons, hmem, mem_addRoot, List.mem_cons, or_assoc]
    refine or_congr_right ⟨?_, ?_⟩
    · rintro (⟨rfl, hy⟩ | ⟨hy, hy0⟩)
      · exact ⟨.inl rfl, hy⟩
      · exact ⟨.inr hy, hy0⟩
    · rintro ⟨rfl | hy, hy0⟩
      · exact .inl ⟨rfl, hy0⟩
      · exact .inr ⟨hy, hy0⟩

/-- What is found are different roots. -/
theorem rationalRoots_spec (cs : List ℚ) :
    (rationalRoots cs).Nodup ∧ ∀ x ∈ rationalRoots cs, Univariate.eval cs x = 0 := by
  rw [rationalRoots]
  split
  · split_ifs
    · exact ⟨.nil, List.forall_mem_nil _⟩
    · split
      · rename_i rs ss _ _
        obtain ⟨hnodup, hmem⟩ := foldl_addRoot_spec cs .nil (signedFractions rs ss)
        exact ⟨hnodup, fun x hx => (((hmem x).1 hx).resolve_left List.not_mem_nil).2⟩
      · exact ⟨.nil, List.forall_mem_nil _⟩
  · exact ⟨.nil, List.forall_mem_nil _⟩

/-- Beyond the limit nothing is found. -/
theorem rationalRoots_eq_nil (ha : cs.head? = some a) (hb : cs.getLast? = some b)
    (h : divisorLimit < a.num.natAbs ∨ divisorLimit < b.num.natAbs) : rationalRoots cs = [] := by
  rw [rationalRoots, ha, hb]
  simp only
  split_ifs
  · rfl
  · split
    · rename_i hrs hss
      rcases h with h | h
      · rw [divisors?_eq_none_iff.2 (.inr h)] at hrs
        cases hrs
      · rw [divisors?_eq_none_iff.2 (.inr h)] at hss
        cases hss
    · rfl

theorem natAbs_num_le_divisorLimit (hden : a.den = 1) (h : |a| ≤ 2 ^ 40) :
    a.num.natAbs ≤ divisorLimit := by
  rw [Univariate.abs_eq_natAbs_div, hden, Nat.cast_one, div_one] at h
  exact_mod_cast h

/-- The polynomial over the integers. -/
theorem exists_integer_polynomial (hint : ∀ c ∈ cs, c.den = 1) (ha : cs.head? = some a)
    (hb : cs.getLast? = some b) (hb0 : b ≠ 0) :
    ∃ P : Polynomial ℤ, P.map (Int.castRingHom ℚ) = Univariate.toPolynomial cs ∧
      P.coeff 0 = a.num ∧ P.leadingCoeff = b.num := by
  have hnum : ∀ c ∈ cs, (c.num : ℚ) = c := fun c hc => (Rat.den_eq_one_iff c).1 (hint c hc)
  obtain ⟨P, hP⟩ := (Polynomial.mem_lifts (f := Int.castRingHom ℚ) (Univariate.toPolynomial cs)).1 <| by
    refine (Polynomial.lifts_iff_coeff_lifts _).2 fun k => ?_
    rw [Univariate.coeff_toPolynomial]
    rcases lt_or_ge k cs.length with hk | hk
    · rw [List.getD_eq_getElem _ _ hk]
      exact ⟨_, hnum _ (List.getElem_mem hk)⟩
    · rw [List.getD_eq_default _ _ hk]
      exact ⟨0, map_zero _⟩
  refine ⟨P, hP, ?_, ?_⟩
  · have hcoeff : ((P.coeff 0 : ℤ) : ℚ) = a := by
      rw [← eq_intCast (Int.castRingHom ℚ), ← Polynomial.coeff_map, hP,
        Univariate.coeff_toPolynomial, List.getD_eq_getElem?_getD, ← List.head?_eq_getElem?, ha,
        Option.getD_some]
    rw [← hcoeff, Rat.num_intCast]
  · obtain ⟨ds, rfl⟩ := List.getLast?_eq_some_iff.1 hb
    have hlead : ((P.leadingCoeff : ℤ) : ℚ) = b := by
      rw [← eq_intCast (Int.castRingHom ℚ),
        ← Polynomial.leadingCoeff_map_of_injective (Int.castRingHom ℚ).injective_int, hP,
        Polynomial.leadingCoeff, Univariate.natDegree_toPolynomial_append_singleton hb0,
        Univariate.coeff_toPolynomial, List.getD_eq_getElem _ _ (by simp), List.getElem_concat_length rfl]
    rw [← hlead, Rat.num_intCast]

/-- Within the limit every rational root is found. -/
theorem mem_rationalRoots (hint : ∀ c ∈ cs, c.den = 1) (ha : cs.head? = some a)
    (hb : cs.getLast? = some b) (ha0 : a ≠ 0) (hb0 : b ≠ 0) (hla : a.num.natAbs ≤ divisorLimit)
    (hlb : b.num.natAbs ≤ divisorLimit) (hx : Univariate.eval cs x = 0) : x ∈ rationalRoots cs := by
  obtain ⟨P, hP, hP0, hPlead⟩ := exists_integer_polynomial hint ha hb hb0
  have hroot : Polynomial.aeval x P = 0 := by
    rw [← Polynomial.eval_map_algebraMap]
    change (P.map (Int.castRingHom ℚ)).eval x = 0
    rw [hP, Univariate.eval_toPolynomial, hx]
  have hnum : x.num.natAbs ∣ a.num.natAbs := by
    rw [Int.natAbs_dvd_natAbs, ← hP0]
    exact (Rat.isFractionRingNum x).symm.dvd.trans (num_dvd_of_is_root hroot)
  have hden : x.den ∣ b.num.natAbs := by
    rw [← Rat.isFractionRingDen x, Int.natAbs_dvd_natAbs, ← hPlead]
    exact den_dvd_of_is_root hroot
  have hdivisors : ∀ {c : ℚ}, c ≠ 0 → c.num.natAbs ≤ divisorLimit →
      ∃ ds, divisors? c.num.natAbs = some ds := fun hc hle => by
    refine Option.ne_none_iff_exists'.1 fun h => ?_
    rcases divisors?_eq_none_iff.1 h with h | h
    · exact hc (Rat.num_eq_zero.1 (Int.natAbs_eq_zero.1 h))
    · omega
  obtain ⟨rs, hrs⟩ := hdivisors ha0 hla
  obtain ⟨ss, hss⟩ := hdivisors hb0 hlb
  have hlen : ¬cs.length < 2 := fun hlt => by
    obtain ⟨c, cs, rfl⟩ := List.exists_cons_of_ne_nil (List.ne_nil_of_mem (List.mem_of_mem_head? ha))
    obtain rfl : cs = [] := List.eq_nil_of_length_eq_zero (by simpa using hlt)
    obtain rfl : c = a := Option.some.inj ha
    exact ha0 (by simpa [Univariate.eval] using hx)
  rw [rationalRoots, ha, hb]
  simp only [ha0, hlen, hrs, hss, decide_false, Bool.or_self, Bool.false_eq_true, if_false]
  exact ((foldl_addRoot_spec cs .nil (signedFractions rs ss)).2 x).2 (.inr
    ⟨mem_signedFractions (mem_of_dvd_of_divisors? hrs hnum) (mem_of_dvd_of_divisors? hss hden), hx⟩)

end Poly

end Cylindrical

end
