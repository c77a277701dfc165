import Mathlib
import Cylindrical.Proofs.Poly.Leading

/-!
# The canonical form is canonical

The coefficients divided by the content are integers without a common prime factor: a prime that
divides all numerators, after division by their greatest common divisor, would divide the numerator
and the denominator of some coefficient.  So the content of a canonical form is one, and the
canonical form of a canonical form is itself (`Poly.canonical_canonical`).
-/

noncomputable section

namespace Cylindrical

namespace Poly

/-! ## Common divisors and multiples of lists -/

section

variable {α : Type} {f : α → ℕ} {xs : List α} {d : ℕ}

theorem dvd_foldl_gcd_iff {g : ℕ} :
    d ∣ xs.foldl (fun g x => Nat.gcd g (f x)) g ↔ d ∣ g ∧ ∀ x ∈ xs, d ∣ f x := by
  induction xs generalizing g with
  | nil => simp
  | cons x xs ih => rw [List.foldl_cons, ih, Nat.dvd_gcd_iff, List.forall_mem_cons, and_assoc]

theorem foldl_lcm_dvd_iff {l : ℕ} :
    xs.foldl (fun l x => Nat.lcm l (f x)) l ∣ d ↔ l ∣ d ∧ ∀ x ∈ xs, f x ∣ d := by
  induction xs generalizing l with
  | nil => simp
  | cons x xs ih => rw [List.foldl_cons, ih, Nat.lcm_dvd_iff, List.forall_mem_cons, and_assoc]

end

/-! ## The content -/

variable {ts : List Term} {p : Poly}

/-- The greatest common divisor of the numerators. -/
def numerators (ts : List Term) : ℕ := ts.foldl (fun g t => Nat.gcd g t.coeff.num.natAbs) 0

/-- The least common multiple of the denominators. -/
def denominators (ts : List Term) : ℕ := ts.foldl (fun l t => Nat.lcm l t.coeff.den) 1

theorem dvd_numerators_iff {d : ℕ} :
    d ∣ numerators ts ↔ ∀ t ∈ ts, d ∣ t.coeff.num.natAbs := by
  rw [numerators, dvd_foldl_gcd_iff, and_iff_right (dvd_zero d)]

theorem denominators_dvd_iff {d : ℕ} : denominators ts ∣ d ↔ ∀ t ∈ ts, t.coeff.den ∣ d := by
  rw [denominators, foldl_lcm_dvd_iff, and_iff_right (one_dvd d)]

theorem content_eq (h : p.isZero = false) :
    p.content = numerators p.terms / denominators p.terms := by
  rw [content, h]
  exact Rat.mkRat_eq_div _ _

theorem numerators_ne_zero (h : p.isZero = false) : numerators p.terms ≠ 0 := fun h0 => by
  have := content_pos p
  rw [content_eq h, h0, Nat.cast_zero, zero_div] at this
  exact lt_irrefl _ this

theorem denominators_ne_zero (ts : List Term) : denominators ts ≠ 0 :=
  foldl_lcm_ne_zero one_ne_zero fun t _ => t.coeff.den_nz

/-- A coefficient divided by the content is an integer: the product of the cofactors of its numerator
and of its denominator. -/
theorem inv_content_mul (h : p.isZero = false) {t : Term} (ht : t ∈ p.terms) :
    ∃ a b : ℕ, t.coeff.num.natAbs = numerators p.terms * a ∧
      denominators p.terms = t.coeff.den * b ∧
        (p.content⁻¹ * t.coeff).den = 1 ∧ (p.content⁻¹ * t.coeff).num.natAbs = a * b := by
  obtain ⟨a, ha⟩ := dvd_numerators_iff.1 dvd_rfl t ht
  obtain ⟨b, hb⟩ := denominators_dvd_iff.1 dvd_rfl t ht
  have hN : (numerators p.terms : ℚ) ≠ 0 := Nat.cast_ne_zero.2 (numerators_ne_zero h)
  have hd : (t.coeff.den : ℚ) ≠ 0 := Nat.cast_ne_zero.2 t.coeff.den_nz
  have hnum : (t.coeff.num : ℚ) = t.coeff.num.sign * (numerators p.terms * a) := by
    rw [← Nat.cast_mul, ← ha, ← Int.cast_natCast, ← Int.cast_mul, Int.sign_mul_natAbs]
  have hquotient : p.content⁻¹ * t.coeff = (t.coeff.num.sign * (a * b : ℕ) : ℤ) := by
    conv_lhs => rw [content_eq h, ← Rat.num_div_den t.coeff, hb, hnum]
    push_cast
    field_simp
  refine ⟨a, b, ha, hb, by rw [hquotient, Rat.den_intCast], ?_⟩
  rw [hquotient, Rat.num_intCast, Int.natAbs_mul, Int.natAbs_natCast,
    Int.natAbs_sign_of_ne_zero, one_mul]
  exact Rat.num_ne_zero.2 (p.valid.nonzero t ht)

/-- The coefficients divided by the content have no common prime factor. -/
theorem numerators_inv_content_mul (h : p.isZero = false) :
    numerators (p.terms.map fun t => ⟨p.content⁻¹ * t.coeff, t.monomial⟩) = 1 := by
  rw [Nat.eq_one_iff_not_exists_prime_dvd]
  intro q hq hall
  rw [dvd_numerators_iff, List.forall_mem_map] at hall
  -- a coefficient in whose numerator the prime occurs least, so that it occurs in the cofactor of
  -- the denominator
  obtain ⟨t, ht, htq⟩ : ∃ t ∈ p.terms, ¬numerators p.terms * q ∣ t.coeff.num.natAbs := by
    by_contra hnone
    push Not at hnone
    have hle := Nat.le_of_dvd (Nat.pos_of_ne_zero (numerators_ne_zero h))
      (dvd_numerators_iff.2 hnone)
    have := Nat.pos_of_ne_zero (numerators_ne_zero h)
    nlinarith [hq.two_le]
  -- a coefficient in whose denominator it occurs most
  obtain ⟨u, hu, huq⟩ : ∃ u ∈ p.terms, ∀ b, denominators p.terms = u.coeff.den * b → ¬q ∣ b := by
    by_contra hnone
    push Not at hnone
    have hpos := Nat.pos_of_ne_zero (denominators_ne_zero p.terms)
    obtain ⟨-, b, -, hb, -⟩ := inv_content_mul h ht
    have hdvd : q ∣ denominators p.terms := by
      obtain ⟨b, hb, hqb⟩ := hnone t ht
      exact hb ▸ hqb.mul_left _
    obtain ⟨d, hd⟩ := hdvd
    have hle : denominators p.terms ∣ d := denominators_dvd_iff.2 fun u hu => by
      obtain ⟨b, hb, c, rfl⟩ := hnone u hu
      refine ⟨c, mul_left_cancel₀ hq.ne_zero ?_⟩
      rw [← hd, hb]
      ring
    have := Nat.le_of_dvd (Nat.pos_of_ne_zero fun h0 => by simp [h0] at hd; omega) hle
    nlinarith [hq.two_le]
  obtain ⟨a, b, ha, hb, -, hab⟩ := inv_content_mul h ht
  obtain ⟨a', b', ha', hb', -, hab'⟩ := inv_content_mul h hu
  have hqb : q ∣ b := by
    refine (hq.dvd_mul.1 (hab ▸ hall t ht)).resolve_left fun hqa => htq ?_
    rw [ha]
    exact Nat.mul_dvd_mul_left _ hqa
  have hqa' : q ∣ a' := (hq.dvd_mul.1 (hab' ▸ hall u hu)).resolve_right (huq b' hb')
  have hqd : q ∣ u.coeff.den :=
    (hq.dvd_mul.1 (hb' ▸ hb ▸ hqb.mul_left _)).resolve_right (huq b' hb')
  have hqn : q ∣ u.coeff.num.natAbs := ha' ▸ hqa'.mul_left _
  exact hq.one_lt.ne' (Nat.dvd_one.1 (u.coeff.reduced ▸ Nat.dvd_gcd hqn hqd))

theorem isZero_scale {c : ℚ} (hc : c ≠ 0) (p : Poly) : (p.scale c).isZero = p.isZero := by
  rw [scale, dif_neg hc, isZero, isZero, List.isEmpty_map]

/-- The primitive form has content one. -/
theorem content_primitive (p : Poly) : p.primitive.content = 1 := by
  cases h : p.isZero with
  | true => rw [primitive, h, if_pos rfl, content, h, if_pos rfl]
  | false =>
    have hc := inv_ne_zero (content_pos p).ne'
    have hden : denominators (p.terms.map fun t => ⟨p.content⁻¹ * t.coeff, t.monomial⟩) = 1 :=
      Nat.dvd_one.1 (denominators_dvd_iff.2 (List.forall_mem_map.2 fun t ht => by
        obtain ⟨-, -, -, -, hden, -⟩ := inv_content_mul h ht
        exact hden ▸ dvd_rfl))
    rw [primitive_eq p h, content_eq ((isZero_scale hc p).trans h), scale, dif_neg hc,
      numerators_inv_content_mul h, hden, Nat.cast_one, div_one]

/-! ## The canonical form -/

theorem isZero_neg (p : Poly) : (-p).isZero = p.isZero := List.isEmpty_map

theorem content_neg (p : Poly) : (-p).content = p.content := by
  cases h : p.isZero with
  | true => rw [content, content, isZero_neg, h, if_pos rfl, if_pos rfl]
  | false =>
    have hterms : (-p).terms = p.terms.map fun t => ⟨-t.coeff, t.monomial⟩ := rfl
    rw [content_eq ((isZero_neg p).trans h), content_eq h, hterms]
    simp only [numerators, denominators, List.foldl_map, Rat.neg_num, Rat.neg_den, Int.natAbs_neg]

theorem scale_one (p : Poly) : p.scale 1 = p := by
  rw [scale, dif_neg one_ne_zero]
  refine ext rfl ?_
  simp

theorem content_canonical (p : Poly) : p.canonical.content = 1 := by
  rw [canonical]
  split_ifs
  · rw [content_neg, content_primitive]
  · exact content_primitive p

theorem not_leadingCoeff_canonical_neg (p : Poly) : ¬p.canonical.leadingCoeff < 0 := by
  rw [canonical]
  split_ifs with h
  · rw [leadingCoeff_neg]
    linarith
  · exact h

@[simp] theorem canonical_canonical (p : Poly) : p.canonical.canonical = p.canonical := by
  have hprimitive : p.canonical.primitive = p.canonical := by
    rw [primitive]
    split_ifs
    · rfl
    · rw [content_canonical, inv_one, scale_one]
  rw [canonical, hprimitive]
  exact if_neg (not_leadingCoeff_canonical_neg p)

/-! ## Content one -/

theorem den_coeff_of_content (h : p.content = 1) {t : Term} (ht : t ∈ p.terms) :
    t.coeff.den = 1 := by
  have hz : p.isZero = false := by
    rw [isZero, List.isEmpty_eq_false_iff]
    exact List.ne_nil_of_mem ht
  obtain ⟨-, -, -, -, hden, -⟩ := inv_content_mul hz ht
  rwa [h, inv_one, one_mul] at hden

theorem numerators_of_content (hz : p.isZero = false) (h : p.content = 1) :
    numerators p.terms = 1 := by
  have hone := numerators_inv_content_mul hz
  rw [h] at hone
  simpa using hone

/-- A number that keeps the coefficients of a polynomial of content one integers is an integer. -/
theorem den_of_forall_den_mul {c : ℚ} (hz : p.isZero = false) (hp : p.content = 1)
    (h : ∀ t ∈ p.terms, (c * t.coeff).den = 1) : c.den = 1 := by
  refine Nat.dvd_one.1 (numerators_of_content hz hp ▸ dvd_numerators_iff.2 fun t ht => ?_)
  have hint : (c * t.coeff).num * c.den = c.num * t.coeff.num := by
    have hc : c * t.coeff = (c * t.coeff).num := ((Rat.den_eq_one_iff _).1 (h t ht)).symm
    have ht' : t.coeff = t.coeff.num := ((Rat.den_eq_one_iff _).1 (den_coeff_of_content hp ht)).symm
    have hq : ((c * t.coeff).num : ℚ) * c.den = c.num * t.coeff.num := by
      rw [← hc, ← ht', mul_right_comm, Rat.mul_den_eq_num]
    exact_mod_cast hq
  have hdvd : c.den ∣ c.num.natAbs * t.coeff.num.natAbs := by
    rw [← Int.natAbs_mul, ← hint, Int.natAbs_mul, Int.natAbs_natCast]
    exact dvd_mul_left _ _
  exact c.reduced.symm.dvd_of_dvd_mul_left hdvd

end Poly

end Cylindrical

end
