import Mathlib
import Cylindrical.Proofs.Poly.Value

/-!
# Normal forms up to a factor

A polynomial is a nonzero number times its primitive form, its canonical form and its monic form.
The factor of the canonical form carries the sign.
-/

noncomputable section

open MvPolynomial

namespace Cylindrical

namespace Poly

/-! ## Content -/

theorem foldl_gcd_eq_zero_iff {α : Type} (f : α → ℕ) (xs : List α) (g : ℕ) :
    xs.foldl (fun g x => Nat.gcd g (f x)) g = 0 ↔ g = 0 ∧ ∀ x ∈ xs, f x = 0 := by
  induction xs generalizing g with
  | nil => simp
  | cons x xs ih => simp [ih, Nat.gcd_eq_zero_iff, and_assoc]

theorem foldl_lcm_ne_zero {α : Type} {f : α → ℕ} {xs : List α} {l : ℕ} (hl : l ≠ 0)
    (h : ∀ x ∈ xs, f x ≠ 0) : xs.foldl (fun l x => Nat.lcm l (f x)) l ≠ 0 := by
  induction xs generalizing l with
  | nil => exact hl
  | cons x xs ih =>
    exact ih (Nat.lcm_ne_zero hl (h x (.head _))) fun y hy => h y (.tail _ hy)

theorem content_pos (p : Poly) : 0 < p.content := by
  rw [content]
  split_ifs with h
  · exact one_pos
  · have hl : p.terms.foldl (fun l t => Nat.lcm l t.coeff.den) 1 ≠ 0 :=
      foldl_lcm_ne_zero one_ne_zero fun t _ => t.coeff.den_nz
    have hg : p.terms.foldl (fun g t => Nat.gcd g t.coeff.num.natAbs) 0 ≠ 0 := by
      rw [Ne, foldl_gcd_eq_zero_iff]
      rintro ⟨-, h0⟩
      rw [isZero, List.isEmpty_iff] at h
      obtain ⟨t, ht⟩ := List.exists_mem_of_ne_nil _ h
      exact p.valid.nonzero t ht (Rat.num_eq_zero.1 (Int.natAbs_eq_zero.1 (h0 t ht)))
    show 0 < mkRat _ _
    rw [Rat.mkRat_eq_div]
    exact div_pos (by exact_mod_cast Nat.pos_of_ne_zero hg)
      (by exact_mod_cast Nat.pos_of_ne_zero hl)

theorem leadingCoeff_ne_zero {p : Poly} (h : p.toMv ≠ 0) : p.leadingCoeff ≠ 0 := by
  rw [← isZero_eq_false_iff] at h
  obtain ⟨o, ts, hv⟩ := p
  cases ts with
  | nil => simp [isZero] at h
  | cons t ts => exact hv.head_ne_zero

theorem leadingCoeff_scale {c : ℚ} (hc : c ≠ 0) (p : Poly) :
    (p.scale c).leadingCoeff = c * p.leadingCoeff := by
  rw [scale, dif_neg hc]
  obtain ⟨o, ts, hv⟩ := p
  cases ts with
  | nil => simp [leadingCoeff]
  | cons t ts => rfl

/-! ## Primitive, canonical and monic forms -/

theorem primitive_eq (p : Poly) (h : p.isZero = false) : p.primitive = p.scale p.content⁻¹ := by
  rw [primitive, h]
  rfl

theorem toMv_canonical (p : Poly) : p.toMv = C p.canonicalFactor * p.canonical.toMv := by
  have hc := (content_pos p).ne'
  rw [canonicalFactor, canonical]
  cases hz : p.isZero with
  | true =>
    have h0 := toMv_eq_zero_of_isZero hz
    simp only [primitive, hz, if_true]
    split_ifs <;> simp [h0]
  | false =>
    have hlead : p.primitive.leadingCoeff < 0 ↔ p.leadingCoeff < 0 := by
      rw [primitive_eq p hz, leadingCoeff_scale (inv_ne_zero hc)]
      exact mul_neg_iff.trans (by
        have := inv_pos.2 (content_pos p)
        constructor
        · rintro (h | h)
          · exact h.2
          · exact absurd h.1 this.not_gt
        · exact fun h => .inl ⟨this, h⟩)
    have hprim : p.toMv = C p.content * p.primitive.toMv := by
      rw [primitive_eq p hz, toMv_scale, ← mul_assoc, ← C_mul, mul_inv_cancel₀ hc, C_1, one_mul]
    simp only [hlead]
    split_ifs
    · rw [toMv_neg, C_neg, neg_mul_neg, hprim]
    · exact hprim

theorem canonicalFactor_ne_zero (p : Poly) : p.canonicalFactor ≠ 0 := by
  have := (content_pos p).ne'
  rw [canonicalFactor]
  split_ifs <;> simpa

theorem associated_canonical (p : Poly) : Associated p.canonical.toMv p.toMv := by
  rw [toMv_canonical p]
  exact associated_unit_mul_right _ _
    ((isUnit_iff_ne_zero.2 (canonicalFactor_ne_zero p)).map C)

theorem toMv_monic (p : Poly) : p.toMv = C p.leadingCoeff * p.monic.toMv := by
  rw [monic]
  split_ifs with h
  · simp [toMv_eq_zero_of_isZero h]
  · have h0 := leadingCoeff_ne_zero (isZero_eq_false_iff.1 (by simpa using h))
    rw [toMv_scale, ← mul_assoc, ← C_mul, mul_inv_cancel₀ h0, C_1, one_mul]

theorem associated_monic {p : Poly} (h : p.toMv ≠ 0) : Associated p.monic.toMv p.toMv := by
  conv_rhs => rw [toMv_monic p]
  exact associated_unit_mul_right _ _ ((isUnit_iff_ne_zero.2 (leadingCoeff_ne_zero h)).map C)

/-- Associated polynomials have the same variables. -/
theorem vars_eq_of_associated {P Q : MvPolynomial ℕ ℚ} (h : Associated P Q) : P.vars = Q.vars := by
  obtain ⟨u, rfl⟩ := h
  obtain ⟨c, hc, hu⟩ := MvPolynomial.isUnit_iff_eq_C_of_isReduced.1 u.isUnit
  rw [hu, mul_comm]
  exact (vars_C_mul c hc.ne_zero P).symm

end Poly

end Cylindrical

end
