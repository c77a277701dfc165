import Mathlib
import Cylindrical.Proofs.Groebner.Multiples

/-!
# The criterion for Gröbner bases

Two polynomials cancel in `G` if the differences of their normalized multiples with one leading
exponent are sums of multiples of members of `G` below this exponent.  It suffices to look at the
least common multiple of the leading exponents (`Cancels.of_sup`), and polynomials with coprime leading
exponents always cancel (`Cancels.of_coprime`).  If all members of `G` cancel, then every leading
exponent in the ideal is divisible by that of a member (`exists_leads_le_of_cancels`): a sum of
multiples whose largest leading exponent does not occur can be written below it.
-/

noncomputable section

open MvPolynomial

namespace Cylindrical

open Cylindrical.MonomialOrder

variable {o : MonomialOrder} {G G' : Set (MvPolynomial ℕ ℚ)} {P f g : MvPolynomial ℕ ℚ}
  {k l m n : ℕ →₀ ℕ} {c d : ℚ}

/-! ## Cancellation -/

/-- Normalized multiples with one leading exponent differ by multiples below it. -/
def Cancels (o : MonomialOrder) (G : Set (MvPolynomial ℕ ℚ)) (f g : MvPolynomial ℕ ℚ) : Prop :=
  ∀ k l d k' l' d', Leads o f l d → Leads o g l' d' → k + l = k' + l' →
    monomial k d⁻¹ * f - monomial k' d'⁻¹ * g ∈ multiples o G (o.below (k + l))

namespace Cancels

theorem mono (h : Cancels o G f g) (hG : G ⊆ G') : Cancels o G' f g :=
  fun k l d k' l' d' hf hg he => multiples_mono hG subset_rfl (h k l d k' l' d' hf hg he)

theorem symm (h : Cancels o G f g) : Cancels o G g f := fun k l d k' l' d' hg hf he => by
  rw [he, ← neg_sub]
  exact Submodule.neg_mem _ (h k' l' d' k l d hf hg he.symm)

theorem refl (o : MonomialOrder) (G : Set (MvPolynomial ℕ ℚ)) (f : MvPolynomial ℕ ℚ) :
    Cancels o G f f := fun k l d k' l' d' hf hf' he => by
  obtain ⟨rfl, rfl⟩ := hf.unique hf'
  rw [add_right_cancel he, sub_self]
  exact Submodule.zero_mem _

/-- All multiples with one leading exponent are multiples of those with the least one. -/
theorem of_sup {l' a b : ℕ →₀ ℕ} {d' : ℚ} (hf : Leads o f l d) (hg : Leads o g l' d')
    (ha : a + l = l ⊔ l') (hb : b + l' = l ⊔ l')
    (h : monomial a d⁻¹ * f - monomial b d'⁻¹ * g ∈ multiples o G (o.below (l ⊔ l'))) :
    Cancels o G f g := fun k m c k' m' c' hf' hg' he => by
  obtain ⟨rfl, rfl⟩ := hf.unique hf'
  obtain ⟨rfl, rfl⟩ := hg.unique hg'
  have hle : l ⊔ l' ≤ k + l := sup_le le_add_self (he ▸ le_add_self)
  obtain ⟨e, hsum⟩ := exists_add_of_le hle
  obtain rfl : k = e + a := by
    refine add_right_cancel (b := l) ?_
    rw [hsum, add_assoc, ha, add_comm]
  obtain rfl : k' = e + b := by
    refine add_right_cancel (b := l') ?_
    rw [← he, hsum, add_assoc, hb, add_comm]
  have hmul : ∀ (a : ℕ →₀ ℕ) (c : ℚ) (P : MvPolynomial ℕ ℚ),
      monomial (e + a) c * P = monomial e 1 * (monomial a c * P) := fun a c P => by
    rw [← mul_assoc, monomial_mul, one_mul]
  rw [hmul, hmul, ← mul_sub, add_assoc, ha]
  exact monomial_mul_mem_of_mem (fun s hs => add_mem_below e hs) 1 h

/-- Where the leading exponents have no common variable, the difference is made of the two rests. -/
theorem of_coprime {l' : ℕ →₀ ℕ} {d' : ℚ} (hf : Leads o f l d) (hg : Leads o g l' d')
    (hfG : f ∈ G) (hgG : g ∈ G) (h : l ⊔ l' = l + l') : Cancels o G f g := by
  refine of_sup (a := l') (b := l) hf hg (by rw [h, add_comm]) h.symm ?_
  have hsplit : monomial l' d⁻¹ * f - monomial l d'⁻¹ * g =
      C (d⁻¹ * d'⁻¹) * ((f - monomial l d) * g) - C (d⁻¹ * d'⁻¹) * ((g - monomial l' d') * f) := by
    have hd : (C (d⁻¹ * d'⁻¹) : MvPolynomial ℕ ℚ) * monomial l d = monomial l d'⁻¹ := by
      rw [C_mul_monomial, mul_comm d⁻¹, mul_assoc, inv_mul_cancel₀ hf.ne_zero, mul_one]
    have hd' : (C (d⁻¹ * d'⁻¹) : MvPolynomial ℕ ℚ) * monomial l' d' = monomial l' d⁻¹ := by
      rw [C_mul_monomial, mul_assoc, inv_mul_cancel₀ hg.ne_zero, mul_one]
    rw [← hd, ← hd']
    ring
  rw [hsplit, h, ← smul_eq_C_mul, ← smul_eq_C_mul]
  refine Submodule.sub_mem _ (Submodule.smul_mem _ _ ?_) (Submodule.smul_mem _ _ ?_)
  · refine mul_mem_multiples hgG hg fun n hn => ?_
    exact ExponentLT.add_right (hf.sub_below (.monomial l hf.ne_zero) n hn) l'
  · refine mul_mem_multiples hfG hf fun n hn => ?_
    rw [add_comm l]
    exact ExponentLT.add_right (hg.sub_below (.monomial l' hg.ne_zero) n hn) l

end Cancels

/-! ## The criterion -/

/-- A multiple with the largest leading exponent can be subtracted so that a sum of multiples below it
is left. -/
theorem sub_mem_multiples_below (hG : ∀ f ∈ G, ∀ g ∈ G, Cancels o G f g) (hg : g ∈ G)
    (hl : Leads o g l d) (h : P ∈ multiples o G (o.upTo (k + l))) :
    P - P.coeff (k + l) • (monomial k d⁻¹ * g) ∈ multiples o G (o.below (k + l)) := by
  refine Submodule.span_induction (p := fun P _ =>
      P - P.coeff (k + l) • (monomial k d⁻¹ * g) ∈ multiples o G (o.below (k + l)))
    ?_ ?_ (fun P Q _ _ hP hQ => ?_) (fun a P _ hP => ?_) h
  · rintro P ⟨f, hf, k', l', d', hl', hS, rfl⟩
    have hlead : Leads o (monomial k' 1 * f) (k' + l') (1 * d') :=
      (Leads.monomial k' one_ne_zero).mul hl'
    rcases hS with he | hlt
    · -- the two multiples have one leading exponent
      have hcoeff : (monomial k' 1 * f).coeff (k + l) = d' := by rw [← he, hlead.coeff, one_mul]
      have hscale : monomial k' (1 : ℚ) * f = d' • (monomial k' d'⁻¹ * f) := by
        rw [← smul_mul_assoc, smul_monomial, smul_eq_mul, mul_inv_cancel₀ hl'.ne_zero]
      rw [hcoeff, hscale, ← smul_sub, ← he]
      exact Submodule.smul_mem _ _ (hG f hf g hg k' l' d' k l d hl' hl he)
    · have hcoeff : (monomial k' 1 * f).coeff (k + l) = 0 := by
        by_contra h0
        rcases hlead.below _ (mem_support_iff.2 h0) with he | hlt'
        · exact ExponentLT.irrefl o _ (he ▸ hlt)
        · exact ExponentLT.irrefl o _ (ExponentLT.trans hlt hlt')
      rw [hcoeff, zero_smul, sub_zero]
      exact monomial_mul_mem_multiples hf hl' hlt 1
  · rw [coeff_zero, zero_smul, sub_zero]
    exact Submodule.zero_mem _
  · rw [coeff_add, add_smul, add_sub_add_comm]
    exact Submodule.add_mem _ hP hQ
  · rw [coeff_smul, smul_assoc, ← smul_sub]
    exact Submodule.smul_mem _ a hP

/-- A largest leading exponent that does not occur is not needed. -/
theorem mem_multiples_below (hG : ∀ f ∈ G, ∀ g ∈ G, Cancels o G f g)
    (h : P ∈ multiples o G (o.upTo n)) (hn : P.coeff n = 0) : P ∈ multiples o G (o.below n) := by
  by_cases hhit : ∃ g ∈ G, ∃ k l d, Leads o g l d ∧ k + l = n
  · obtain ⟨g, hg, k, l, d, hl, rfl⟩ := hhit
    have := sub_mem_multiples_below hG hg hl h
    rwa [hn, zero_smul, sub_zero] at this
  · refine Submodule.span_mono ?_ h
    rintro Q ⟨g, hg, k, l, d, hl, hS, rfl⟩
    exact ⟨g, hg, k, l, d, hl, hS.resolve_left fun he => hhit ⟨g, hg, k, l, d, hl, he⟩, rfl⟩

/-- The leading exponents of sums of multiples are divisible by those of members. -/
theorem exists_leads_le_of_mem_multiples (hG : ∀ f ∈ G, ∀ g ∈ G, Cancels o G f g)
    (hP : Leads o P m c) (h : P ∈ multiples o G (o.upTo n)) :
    ∃ g ∈ G, ∃ l d, Leads o g l d ∧ l ≤ m := by
  induction n using o.wellFounded_exponentLT.induction with
  | h n ih =>
    by_cases hn : P.coeff n = 0
    · rcases exists_mem_multiples_upTo (mem_multiples_below hG h hn) with rfl | ⟨n', hn', h'⟩
      · exact absurd rfl hP.poly_ne_zero
      · exact ih n' hn' h'
    · have hmn : m = n := eq_of_upTo (mem_upTo_of_mem_support h hP.mem_support)
        (hP.below n (mem_support_iff.2 hn))
      obtain ⟨g, hg, k, l, d, hl, hS, hm⟩ := exists_of_mem_support h hP.mem_support
      have hkl : k + l = m := eq_of_upTo (hmn ▸ hS) hm
      exact ⟨g, hg, l, d, hl, hkl ▸ le_add_self⟩

/-- Buchberger's criterion. -/
theorem exists_leads_le_of_cancels (h0 : ∀ g ∈ G, g ≠ 0) (hG : ∀ f ∈ G, ∀ g ∈ G, Cancels o G f g)
    (h : P ∈ Ideal.span G) (hP : Leads o P m c) : ∃ g ∈ G, ∃ l d, Leads o g l d ∧ l ≤ m := by
  rcases exists_mem_multiples_upTo (mem_multiples_univ h0 h) with rfl | ⟨n, -, h⟩
  · exact absurd rfl hP.poly_ne_zero
  · exact exists_leads_le_of_mem_multiples hG hP h

end Cylindrical

end
