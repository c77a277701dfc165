import Mathlib
import Cylindrical.Proofs.Groebner.Reduced

/-!
# Gröbner bases under renaming

A renaming that is strictly increasing on the variables that occur keeps the order of exponents, hence
leading terms and bounded sums of multiples: the multiples by other variables can be left out
(`rename_mem_multiples`).  So the renamed polynomials still cancel in pairs, and a Gröbner basis stays
one, also where further variables occur that none of its members has (`IsGroebner.rename`).
-/

noncomputable section

open MvPolynomial

namespace Cylindrical

open Cylindrical.MonomialOrder

variable {o : MonomialOrder} {σ : ℕ → ℕ} {S : Set ℕ} {T : Set (ℕ →₀ ℕ)} {k l m n : ℕ →₀ ℕ}
  {P g : MvPolynomial ℕ ℚ} {G : Set (MvPolynomial ℕ ℚ)} {c d : ℚ}

/-! ## Exponents -/

/-- The exponents of variables in `S` alone. -/
def within (S : Set ℕ) : Set (ℕ →₀ ℕ) := {m | (m.support : Set ℕ) ⊆ S}

theorem add_mem_within_iff : m + n ∈ within S ↔ m ∈ within S ∧ n ∈ within S := by
  constructor
  · refine fun h => ⟨fun v hv => h ?_, fun v hv => h ?_⟩ <;>
      rw [Finset.mem_coe, Finsupp.mem_support_iff] at hv ⊢ <;> rw [Finsupp.add_apply] <;> omega
  · rintro ⟨hm, hn⟩ v hv
    exact (Finset.mem_union.1 (Finsupp.support_add (Finset.mem_coe.1 hv))).elim (hm ·) (hn ·)

theorem sup_mem_within (hm : m ∈ within S) (hn : n ∈ within S) : m ⊔ n ∈ within S := fun v hv => by
  rcases Finset.mem_union.1 (Finsupp.support_sup m n ▸ Finset.mem_coe.1 hv) with h | h
  · exact hm h
  · exact hn h

theorem mem_within_of_mem_supported (hP : P ∈ supported ℚ S) (hm : m ∈ P.support) :
    m ∈ within S := fun v hv =>
  mem_supported.1 hP (Finset.mem_coe.2 ((mem_vars_iff_mem_support v).2 ⟨m, hm, Finset.mem_coe.1 hv⟩))

theorem mem_supported_of_within (h : ∀ m ∈ P.support, m ∈ within S) : P ∈ supported ℚ S :=
  mem_supported.2 fun v hv => by
    obtain ⟨m, hm, hv⟩ := (mem_vars_iff_mem_support v).1 (Finset.mem_coe.1 hv)
    exact h m hm (Finset.mem_coe.2 hv)

theorem rename_mem_supported (hP : P ∈ supported ℚ S) : rename σ P ∈ supported ℚ (σ '' S) := by
  classical
  refine mem_supported.2 fun v hv => ?_
  obtain ⟨w, hw, rfl⟩ := Finset.mem_image.1 (vars_rename σ P (Finset.mem_coe.1 hv))
  exact ⟨w, mem_supported.1 hP (Finset.mem_coe.2 hw), rfl⟩

theorem rename_eq_self (h : ∀ v ∈ P.vars, σ v = v) : rename σ P = P :=
  calc rename σ P = aeval (X ∘ σ) P := by rw [rename_eq_aeval]
    _ = aeval X P := eval₂Hom_congr' rfl (fun v hv _ => congrArg X (h v hv)) rfl
    _ = P := aeval_X_left_apply P

theorem mapDomain_eq_zero (hm : m ∈ within S) {w : ℕ} (hw : w ∉ σ '' S) :
    m.mapDomain σ w = 0 := by
  classical
  by_contra h0
  obtain ⟨v, hv, rfl⟩ := Finset.mem_image.1
    (Finsupp.mapDomain_support (Finsupp.mem_support_iff.2 h0))
  exact hw ⟨v, hm (Finset.mem_coe.2 hv), rfl⟩

theorem mapDomain_apply_congr (hσ : Set.InjOn σ S) (hm : m ∈ within S) (hn : n ∈ within S) {w : ℕ}
    (h : ∀ v ∈ S, σ v = w → m v = n v) : m.mapDomain σ w = n.mapDomain σ w := by
  by_cases hw : w ∈ σ '' S
  · obtain ⟨v, hv, rfl⟩ := hw
    rw [Finsupp.mapDomain_apply' S _ hm hσ hv, Finsupp.mapDomain_apply' S _ hn hσ hv, h v hv rfl]
  · rw [mapDomain_eq_zero hm hw, mapDomain_eq_zero hn hw]

theorem mapDomain_sup (hσ : Set.InjOn σ S) (hm : m ∈ within S) (hn : n ∈ within S) :
    (m ⊔ n).mapDomain σ = m.mapDomain σ ⊔ n.mapDomain σ := by
  have hmn := sup_mem_within hm hn
  ext w
  rw [Finsupp.sup_apply]
  by_cases hw : w ∈ σ '' S
  · obtain ⟨v, hv, rfl⟩ := hw
    rw [Finsupp.mapDomain_apply' S _ hmn hσ hv, Finsupp.mapDomain_apply' S _ hm hσ hv,
      Finsupp.mapDomain_apply' S _ hn hσ hv, Finsupp.sup_apply]
  · rw [mapDomain_eq_zero hmn hw, mapDomain_eq_zero hm hw, mapDomain_eq_zero hn hw, max_self]

theorem LexLT.mapDomain (hσ : StrictMonoOn σ S) (hm : m ∈ within S) (hn : n ∈ within S)
    (h : LexLT m n) : LexLT (m.mapDomain σ) (n.mapDomain σ) := by
  obtain ⟨v, hv, hw⟩ := h
  have hvS : v ∈ S := hn (Finsupp.mem_support_iff.2 (Nat.ne_zero_of_lt hv))
  refine ⟨σ v, ?_, fun w hlt => mapDomain_apply_congr hσ.injOn hm hn fun u hu he =>
    hw u ((hσ.lt_iff_lt hvS hu).1 (he ▸ hlt))⟩
  rwa [Finsupp.mapDomain_apply' S m hm hσ.injOn hvS, Finsupp.mapDomain_apply' S n hn hσ.injOn hvS]

theorem RevLexLT.mapDomain (hσ : StrictMonoOn σ S) (hm : m ∈ within S) (hn : n ∈ within S)
    (h : RevLexLT m n) : RevLexLT (m.mapDomain σ) (n.mapDomain σ) := by
  obtain ⟨v, hv, hw⟩ := h
  have hvS : v ∈ S := hm (Finsupp.mem_support_iff.2 (Nat.ne_zero_of_lt hv))
  refine ⟨σ v, ?_, fun w hlt => mapDomain_apply_congr hσ.injOn hm hn fun u hu he =>
    hw u ((hσ.lt_iff_lt hu hvS).1 (he ▸ hlt))⟩
  rwa [Finsupp.mapDomain_apply' S m hm hσ.injOn hvS, Finsupp.mapDomain_apply' S n hn hσ.injOn hvS]

/-- A strictly increasing renaming keeps the order of exponents. -/
theorem MonomialOrder.ExponentLT.mapDomain (hσ : StrictMonoOn σ S) (hm : m ∈ within S)
    (hn : n ∈ within S) (h : o.ExponentLT m n) : o.ExponentLT (m.mapDomain σ) (n.mapDomain σ) := by
  cases o with
  | lex => exact LexLT.mapDomain hσ hm hn h
  | grLex =>
    simp only [ExponentLT, Finsupp.degree_mapDomain]
    exact h.imp_right (.imp_right (LexLT.mapDomain hσ hm hn))
  | gRevLex =>
    simp only [ExponentLT, Finsupp.degree_mapDomain]
    exact h.imp_right (.imp_right (RevLexLT.mapDomain hσ hm hn))

/-! ## Leading terms -/

theorem coeff_rename (hσ : Set.InjOn σ S) (hP : P ∈ supported ℚ S) (hm : m ∈ within S) :
    (rename σ P).coeff (m.mapDomain σ) = P.coeff m := by
  rw [supported_eq_range_rename] at hP
  obtain ⟨Q, rfl⟩ := hP
  obtain ⟨m, rfl⟩ : ∃ m' : S →₀ ℕ, m'.mapDomain Subtype.val = m :=
    ⟨_, Finsupp.mapDomain_comapDomain _ Subtype.val_injective m (by rwa [Subtype.range_coe])⟩
  change (rename σ (rename Subtype.val Q)).coeff _ = (rename Subtype.val Q).coeff _
  rw [rename_rename, ← Finsupp.mapDomain_comp,
    coeff_rename_mapDomain (σ ∘ Subtype.val) hσ.injective,
    coeff_rename_mapDomain _ Subtype.val_injective]

theorem Leads.rename (hσ : StrictMonoOn σ S) (hP : P ∈ supported ℚ S) (h : Leads o P m c) :
    Leads o (rename σ P) (m.mapDomain σ) c where
  coeff := by
    rw [coeff_rename hσ.injOn hP (mem_within_of_mem_supported hP h.mem_support), h.coeff]
  ne_zero := h.ne_zero
  below n hn := by
    obtain ⟨k, rfl, hk⟩ := coeff_rename_ne_zero σ P n (mem_support_iff.1 hn)
    rw [← mem_support_iff] at hk
    exact (h.below k hk).imp (congrArg _) (ExponentLT.mapDomain hσ
      (mem_within_of_mem_supported hP hk) (mem_within_of_mem_supported hP h.mem_support))

/-! ## Sums of multiples -/

/-- The renaming on `S`, with zero for all other variables. -/
def renameOn (S : Set ℕ) (σ : ℕ → ℕ) : MvPolynomial ℕ ℚ →ₐ[ℚ] MvPolynomial ℕ ℚ := by
  classical
  exact aeval fun v => if v ∈ S then X (σ v) else 0

theorem renameOn_of_mem (hP : P ∈ supported ℚ S) : renameOn S σ P = rename σ P := by
  have heq : Set.EqOn (renameOn S σ) (rename σ) (X '' S) := by
    rintro - ⟨v, hv, rfl⟩
    rw [renameOn, aeval_X, if_pos hv, rename_X]
  exact AlgHom.eqOn_adjoin_iff.2 heq hP

theorem renameOn_monomial (hk : k ∉ within S) : renameOn S σ (monomial k 1) = 0 := by
  obtain ⟨v, hv, hvS⟩ := Set.not_subset.1 hk
  rw [renameOn, aeval_monomial]
  refine mul_eq_zero_of_right _ (Finset.prod_eq_zero (Finset.mem_coe.1 hv) ?_)
  dsimp only
  rw [if_neg hvS, zero_pow (Finsupp.mem_support_iff.1 hv)]

/-- Sums of multiples are renamed to such sums, with the exponents within `S` alone. -/
theorem rename_mem_multiples (hσ : StrictMonoOn σ S) (hG : ∀ g ∈ G, g ∈ supported ℚ S)
    (h : P ∈ multiples o G T) (hP : P ∈ supported ℚ S) :
    rename σ P ∈ multiples o (rename σ '' G) (Finsupp.mapDomain σ '' (T ∩ within S)) := by
  rw [← renameOn_of_mem hP]
  refine (Submodule.span_le (p := (multiples o (rename σ '' G)
    (Finsupp.mapDomain σ '' (T ∩ within S))).comap (renameOn S σ).toLinearMap)).2 ?_ h
  rintro - ⟨g, hg, k, l, d, hl, hT, rfl⟩
  have hlS := mem_within_of_mem_supported (hG g hg) hl.mem_support
  rw [SetLike.mem_coe, Submodule.mem_comap, AlgHom.toLinearMap_apply, map_mul,
    renameOn_of_mem (hG g hg)]
  by_cases hk : k ∈ within S
  · rw [renameOn_of_mem (Poly.monomial_mem_supported hk 1), rename_monomial]
    have hmem : (k + l).mapDomain σ ∈ Finsupp.mapDomain σ '' (T ∩ within S) :=
      ⟨k + l, ⟨hT, add_mem_within_iff.2 ⟨hk, hlS⟩⟩, rfl⟩
    rw [Finsupp.mapDomain_add] at hmem
    exact monomial_mul_mem_multiples (Set.mem_image_of_mem _ hg) (hl.rename hσ (hG g hg)) hmem 1
  · rw [renameOn_monomial hk, zero_mul]
    exact Submodule.zero_mem _

/-- Polynomials that cancel still do so when they are renamed. -/
theorem Cancels.rename {f : MvPolynomial ℕ ℚ} (hσ : StrictMonoOn σ S)
    (hG : ∀ g ∈ G, g ∈ supported ℚ S) (hf : f ∈ supported ℚ S) (hg : g ∈ supported ℚ S)
    (hf0 : f ≠ 0) (hg0 : g ≠ 0) (h : Cancels o G f g) :
    Cancels o (rename σ '' G) (rename σ f) (rename σ g) := by
  obtain ⟨l, d, hl⟩ := exists_leads o hf0
  obtain ⟨l', d', hl'⟩ := exists_leads o hg0
  generalize l.toFinsupp = l at hl
  generalize l'.toFinsupp = l' at hl'
  have hlS := mem_within_of_mem_supported hf hl.mem_support
  have hlS' := mem_within_of_mem_supported hg hl'.mem_support
  obtain ⟨a, ha⟩ := exists_add_of_le (le_sup_left : l ≤ l ⊔ l')
  obtain ⟨b, hb⟩ := exists_add_of_le (le_sup_right : l' ≤ l ⊔ l')
  rw [add_comm] at ha hb
  have hsup := mapDomain_sup hσ.injOn hlS hlS'
  have hsupS := sup_mem_within hlS hlS'
  have haS := (add_mem_within_iff.1 (ha ▸ hsupS)).1
  have hbS := (add_mem_within_iff.1 (hb ▸ hsupS)).1
  refine .of_sup (a := a.mapDomain σ) (b := b.mapDomain σ) (hl.rename hσ hf) (hl'.rename hσ hg)
    (by rw [← Finsupp.mapDomain_add, ← ha, hsup]) (by rw [← Finsupp.mapDomain_add, ← hb, hsup]) ?_
  rw [← rename_monomial, ← rename_monomial, ← map_mul, ← map_mul, ← map_sub]
  refine multiples_mono subset_rfl ?_ (rename_mem_multiples hσ hG
    (h a l d b l' d' hl hl' (ha.symm.trans hb)) (sub_mem
      (mul_mem (Poly.monomial_mem_supported haS _) hf)
      (mul_mem (Poly.monomial_mem_supported hbS _) hg)))
  rintro - ⟨n, ⟨hn, hnS⟩, rfl⟩
  rw [← ha] at hn
  rw [← hsup]
  exact ExponentLT.mapDomain hσ hnS hsupS hn

/-! ## Gröbner bases -/

namespace Poly

variable {basis : List Poly} {I : Ideal (MvPolynomial ℕ ℚ)} {f g : Poly}

theorem members_map {r : Poly → Poly} (hr : ∀ g ∈ basis, (r g).toMv = MvPolynomial.rename σ g.toMv) :
    members (basis.map r) = MvPolynomial.rename σ '' members basis := by
  ext P
  constructor
  · rintro ⟨p, hp, rfl⟩
    obtain ⟨g, hg, rfl⟩ := List.mem_map.1 hp
    exact ⟨g.toMv, mem_members hg, (hr g hg).symm⟩
  · rintro ⟨-, ⟨g, hg, rfl⟩, rfl⟩
    exact ⟨r g, List.mem_map_of_mem hg, (hr g hg).symm⟩

namespace IsGroebner

/-- The members of the ideal are sums of multiples that are bounded like them. -/
theorem mem_multiples (h : IsGroebner o I basis) (hP : P ∈ I)
    (hn : ∀ m ∈ P.support, m ∈ o.upTo n) : P ∈ multiples o (members basis) (o.upTo n) := by
  obtain ⟨p, -, rfl⟩ := exists_toMv_eq P
  have hsub := (normalForm_spec h.order hn).1
  rwa [toMv_eq_zero_iff.2 ((h.isZero_normalForm_iff p).2 hP), sub_zero] at hsub

theorem cancels (h : IsGroebner o I basis) (hf : f ∈ basis) (hg : g ∈ basis) :
    Cancels o (members basis) f.toMv g.toMv := fun k l d k' l' d' hl hl' he => by
  have hmem : monomial k d⁻¹ * f.toMv - monomial k' d'⁻¹ * g.toMv ∈ I :=
    I.sub_mem (I.mul_mem_left _ (h.mem f hf)) (I.mul_mem_left _ (h.mem g hg))
  have hfl := (Leads.monomial k (inv_ne_zero hl.ne_zero)).mul hl
  have hgl := (Leads.monomial k' (inv_ne_zero hl'.ne_zero)).mul hl'
  rw [inv_mul_cancel₀ hl.ne_zero] at hfl
  rw [inv_mul_cancel₀ hl'.ne_zero, ← he] at hgl
  have hbelow := hfl.sub_below hgl
  by_cases h0 : monomial k d⁻¹ * f.toMv - monomial k' d'⁻¹ * g.toMv = 0
  · rw [h0]
    exact Submodule.zero_mem _
  · obtain ⟨n, c, hn⟩ := Cylindrical.exists_leads o h0
    exact multiples_mono subset_rfl (fun m hm => below_of_upTo hm (hbelow _ hn.mem_support))
      (h.mem_multiples hmem hn.below)

/-- A Gröbner basis stays one when its variables are renamed in increasing order. -/
theorem rename {r : Poly → Poly} (h : IsGroebner o I basis) (h0 : ∀ g ∈ basis, g.toMv ≠ 0)
    (hσ : StrictMonoOn σ S) (hS : ∀ g ∈ basis, g.toMv ∈ supported ℚ S)
    (ho : ∀ g ∈ basis, (r g).order = o)
    (hr : ∀ g ∈ basis, (r g).toMv = MvPolynomial.rename σ g.toMv) :
    IsGroebner o (idealOf (basis.map r)) (basis.map r) where
  order := List.forall_mem_map.2 ho
  mem _ hg := mem_idealOf hg
  exists_le P hP m c hm := by
    have hmembers : ∀ g ∈ members basis, g ∈ supported ℚ S := by
      rintro - ⟨g, hg, rfl⟩
      exact hS g hg
    have hspan : P ∈ Ideal.span (MvPolynomial.rename σ '' members basis) := by
      rwa [← members_map hr]
    obtain ⟨-, ⟨-, ⟨g, hg, rfl⟩, rfl⟩, l, d, hl, hle⟩ := exists_leads_le_of_cancels (o := o)
      (by
        rintro - ⟨-, ⟨g, hg, rfl⟩, rfl⟩
        obtain ⟨l, d, hl⟩ := Cylindrical.exists_leads o (h0 g hg)
        exact (hl.rename hσ (hS g hg)).poly_ne_zero)
      (by
        rintro - ⟨-, ⟨f, hf, rfl⟩, rfl⟩ - ⟨-, ⟨g, hg, rfl⟩, rfl⟩
        exact (h.cancels hf hg).rename hσ hmembers (hS f hf) (hS g hg) (h0 f hf) (h0 g hg))
      hspan hm
    exact ⟨r g, List.mem_map_of_mem hg, l, d, (hr g hg).symm ▸ hl, hle⟩

end IsGroebner

end Poly

end Cylindrical

end
