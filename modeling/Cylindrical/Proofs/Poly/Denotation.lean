import Mathlib
import Cylindrical.Poly.Basic
import Cylindrical.Proofs.Poly.Exponents

/-!
# Polynomials as mathematical polynomials

A list of terms is read as the sum of its monomials (`Poly.toMv`).  The operations on polynomials
are the ring operations of `MvPolynomial ℕ ℚ`, whatever the orders of their operands, and the terms
of a polynomial are exactly the support of its sum.
-/

noncomputable section

open MvPolynomial

namespace Cylindrical

/-! ## Lists of terms -/

/-- The monomial that a term stands for. -/
def Term.toMv (t : Term) : MvPolynomial ℕ ℚ :=
  MvPolynomial.monomial t.monomial.toFinsupp t.coeff

/-- The sum of a list of terms. -/
def sumOf (ts : List Term) : MvPolynomial ℕ ℚ := (ts.map Term.toMv).sum

@[simp] theorem sumOf_nil : sumOf [] = 0 := rfl

@[simp] theorem sumOf_cons (t : Term) (ts : List Term) : sumOf (t :: ts) = t.toMv + sumOf ts := by
  simp [sumOf]

@[simp] theorem sumOf_append (ts us : List Term) : sumOf (ts ++ us) = sumOf ts + sumOf us := by
  simp [sumOf]

theorem sumOf_reverse (ts : List Term) : sumOf ts.reverse = sumOf ts :=
  ((List.reverse_perm ts).map _).sum_eq

theorem Term.toMv_eq_zero {t : Term} (h : t.coeff = 0) : t.toMv = 0 := by
  rw [Term.toMv, h, monomial_zero]

theorem Term.toMv_add_of_eq {t u : Term} (h : t.monomial = u.monomial) :
    (⟨t.coeff + u.coeff, u.monomial⟩ : Term).toMv = t.toMv + u.toMv := by
  rw [Term.toMv, Term.toMv, Term.toMv, h, ← map_add]

theorem sumOf_insertTerm (o : MonomialOrder) (t : Term) (us : List Term) :
    sumOf (insertTerm o t us) = t.toMv + sumOf us := by
  induction us with
  | nil =>
    rw [insertTerm]
    split_ifs with h
    · simp [Term.toMv_eq_zero h]
    · simp
  | cons u us ih =>
    rw [insertTerm]
    split
    · split_ifs with h
      · simp [Term.toMv_eq_zero h]
      · simp
    · rename_i heq
      rw [MonomialOrder.compare_eq_iff] at heq
      have hadd := Term.toMv_add_of_eq heq
      simp only
      split_ifs with h
      · rw [Term.toMv_eq_zero h] at hadd
        rw [sumOf_cons, ← add_assoc, ← hadd, zero_add]
      · rw [sumOf_cons, sumOf_cons, hadd, add_assoc]
    · rw [sumOf_cons, ih, sumOf_cons, add_left_comm]

theorem sumOf_addTerms (o : MonomialOrder) (ts us : List Term) :
    sumOf (addTerms o ts us) = sumOf ts + sumOf us := by
  fun_induction addTerms o ts us with
  | case1 => simp
  | case2 => simp
  | case3 t ts u us _ ih => rw [sumOf_cons, ih, sumOf_cons t, add_assoc]
  | case4 t ts u us _ ih => rw [sumOf_cons, ih, sumOf_cons u, add_left_comm]
  | case5 t ts u us heq c h ih =>
    have hadd := Term.toMv_add_of_eq (MonomialOrder.compare_eq_iff.1 heq)
    rw [Term.toMv_eq_zero h] at hadd
    rw [ih, sumOf_cons, sumOf_cons, add_add_add_comm, ← hadd, zero_add]
  | case6 t ts u us heq c h ih =>
    rw [sumOf_cons, ih, Term.toMv_add_of_eq (MonomialOrder.compare_eq_iff.1 heq), sumOf_cons,
      sumOf_cons, add_add_add_comm]

@[simp] theorem sumOf_collectTerms (o : MonomialOrder) (ts : List Term) :
    sumOf (collectTerms o ts) = sumOf ts := by
  induction ts with
  | nil => rfl
  | cons t ts ih =>
    rw [collectTerms, List.foldr_cons, sumOf_insertTerm, sumOf_cons, ← ih, collectTerms]

theorem Term.toMv_mul (t u : Term) :
    (⟨t.coeff * u.coeff, t.monomial * u.monomial⟩ : Term).toMv = t.toMv * u.toMv := by
  rw [Term.toMv, Term.toMv, Term.toMv, MvPolynomial.monomial_mul, Monomial.toFinsupp_mul]

theorem sumOf_mulTerm (o : MonomialOrder) (t : Term) (us : List Term) :
    sumOf (mulTerm o t us) = t.toMv * sumOf us := by
  rw [mulTerm, sumOf_collectTerms]
  induction us with
  | nil => simp
  | cons u us ih => rw [List.map_cons, sumOf_cons, sumOf_cons, ih, Term.toMv_mul, mul_add]

theorem sumOf_mulTerms (o : MonomialOrder) (ts us : List Term) :
    sumOf (mulTerms o ts us) = sumOf ts * sumOf us := by
  induction ts with
  | nil => simp [mulTerms]
  | cons t ts ih =>
    rw [mulTerms, List.foldr_cons, sumOf_addTerms, sumOf_mulTerm, ← mulTerms, ih, sumOf_cons,
      add_mul]

theorem sumOf_mapCoeff (c : ℚ) (ts : List Term) :
    sumOf (ts.map fun t => ⟨c * t.coeff, t.monomial⟩) = C c * sumOf ts := by
  induction ts with
  | nil => simp
  | cons t ts ih =>
    rw [List.map_cons, sumOf_cons, ih, sumOf_cons, mul_add, Term.toMv, Term.toMv, C_mul_monomial]

/-! ## Polynomials -/

namespace Poly

/-- The polynomial as an element of the polynomial ring over the rational numbers. -/
def toMv (p : Poly) : MvPolynomial ℕ ℚ := sumOf p.terms

@[simp] theorem toMv_ofTerms (o : MonomialOrder) (ts : List Term) :
    (ofTerms o ts).toMv = sumOf ts := sumOf_collectTerms o ts

@[simp] theorem toMv_withOrder (o : MonomialOrder) (p : Poly) : (p.withOrder o).toMv = p.toMv := by
  rw [withOrder]
  split_ifs
  · rfl
  · exact toMv_ofTerms _ _

@[simp] theorem toMv_zero : (0 : Poly).toMv = 0 := rfl

@[simp] theorem toMv_const (c : ℚ) : (const c).toMv = C c := by
  rw [const, toMv_ofTerms]
  simp [Term.toMv]

@[simp] theorem toMv_one : (1 : Poly).toMv = 1 := toMv_const 1

@[simp] theorem toMv_ofPower (v e : ℕ) : (ofPower v e).toMv = X v ^ e := by
  rw [ofPower, toMv_ofTerms]
  simp [Term.toMv, X_pow_eq_monomial]

@[simp] theorem toMv_var (v : ℕ) : (var v).toMv = X v := by
  rw [var, toMv_ofPower, pow_one]

@[simp] theorem toMv_neg (p : Poly) : (-p).toMv = -p.toMv := by
  show sumOf (p.terms.map fun t => ⟨-t.coeff, t.monomial⟩) = -sumOf p.terms
  have := sumOf_mapCoeff (-1) p.terms
  simpa using this

@[simp] theorem toMv_add (p q : Poly) : (p + q).toMv = p.toMv + q.toMv := by
  show sumOf (addTerms _ _ _) = _
  rw [sumOf_addTerms]
  exact congrArg (_ + ·) (toMv_withOrder _ q)

@[simp] theorem toMv_sub (p q : Poly) : (p - q).toMv = p.toMv - q.toMv := by
  show (p + -q).toMv = _
  rw [toMv_add, toMv_neg, sub_eq_add_neg]

@[simp] theorem toMv_scale (c : ℚ) (p : Poly) : (p.scale c).toMv = C c * p.toMv := by
  rw [scale]
  split_ifs with h
  · simp [h]
  · exact sumOf_mapCoeff c p.terms

theorem toMv_eq_zero_of_isZero {p : Poly} (h : p.isZero = true) : p.toMv = 0 := by
  rw [isZero, List.isEmpty_iff] at h
  rw [toMv, h, sumOf_nil]

@[simp] theorem toMv_mul (p q : Poly) : (p * q).toMv = p.toMv * q.toMv := by
  show (Poly.mul p q).toMv = _
  rw [Poly.mul]
  split_ifs with h
  · rcases Bool.or_eq_true_iff.1 h with h | h <;> simp [toMv_eq_zero_of_isZero h]
  · exact sumOf_mulTerms _ _ _

@[simp] theorem toMv_mulMonomial (m : Monomial) (p : Poly) :
    (p.mulMonomial m).toMv = monomial m.toFinsupp 1 * p.toMv :=
  sumOf_mulTerm _ _ _

theorem toMv_powBySquaring (p : Poly) (k : ℕ) : (p.powBySquaring k).toMv = p.toMv ^ k := by
  induction k using Nat.strong_induction_on with
  | _ k ih =>
    rw [powBySquaring]
    split_ifs with h₀ h₁
    · simp [h₀]
    · have hk : k = k / 2 + k / 2 + 1 := by omega
      simp only [toMv_mul, ih (k / 2) (by omega)]
      rw [← pow_add, ← pow_succ, ← hk]
    · have hk : k = k / 2 + k / 2 := by omega
      simp only [toMv_mul, ih (k / 2) (by omega)]
      rw [← pow_add, ← hk]

@[simp] theorem toMv_pow (p : Poly) (k : ℕ) : (p.pow k).toMv = p.toMv ^ k := by
  rw [Poly.pow]
  split_ifs with h
  · rw [h, pow_one]
  · exact toMv_powBySquaring p k

/-! ## Terms and support -/

theorem coeff_sumOf {ts : List Term} {m : ℕ →₀ ℕ} (h : ∀ t ∈ ts, t.monomial.toFinsupp ≠ m) :
    (sumOf ts).coeff m = 0 := by
  induction ts with
  | nil => simp
  | cons t ts ih =>
    rw [sumOf_cons, coeff_add, ih fun s hs => h s (.tail _ hs), Term.toMv, coeff_monomial,
      if_neg (h t (.head _)), add_zero]

theorem coeff_toMv {p : Poly} {t : Term} (ht : t ∈ p.terms) :
    p.toMv.coeff t.monomial.toFinsupp = t.coeff := by
  obtain ⟨o, ts, hv⟩ := p
  change t ∈ ts at ht
  show (sumOf ts).coeff _ = _
  induction ts with
  | nil => simp at ht
  | cons u us ih =>
    have hne : ∀ s ∈ us, s.monomial.toFinsupp ≠ u.monomial.toFinsupp := by
      intro s hs he
      have hlt := hv.lt_head s hs
      rw [Monomial.toFinsupp_injective he, MonomialOrder.compare_eq_iff.2 rfl] at hlt
      exact absurd hlt (by decide)
    rw [sumOf_cons, coeff_add, Term.toMv, coeff_monomial]
    rcases List.mem_cons.1 ht with rfl | ht
    · rw [if_pos rfl, coeff_sumOf hne, add_zero]
    · rw [if_neg (hne t ht).symm, zero_add, ih hv.tail ht]

theorem mem_support_toMv {p : Poly} {m : ℕ →₀ ℕ} :
    m ∈ p.toMv.support ↔ ∃ t ∈ p.terms, t.monomial.toFinsupp = m := by
  rw [mem_support_iff]
  constructor
  · intro h
    by_contra hne
    push Not at hne
    exact h (coeff_sumOf hne)
  · rintro ⟨t, ht, rfl⟩
    rw [coeff_toMv ht]
    exact p.valid.nonzero t ht

theorem nodup_terms (p : Poly) : p.terms.Nodup :=
  p.valid.descending.imp fun {s t} hlt hst => by
    rw [hst, MonomialOrder.compare_eq_iff.2 rfl] at hlt
    exact absurd hlt (by decide)

theorem mem_terms_of_toMv_eq {p q : Poly} (h : p.toMv = q.toMv) {t : Term} (ht : t ∈ p.terms) :
    t ∈ q.terms := by
  have hcoeff : q.toMv.coeff t.monomial.toFinsupp = t.coeff := h ▸ coeff_toMv ht
  obtain ⟨u, hu, he⟩ := mem_support_toMv.1 (mem_support_iff.2 (hcoeff ▸ p.valid.nonzero t ht))
  have hcoeff' := coeff_toMv hu
  rw [he] at hcoeff'
  obtain ⟨c, m⟩ := t
  obtain ⟨d, n⟩ := u
  obtain rfl : d = c := hcoeff'.symm.trans hcoeff
  obtain rfl : n = m := Monomial.toFinsupp_injective he
  exact hu

/-- In one order the sum determines the terms. -/
theorem eq_of_toMv_eq {p q : Poly} (ho : p.order = q.order) (h : p.toMv = q.toMv) : p = q := by
  refine ext ho (List.Perm.eq_of_pairwise (fun s t _ _ hst hts => ?_) p.valid.descending
    (ho ▸ q.valid.descending) ((List.perm_ext_iff_of_nodup p.nodup_terms q.nodup_terms).2 fun t =>
      ⟨mem_terms_of_toMv_eq h, mem_terms_of_toMv_eq h.symm⟩))
  have hlt := MonomialOrder.lt_trans hst hts
  rw [MonomialOrder.compare_eq_iff.2 rfl] at hlt
  exact absurd hlt (by decide)

theorem toMv_eq_zero_iff {p : Poly} : p.toMv = 0 ↔ p.isZero = true := by
  refine ⟨fun h => ?_, toMv_eq_zero_of_isZero⟩
  rw [isZero, List.isEmpty_iff, List.eq_nil_iff_forall_not_mem]
  intro t ht
  have : t.monomial.toFinsupp ∈ p.toMv.support := mem_support_toMv.2 ⟨t, ht, rfl⟩
  simp [h] at this

theorem isZero_eq_false_iff {p : Poly} : p.isZero = false ↔ p.toMv ≠ 0 := by
  rw [Ne, toMv_eq_zero_iff, Bool.not_eq_true]

/-! ## Numbers -/

theorem isConstant_iff {p : Poly} : p.isConstant = true ↔ ∃ c : ℚ, c ≠ 0 ∧ p.toMv = C c := by
  constructor
  · intro h
    obtain ⟨o, ts, hv⟩ := p
    match ts, hv, h with
    | [t], hv, h =>
      refine ⟨t.coeff, hv.head_ne_zero, ?_⟩
      have hm : t.monomial.toFinsupp = 0 := (Monomial.isUnit_iff _).1 h
      show sumOf [t] = _
      simp [Term.toMv, hm]
  · rintro ⟨c, hc, hp⟩
    have hmem : ∀ t ∈ p.terms, t.monomial.toFinsupp = 0 := by
      intro t ht
      have : t.monomial.toFinsupp ∈ p.toMv.support := mem_support_toMv.2 ⟨t, ht, rfl⟩
      rw [hp, mem_support_iff, coeff_C] at this
      by_contra h0
      exact this (if_neg (Ne.symm h0))
    obtain ⟨o, ts, hv⟩ := p
    match ts, hv with
    | [], hv => exact absurd (C_eq_zero.1 hp.symm) hc
    | [t], hv => exact (Monomial.isUnit_iff _).2 (hmem t (.head _))
    | t :: u :: us, hv =>
      exfalso
      have hlt := hv.lt_head u (.head _)
      have he : u.monomial = t.monomial := Monomial.toFinsupp_injective
        ((hmem u (.tail _ (.head _))).trans (hmem t (.head _)).symm)
      rw [he, MonomialOrder.compare_eq_iff.2 rfl] at hlt
      exact absurd hlt (by decide)

theorem constantValue_eq {p : Poly} {c : ℚ} (h : p.toMv = C c) : p.constantValue = c := by
  by_cases hc : c = 0
  · subst hc
    have : p.terms = [] := by
      rw [C_0, toMv_eq_zero_iff, isZero, List.isEmpty_iff] at h
      exact h
    rw [constantValue, this]
  · have hcon := isConstant_iff.2 ⟨c, hc, h⟩
    obtain ⟨o, ts, hv⟩ := p
    match ts, hv, hcon, h with
    | [t], hv, hcon, h =>
      have hu : t.monomial.isUnit = true := hcon
      have hm := (Monomial.isUnit_iff _).1 hu
      simp only [constantValue, hu, if_true]
      have := coeff_toMv (p := ⟨o, [t], hv⟩) (List.mem_singleton_self t)
      rw [h, hm, coeff_C, if_pos rfl] at this
      exact this.symm

theorem isNumber_iff {p : Poly} : p.isNumber = true ↔ ∃ c : ℚ, p.toMv = C c := by
  rw [isNumber, Bool.or_eq_true, ← toMv_eq_zero_iff, isConstant_iff]
  constructor
  · rintro (h | ⟨c, -, h⟩)
    · exact ⟨0, by rw [h, C_0]⟩
    · exact ⟨c, h⟩
  · rintro ⟨c, h⟩
    by_cases hc : c = 0
    · exact .inl (by rw [h, hc, C_0])
    · exact .inr ⟨c, hc, h⟩

theorem toMv_of_isNumber {p : Poly} (h : p.isNumber = true) : p.toMv = C p.constantValue := by
  obtain ⟨c, hc⟩ := isNumber_iff.1 h
  rw [constantValue_eq hc, hc]

theorem constantValue_ne_zero {p : Poly} (h : p.isConstant = true) : p.constantValue ≠ 0 := by
  obtain ⟨c, hc, hp⟩ := isConstant_iff.1 h
  rwa [constantValue_eq hp]

theorem isOne_iff {p : Poly} : p.isOne = true ↔ p.toMv = 1 := by
  rw [isOne, Bool.and_eq_true, isConstant_iff, beq_iff_eq]
  constructor
  · rintro ⟨⟨c, -, hp⟩, h⟩
    rw [constantValue_eq hp] at h
    rw [hp, h, C_1]
  · intro h
    rw [← C_1] at h
    exact ⟨⟨1, one_ne_zero, h⟩, constantValue_eq h⟩

theorem toMv_eq_of_sameTerms {p q : Poly} (h : p.sameTerms q = true) : p.toMv = q.toMv := by
  rw [sameTerms, beq_iff_eq] at h
  rw [toMv, h, toMv]

/-! ## Degrees and variables -/

theorem le_foldl_max {α : Type} (f : α → ℕ) (xs : List α) (d : ℕ) :
    d ≤ xs.foldl (fun d x => max d (f x)) d ∧
      ∀ x ∈ xs, f x ≤ xs.foldl (fun d x => max d (f x)) d := by
  induction xs generalizing d with
  | nil => simp
  | cons x xs ih =>
    obtain ⟨h₁, h₂⟩ := ih (max d (f x))
    refine ⟨(le_max_left _ _).trans h₁, fun y hy => ?_⟩
    rcases List.mem_cons.1 hy with rfl | hy
    · exact (le_max_right _ _).trans h₁
    · exact h₂ y hy

theorem foldl_max_le {α : Type} {f : α → ℕ} {xs : List α} {d n : ℕ} (hd : d ≤ n)
    (h : ∀ x ∈ xs, f x ≤ n) : xs.foldl (fun d x => max d (f x)) d ≤ n := by
  induction xs generalizing d with
  | nil => exact hd
  | cons x xs ih => exact ih (max_le hd (h x (.head _))) fun y hy => h y (.tail _ hy)

theorem degreeOf_le_iff {v n : ℕ} {p : Poly} :
    p.degreeOf v ≤ n ↔ ∀ t ∈ p.terms, t.monomial.degreeOf v ≤ n := by
  refine ⟨fun h t ht => ?_, foldl_max_le (Nat.zero_le n)⟩
  exact ((le_foldl_max (fun t : Term => t.monomial.degreeOf v) p.terms 0).2 t ht).trans h

theorem degreeOf_eq (v : ℕ) (p : Poly) : p.degreeOf v = p.toMv.degreeOf v := by
  apply le_antisymm
  · rw [degreeOf_le_iff]
    intro t ht
    rw [← Monomial.toFinsupp_apply]
    exact MvPolynomial.monomial_le_degreeOf v (mem_support_toMv.2 ⟨t, ht, rfl⟩)
  · rw [degreeOf_eq_sup, Finset.sup_le_iff]
    intro m hm
    obtain ⟨t, ht, rfl⟩ := mem_support_toMv.1 hm
    rw [Monomial.toFinsupp_apply]
    exact degreeOf_le_iff.1 le_rfl t ht

theorem containsVar_iff {v : ℕ} {p : Poly} : p.containsVar v = true ↔ v ∈ p.toMv.vars := by
  rw [containsVar, List.any_eq_true, MvPolynomial.mem_vars_iff_mem_support]
  constructor
  · rintro ⟨t, ht, hv⟩
    exact ⟨_, mem_support_toMv.2 ⟨t, ht, rfl⟩, by simpa using hv⟩
  · rintro ⟨m, hm, hv⟩
    obtain ⟨t, ht, rfl⟩ := mem_support_toMv.1 hm
    exact ⟨t, ht, by simpa using hv⟩

theorem containsVar_eq_false_iff {v : ℕ} {p : Poly} :
    p.containsVar v = false ↔ v ∉ p.toMv.vars := by
  rw [← containsVar_iff, Bool.not_eq_true]

theorem degreeOf_eq_zero_iff {v : ℕ} {p : Poly} : p.degreeOf v = 0 ↔ v ∉ p.toMv.vars := by
  rw [degreeOf_eq, mem_vars_iff_degreeOf_ne_zero, not_not]

theorem ne_zero_of_degreeOf_pos {v : ℕ} {p : Poly} (h : 0 < p.degreeOf v) : p.toMv ≠ 0 := fun h0 => by
  rw [degreeOf_eq, h0, degreeOf_zero] at h
  exact h.false

theorem mem_insertVar {v w : ℕ} {vs : List ℕ} : w ∈ insertVar v vs ↔ w = v ∨ w ∈ vs := by
  induction vs with
  | nil => simp [insertVar]
  | cons u us ih =>
    rw [insertVar]
    split_ifs with h₁ h₂
    · simp
    · simp [h₂]
    · simp [ih, or_left_comm]

theorem mem_foldl_insertVar {w : ℕ} {vs ws : List ℕ} :
    w ∈ vs.foldl (fun ws v => insertVar v ws) ws ↔ w ∈ vs ∨ w ∈ ws := by
  induction vs generalizing ws with
  | nil => simp
  | cons v vs ih => rw [List.foldl_cons, ih, mem_insertVar, List.mem_cons]; tauto

theorem mem_vars_iff {v : ℕ} {p : Poly} : v ∈ p.vars ↔ v ∈ p.toMv.vars := by
  have h : ∀ (ts : List Term) (ws : List ℕ),
      v ∈ ts.foldl (fun vs t => t.monomial.vars.foldl (fun vs v => insertVar v vs) vs) ws ↔
        (∃ t ∈ ts, v ∈ t.monomial.vars) ∨ v ∈ ws := by
    intro ts
    induction ts with
    | nil => simp
    | cons t ts ih =>
      intro ws
      rw [List.foldl_cons, ih, mem_foldl_insertVar]
      simp only [List.mem_cons, exists_eq_or_imp]
      rw [or_left_comm, or_assoc]
  rw [vars, h, MvPolynomial.mem_vars_iff_mem_support]
  constructor
  · rintro (⟨t, ht, hv⟩ | hv)
    · exact ⟨_, mem_support_toMv.2 ⟨t, ht, rfl⟩, (Monomial.mem_vars_iff_mem_support _ _).1 hv⟩
    · simp at hv
  · rintro ⟨m, hm, hv⟩
    obtain ⟨t, ht, rfl⟩ := mem_support_toMv.1 hm
    exact .inl ⟨t, ht, (Monomial.mem_vars_iff_mem_support _ _).2 hv⟩

end Poly

end Cylindrical

end
