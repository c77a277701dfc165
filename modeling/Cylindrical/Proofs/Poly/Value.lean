import Mathlib
import Cylindrical.Proofs.Poly.Denotation

/-!
# Values and coefficients

The value of a polynomial at a point of any algebra over the rational numbers (`Poly.value`).  With
one variable left open it is a polynomial in this variable (`Poly.fiber`), whose coefficients are the
values of the coefficients with respect to the variable.
-/

noncomputable section

open MvPolynomial

/-- A commutative ring over the rational numbers. -/
abbrev RationalAlgebra (A : Type*) [CommRing A] := Algebra ℚ A

namespace Cylindrical

/-- One name for the instance by which the real numbers are an algebra over the rational numbers. -/
instance charZero_real : CharZero ℝ := inferInstance

namespace Poly

section Value

variable {A B : Type*} [CommRing A] [RationalAlgebra A] [CommRing B] [RationalAlgebra B]

/-- The value at a point. -/
def value (x : ℕ → A) (p : Poly) : A := aeval x p.toMv

variable (x : ℕ → A)

@[simp] theorem value_zero : (0 : Poly).value x = 0 := by simp [value]

@[simp] theorem value_one : (1 : Poly).value x = 1 := by simp [value]

@[simp] theorem value_const (c : ℚ) : (const c).value x = algebraMap ℚ A c := by simp [value]

@[simp] theorem value_var (v : ℕ) : (var v).value x = x v := by simp [value]

@[simp] theorem value_ofPower (v e : ℕ) : (ofPower v e).value x = x v ^ e := by simp [value]

@[simp] theorem value_neg (p : Poly) : (-p).value x = -p.value x := by simp [value]

@[simp] theorem value_add (p q : Poly) : (p + q).value x = p.value x + q.value x := by
  simp [value]

@[simp] theorem value_sub (p q : Poly) : (p - q).value x = p.value x - q.value x := by
  simp [value]

@[simp] theorem value_mul (p q : Poly) : (p * q).value x = p.value x * q.value x := by
  simp [value]

@[simp] theorem value_scale (c : ℚ) (p : Poly) :
    (p.scale c).value x = algebraMap ℚ A c * p.value x := by
  simp [value]

@[simp] theorem value_pow (p : Poly) (k : ℕ) : (p.pow k).value x = p.value x ^ k := by
  simp [value]

@[simp] theorem value_withOrder (o : MonomialOrder) (p : Poly) :
    (p.withOrder o).value x = p.value x := by
  simp [value]

theorem value_of_isZero {p : Poly} (h : p.isZero = true) : p.value x = 0 := by
  rw [value, toMv_eq_zero_of_isZero h, map_zero]

theorem value_of_isNumber {p : Poly} (h : p.isNumber = true) :
    p.value x = algebraMap ℚ A p.constantValue := by
  rw [value, toMv_of_isNumber h, aeval_C]

/-- Powers of numbers from one on are no smaller than one. -/
theorem one_le_value_ofPower {x : ℕ → ℝ} {v : ℕ} (h : 1 ≤ x v) (e : ℕ) :
    1 ≤ (ofPower v e).value x := by
  rw [value_ofPower]
  exact one_le_pow₀ h

variable {x}

/-- The value depends on the variables that occur only. -/
theorem value_congr {y : ℕ → A} {p : Poly} (h : ∀ v ∈ p.toMv.vars, x v = y v) :
    p.value x = p.value y :=
  eval₂Hom_congr' rfl (fun v hv _ => h v hv) rfl

theorem value_update_of_notMem {v : ℕ} {p : Poly} (h : v ∉ p.toMv.vars) (a : A) :
    p.value (Function.update x v a) = p.value x :=
  value_congr fun w hw => Function.update_of_ne (fun he => h (by rwa [← he])) _ _

theorem map_value (f : A →ₐ[ℚ] B) (p : Poly) : f (p.value x) = p.value fun v => f (x v) := by
  rw [value, value, comp_aeval_apply]

/-- The polynomial itself is its value at the variables. -/
theorem value_X (p : Poly) : p.value (X : ℕ → MvPolynomial ℕ ℚ) = p.toMv := by
  rw [value, aeval_X_left_apply]

theorem value_eq_aeval_of_toMv_eq {p q : Poly} (h : p.toMv = q.toMv) : p.value x = q.value x := by
  rw [value, value, h]

end Value

/-! ## Coefficients -/

section Coefficients

theorem sumOf_filter_degree (v : ℕ) {n : ℕ} {ts : List Term}
    (h : ∀ t ∈ ts, t.monomial.degreeOf v < n) :
    ∑ k ∈ Finset.range n, sumOf ((ts.filter fun t => t.monomial.degreeOf v == k).map fun t =>
      ⟨t.coeff, t.monomial.without v⟩) * X v ^ k = sumOf ts := by
  induction ts with
  | nil => simp
  | cons t ts ih =>
    have ht := h t (.head _)
    have hsplit : t.toMv = (⟨t.coeff, t.monomial.without v⟩ : Term).toMv *
        X v ^ t.monomial.degreeOf v := by
      rw [Term.toMv, Term.toMv, X_pow_eq_monomial, monomial_mul, mul_one, Monomial.toFinsupp_without,
        add_comm, ← Monomial.toFinsupp_eq_single_add_erase]
    rw [sumOf_cons, ← ih fun s hs => h s (.tail _ hs), hsplit,
      ← Finset.sum_ite_eq_of_mem (Finset.range n) (t.monomial.degreeOf v)
        (fun k => (⟨t.coeff, t.monomial.without v⟩ : Term).toMv * X v ^ k) (by simpa using ht),
      ← Finset.sum_add_distrib]
    refine Finset.sum_congr rfl fun k _ => ?_
    rw [List.filter_cons]
    by_cases hk : t.monomial.degreeOf v = k
    · simp [hk, add_mul]
    · simp [hk]

theorem toMv_coeff (v k : ℕ) (p : Poly) :
    (p.coeff v k).toMv = sumOf ((p.terms.filter fun t => t.monomial.degreeOf v == k).map fun t =>
      ⟨t.coeff, t.monomial.without v⟩) :=
  toMv_ofTerms _ _

theorem exists_of_mem_support_sumOf {ts : List Term} {m : ℕ →₀ ℕ} (h : m ∈ (sumOf ts).support) :
    ∃ t ∈ ts, t.monomial.toFinsupp = m := by
  by_contra hne
  push Not at hne
  exact mem_support_iff.1 h (coeff_sumOf hne)

theorem exists_of_mem_support_coeff {v k : ℕ} {p : Poly} {m : ℕ →₀ ℕ}
    (h : m ∈ (p.coeff v k).toMv.support) : ∃ n ∈ p.toMv.support, n v = k ∧ m = n.erase v := by
  rw [toMv_coeff] at h
  obtain ⟨s, hs, rfl⟩ := exists_of_mem_support_sumOf h
  obtain ⟨t, ht, rfl⟩ := List.mem_map.1 hs
  obtain ⟨ht, hk⟩ := List.mem_filter.1 ht
  exact ⟨_, mem_support_toMv.2 ⟨t, ht, rfl⟩, by simpa using hk, Monomial.toFinsupp_without _ _⟩

theorem notMem_vars_coeff (v k : ℕ) (p : Poly) : v ∉ (p.coeff v k).toMv.vars := by
  rw [MvPolynomial.mem_vars_iff_mem_support]
  rintro ⟨m, hm, hv⟩
  obtain ⟨n, -, -, rfl⟩ := exists_of_mem_support_coeff hm
  simp at hv

theorem notMem_vars_leadingCoeffOf (v : ℕ) (p : Poly) : v ∉ (p.leadingCoeffOf v).toMv.vars :=
  notMem_vars_coeff v _ p

theorem vars_coeff_subset (v k : ℕ) (p : Poly) : (p.coeff v k).toMv.vars ⊆ p.toMv.vars := by
  intro w hw
  rw [MvPolynomial.mem_vars_iff_mem_support] at hw ⊢
  obtain ⟨m, hm, hw⟩ := hw
  obtain ⟨n, hn, -, rfl⟩ := exists_of_mem_support_coeff hm
  exact ⟨n, hn, by
    rw [Finsupp.support_erase] at hw
    exact Finset.mem_of_mem_erase hw⟩

theorem degreeOf_coeff_le (v k w : ℕ) (p : Poly) : (p.coeff v k).degreeOf w ≤ p.degreeOf w := by
  rw [degreeOf_eq, degreeOf_eq, MvPolynomial.degreeOf_le_iff]
  intro m hm
  obtain ⟨n, hn, -, rfl⟩ := exists_of_mem_support_coeff hm
  refine le_trans ?_ (MvPolynomial.monomial_le_degreeOf w hn)
  rw [Finsupp.erase_apply]
  split_ifs <;> simp

theorem toMv_eq_sum_coeff (v : ℕ) (p : Poly) :
    p.toMv = ∑ k ∈ Finset.range (p.degreeOf v + 1), (p.coeff v k).toMv * X v ^ k := by
  simp only [toMv_coeff]
  exact (sumOf_filter_degree v fun t ht => Nat.lt_succ_of_le (degreeOf_le_iff.1 le_rfl t ht)).symm

theorem coeff_eq_zero_of_degreeOf_lt {v k : ℕ} {p : Poly} (h : p.degreeOf v < k) :
    (p.coeff v k).toMv = 0 := by
  rw [toMv_coeff, List.filter_eq_nil_iff.2]
  · rfl
  · intro t ht
    have := degreeOf_le_iff.1 (le_refl (p.degreeOf v)) t ht
    simp only [beq_iff_eq]
    omega

theorem toMv_reductum_add (v : ℕ) (p : Poly) :
    p.toMv = (p.leadingCoeffOf v).toMv * X v ^ p.degreeOf v + (p.reductum v).toMv := by
  have h := toMv_eq_sum_coeff v p
  rw [Finset.sum_range_succ, add_comm] at h
  have hr : (p.reductum v).toMv =
      ∑ k ∈ Finset.range (p.degreeOf v), (p.coeff v k).toMv * X v ^ k := by
    show sumOf (p.terms.filter _) = _
    have hlow : ∀ t ∈ p.terms.filter fun t => t.monomial.degreeOf v < p.degreeOf v,
        t.monomial.degreeOf v < p.degreeOf v := fun t ht => by simpa using (List.mem_filter.1 ht).2
    rw [← sumOf_filter_degree v hlow]
    refine Finset.sum_congr rfl fun k hk => ?_
    rw [toMv_coeff, List.filter_filter]
    congr 3
    refine List.filter_congr fun t _ => ?_
    have hk := Finset.mem_range.1 hk
    by_cases ht : t.monomial.degreeOf v = k
    · simp [ht, hk]
    · simp [ht]
  rw [hr]
  exact h

theorem degreeOf_reductum_lt {v : ℕ} {p : Poly} (h : 0 < p.degreeOf v) :
    (p.reductum v).degreeOf v < p.degreeOf v := by
  rw [← Nat.le_sub_one_iff_lt h, degreeOf_le_iff]
  intro t ht
  have := (List.mem_filter.1 ht).2
  simp only [decide_eq_true_eq] at this
  omega

theorem toMv_reductum_of_degreeOf_eq_zero {v : ℕ} {p : Poly} (h : p.degreeOf v = 0) :
    (p.reductum v).toMv = 0 := by
  show sumOf (p.terms.filter _) = 0
  rw [h, List.filter_eq_nil_iff.2 (by simp)]
  rfl

theorem leadingCoeffOf_ne_zero {v : ℕ} {p : Poly} (h : p.toMv ≠ 0) :
    (p.leadingCoeffOf v).toMv ≠ 0 := by
  intro h0
  have hp := toMv_reductum_add v p
  rw [h0, zero_mul, zero_add] at hp
  rcases Nat.eq_zero_or_pos (p.degreeOf v) with hd | hd
  · exact h (hp.trans (toMv_reductum_of_degreeOf_eq_zero hd))
  · have := degreeOf_reductum_lt hd
    rw [degreeOf_eq, degreeOf_eq, ← hp] at this
    omega

variable {A : Type*} [CommRing A] [RationalAlgebra A]

theorem value_eq_sum_coeff (v : ℕ) (x : ℕ → A) (p : Poly) :
    p.value x = ∑ k ∈ Finset.range (p.degreeOf v + 1), (p.coeff v k).value x * x v ^ k := by
  have h := congrArg (aeval x) (toMv_eq_sum_coeff v p)
  simpa [value] using h

theorem value_coeff_update (v k : ℕ) (x : ℕ → A) (a : A) (p : Poly) :
    (p.coeff v k).value (Function.update x v a) = (p.coeff v k).value x :=
  value_update_of_notMem (notMem_vars_coeff v k p) a

end Coefficients

/-! ## One variable left open -/

section Over

variable {A : Type*} [CommRing A] [RationalAlgebra A]

/-- A point with the variable `v` left open. -/
def openAt (v : ℕ) (x : ℕ → A) : ℕ → Polynomial A :=
  Function.update (fun w => Polynomial.C (x w)) v Polynomial.X

omit [RationalAlgebra A] in
@[simp] theorem openAt_self (v : ℕ) (x : ℕ → A) : openAt v x v = Polynomial.X :=
  Function.update_self _ _ _

omit [RationalAlgebra A] in
@[simp] theorem openAt_of_ne {v w : ℕ} (h : w ≠ v) (x : ℕ → A) :
    openAt v x w = Polynomial.C (x w) :=
  Function.update_of_ne h _ _

/-- The polynomial in `v` that is left at a point in the other variables. -/
def fiber (v : ℕ) (x : ℕ → A) (p : Poly) : Polynomial A := p.value (openAt v x)

@[simp] theorem eval_fiber (v : ℕ) (x : ℕ → A) (a : A) (p : Poly) :
    (p.fiber v x).eval a = p.value (Function.update x v a) := by
  have h := map_value (x := openAt v x) (Polynomial.aeval a |>.restrictScalars ℚ) p
  rw [AlgHom.restrictScalars_apply, Polynomial.coe_aeval_eq_eval] at h
  refine h.trans (congrArg (fun y => value y p) (funext fun w => ?_))
  by_cases hw : w = v
  · subst hw
    simp
  · simp [hw]

theorem fiber_of_notMem {v : ℕ} {p : Poly} (h : v ∉ p.toMv.vars) (x : ℕ → A) :
    p.fiber v x = Polynomial.C (p.value x) := by
  have hC := map_value (x := x) (Polynomial.CAlgHom (R := ℚ)) p
  rw [Polynomial.CAlgHom_apply] at hC
  rw [hC]
  exact value_congr fun w hw => openAt_of_ne (fun he => h (by rwa [← he])) x

theorem fiber_eq_sum (v : ℕ) (x : ℕ → A) (p : Poly) :
    p.fiber v x = ∑ k ∈ Finset.range (p.degreeOf v + 1),
      Polynomial.C ((p.coeff v k).value x) * Polynomial.X ^ k := by
  rw [fiber, value_eq_sum_coeff v]
  refine Finset.sum_congr rfl fun k _ => ?_
  rw [openAt_self]
  exact congrArg (· * _) (fiber_of_notMem (notMem_vars_coeff v k p) x)

@[simp] theorem coeff_fiber (v k : ℕ) (x : ℕ → A) (p : Poly) :
    (p.fiber v x).coeff k = (p.coeff v k).value x := by
  rw [fiber_eq_sum, Polynomial.finsetSum_coeff]
  simp only [Polynomial.coeff_C_mul_X_pow]
  by_cases hk : k < p.degreeOf v + 1
  · rw [Finset.sum_ite_eq_of_mem _ _ _ (Finset.mem_range.2 hk)]
  · rw [Finset.sum_eq_zero fun j hj => if_neg ?_, value, coeff_eq_zero_of_degreeOf_lt (by omega),
      map_zero]
    have := Finset.mem_range.1 hj
    omega

theorem natDegree_fiber_le (v : ℕ) (x : ℕ → A) (p : Poly) :
    (p.fiber v x).natDegree ≤ p.degreeOf v := by
  rw [Polynomial.natDegree_le_iff_coeff_eq_zero]
  intro k hk
  rw [coeff_fiber, value, coeff_eq_zero_of_degreeOf_lt hk, map_zero]

@[simp] theorem fiber_mul (v : ℕ) (x : ℕ → A) (p q : Poly) :
    (p * q).fiber v x = p.fiber v x * q.fiber v x := value_mul _ _ _

@[simp] theorem fiber_add (v : ℕ) (x : ℕ → A) (p q : Poly) :
    (p + q).fiber v x = p.fiber v x + q.fiber v x := value_add _ _ _

@[simp] theorem fiber_sub (v : ℕ) (x : ℕ → A) (p q : Poly) :
    (p - q).fiber v x = p.fiber v x - q.fiber v x := value_sub _ _ _

@[simp] theorem fiber_zero (v : ℕ) (x : ℕ → A) : (0 : Poly).fiber v x = 0 := value_zero _

@[simp] theorem fiber_scale (v : ℕ) (x : ℕ → A) (c : ℚ) (p : Poly) :
    (p.scale c).fiber v x = Polynomial.C (algebraMap ℚ A c) * p.fiber v x := value_scale _ _ _

end Over

/-! ## Main variable -/

theorem mainVar?_monomial_eq_none {m : Monomial} : m.mainVar? = none ↔ m.toFinsupp = 0 := by
  rw [← Monomial.isUnit_iff, Monomial.isUnit, List.isEmpty_iff, Monomial.mainVar?,
    Option.map_eq_none_iff, List.head?_eq_none_iff]

theorem mainVar?_monomial_eq_some {m : Monomial} {v : ℕ} (h : m.mainVar? = some v) :
    m.degreeOf v ≠ 0 ∧ ∀ w, m.degreeOf w ≠ 0 → w ≤ v := by
  obtain ⟨ps, hps, d, hd⟩ := m
  cases ps with
  | nil => simp [Monomial.mainVar?] at h
  | cons p ps =>
    obtain rfl : p.1 = v := by simpa [Monomial.mainVar?] using h
    constructor
    · show exponentIn p.1 (p :: ps) ≠ 0
      rw [exponentIn, if_pos rfl]
      exact hps.head_pos.ne'
    · intro w hw
      change exponentIn w (p :: ps) ≠ 0 at hw
      rw [exponentIn] at hw
      split_ifs at hw with hp
      · exact hp.ge
      · by_contra hlt
        exact hw (exponentIn_of_lt fun q hq => (hps.lt_head q hq).trans (by omega))

theorem maxVar?_eq_none_iff {u v : Option ℕ} : maxVar? u v = none ↔ u = none ∧ v = none := by
  cases u <;> cases v <;> simp [maxVar?]

theorem maxVar?_eq_or (u v : Option ℕ) : maxVar? u v = u ∨ maxVar? u v = v := by
  match u, v with
  | none, v => exact .inr rfl
  | some a, none => exact .inl rfl
  | some a, some b =>
    rw [maxVar?]
    split_ifs
    · exact .inr rfl
    · exact .inl rfl
    · rcases max_choice a b with h | h <;> simp [h]

theorem foldl_maxVar?_eq_none_iff {vs : List (Option ℕ)} {u : Option ℕ} :
    vs.foldl maxVar? u = none ↔ ∀ v ∈ u :: vs, v = none := by
  induction vs generalizing u with
  | nil => simp
  | cons t ts ih =>
    rw [List.foldl_cons, ih]
    simp [maxVar?_eq_none_iff, and_assoc]

theorem foldl_maxVar?_mem (vs : List (Option ℕ)) (u : Option ℕ) :
    vs.foldl maxVar? u ∈ u :: vs := by
  induction vs generalizing u with
  | nil => simp
  | cons t ts ih =>
    rcases List.mem_cons.1 (ih (maxVar? u t)) with h | h
    · rw [List.foldl_cons, h]
      rcases maxVar?_eq_or u t with h | h <;> simp [h]
    · exact .tail _ (.tail _ h)

/-- Over ordinary variables the fold yields the largest. -/
theorem le_of_foldl_maxVar? {vs : List (Option ℕ)} {u : Option ℕ} {v : ℕ}
    (h : ∀ v, some v ∈ u :: vs → v ≠ reservedVar) (hv : vs.foldl maxVar? u = some v) :
    ∀ w, some w ∈ u :: vs → w ≤ v := by
  induction vs generalizing u with
  | nil =>
    intro w hw
    rw [List.foldl_nil] at hv
    simp_all
  | cons t ts ih =>
    have hm : ∀ w, some w = u ∨ some w = t → ∃ z, maxVar? u t = some z ∧ w ≤ z := by
      intro w hw
      match u, t with
      | none, t => exact ⟨w, by simp_all [maxVar?], le_rfl⟩
      | some a, none => exact ⟨w, by simp_all [maxVar?], le_rfl⟩
      | some a, some b =>
        have ha := h a (.head _)
        have hb := h b (.tail _ (.head _))
        refine ⟨max a b, by simp [maxVar?, ha, hb], ?_⟩
        rcases hw with hw | hw <;> obtain rfl := Option.some.inj hw <;> omega
    have hle := ih (u := maxVar? u t) (fun z hz => by
      rcases List.mem_cons.1 hz with hz | hz
      · rcases maxVar?_eq_or u t with hu | hu <;> rw [hu] at hz <;>
          exact h z (by simp [hz])
      · exact h z (.tail _ (.tail _ hz))) hv
    intro w hw
    rcases List.mem_cons.1 hw with hw | hw
    · obtain ⟨z, hz, hwz⟩ := hm w (.inl hw)
      exact hwz.trans (hle z (by simp [hz]))
    · rcases List.mem_cons.1 hw with hw | hw
      · obtain ⟨z, hz, hwz⟩ := hm w (.inr hw)
        exact hwz.trans (hle z (by simp [hz]))
      · exact hle w (.tail _ hw)

theorem mainVar?_eq_foldl (p : Poly) :
    p.mainVar? = (p.terms.map (·.monomial.mainVar?)).foldl maxVar? none := by
  rw [mainVar?, List.foldl_map]

theorem ne_reservedVar_of_mem {p : Poly} (h : reservedVar ∉ p.toMv.vars) (v : ℕ)
    (hv : some v ∈ none :: p.terms.map (·.monomial.mainVar?)) : v ≠ reservedVar := by
  rintro rfl
  obtain ⟨t, ht, hv⟩ := List.mem_map.1 (by simpa using hv)
  refine h ((MvPolynomial.mem_vars_iff_mem_support _).2 ⟨_, mem_support_toMv.2 ⟨t, ht, rfl⟩, ?_⟩)
  simpa using (mainVar?_monomial_eq_some hv).1

theorem isNumber_iff_vars {p : Poly} : p.isNumber = true ↔ p.toMv.vars = ∅ := by
  rw [isNumber_iff, vars_eq_empty_iff_eq_C]
  exact ⟨fun ⟨c, hc⟩ => by rw [hc, coeff_C, if_pos rfl], fun h => ⟨_, h⟩⟩

theorem mainVar?_eq_none_iff {p : Poly} : p.mainVar? = none ↔ p.isNumber = true := by
  rw [mainVar?_eq_foldl, foldl_maxVar?_eq_none_iff, isNumber_iff_vars,
    Finset.eq_empty_iff_forall_notMem]
  constructor
  · intro hn v hv
    obtain ⟨m, hm, hv⟩ := (MvPolynomial.mem_vars_iff_mem_support _).1 hv
    obtain ⟨t, ht, rfl⟩ := mem_support_toMv.1 hm
    have h0 := mainVar?_monomial_eq_none.1 (hn _ (.tail _ (List.mem_map.2 ⟨t, ht, rfl⟩)))
    simp [h0] at hv
  · intro hv u hu
    rcases List.mem_cons.1 hu with rfl | hu
    · rfl
    · obtain ⟨t, ht, rfl⟩ := List.mem_map.1 hu
      rw [mainVar?_monomial_eq_none, ← Finsupp.support_eq_empty,
        Finset.eq_empty_iff_forall_notMem]
      exact fun v hm => hv v ((MvPolynomial.mem_vars_iff_mem_support _).2
        ⟨_, mem_support_toMv.2 ⟨t, ht, rfl⟩, hm⟩)

theorem mem_vars_of_mainVar? {p : Poly} {v : ℕ} (hv : p.mainVar? = some v) : v ∈ p.toMv.vars := by
  rw [mainVar?_eq_foldl] at hv
  have hmem := foldl_maxVar?_mem (p.terms.map (·.monomial.mainVar?)) none
  rw [hv] at hmem
  obtain ⟨t, ht, hv⟩ := List.mem_map.1 (by simpa using hmem)
  refine (MvPolynomial.mem_vars_iff_mem_support _).2 ⟨_, mem_support_toMv.2 ⟨t, ht, rfl⟩, ?_⟩
  simpa using (mainVar?_monomial_eq_some hv).1

theorem le_of_mainVar? {p : Poly} (h : reservedVar ∉ p.toMv.vars) {v w : ℕ}
    (hv : p.mainVar? = some v) (hw : w ∈ p.toMv.vars) : w ≤ v := by
  rw [mainVar?_eq_foldl] at hv
  obtain ⟨m, hm, hw⟩ := (MvPolynomial.mem_vars_iff_mem_support _).1 hw
  obtain ⟨t, ht, rfl⟩ := mem_support_toMv.1 hm
  have hw : t.monomial.degreeOf w ≠ 0 := by simpa using hw
  cases hu : t.monomial.mainVar? with
  | none =>
    rw [mainVar?_monomial_eq_none] at hu
    rw [← Monomial.toFinsupp_apply, hu] at hw
    simp at hw
  | some u =>
    exact ((mainVar?_monomial_eq_some hu).2 w hw).trans
      (le_of_foldl_maxVar? (ne_reservedVar_of_mem h) hv u (.tail _ (List.mem_map.2 ⟨t, ht, hu⟩)))

end Poly

end Cylindrical

end
