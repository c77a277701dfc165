import Mathlib
import Cylindrical.Proofs.Poly.ExactDivision
import Cylindrical.Proofs.Poly.SquareFree
import Cylindrical.Proofs.Poly.Substitution

/-!
# The operations on polynomials

Each operation returns a strictly decreasing list of terms without zero coefficients, in the order of
its result, and the sum of the terms is what the operation means for polynomials over the rational
numbers (`Poly.operations_denote`).  The product with a power product need not sort its terms again,
since every order of monomials is kept by multiplication (`Poly.terms_mulMonomial`), and in one order
equal polynomials are equal lists (`Poly.sameTerms_iff`).  Numbers are put in exactly as long as they
are raised to powers below `2 ^ 31` (`Poly.ShortPowers`), from where on exponents of 32 bits are read
as negative ones.
-/

noncomputable section

open MvPolynomial

namespace Cylindrical

/-! ## Lists of terms -/

theorem collectTerms_of_termList {o : MonomialOrder} {ts : List Term} (h : TermList o ts) :
    collectTerms o ts = ts :=
  congrArg Poly.terms (Poly.eq_of_toMv_eq (p := Poly.ofTerms o ts) (q := ⟨o, ts, h⟩) rfl
    (Poly.toMv_ofTerms o ts))

/-- The order of monomials is kept by multiplication. -/
theorem MonomialOrder.compare_mul_eq_lt {o : MonomialOrder} {a b : Monomial}
    (h : o.compare a b = .lt) (m : Monomial) : o.compare (m * a) (m * b) = .lt := by
  rw [compare_eq_lt_iff] at h ⊢
  rw [Monomial.toFinsupp_mul, Monomial.toFinsupp_mul, add_comm m.toFinsupp, add_comm m.toFinsupp]
  exact h.add_right _

theorem TermList.mapMul {o : MonomialOrder} {ts : List Term} (h : TermList o ts) (m : Monomial) :
    TermList o (ts.map fun t => ⟨t.coeff, m * t.monomial⟩) where
  descending := List.pairwise_map.2 (h.descending.imp fun hst =>
    MonomialOrder.compare_mul_eq_lt hst m)
  nonzero := List.forall_mem_map.2 h.nonzero

theorem sumOf_flatMap {α : Type*} (f : α → List Term) (xs : List α) :
    sumOf (xs.flatMap f) = (xs.map fun x => sumOf (f x)).sum := by
  induction xs with
  | nil => simp
  | cons x xs ih => rw [List.flatMap_cons, sumOf_append, ih, List.map_cons, List.sum_cons]

theorem sumOf_mulPower (v k : ℕ) (ts : List Term) :
    sumOf (ts.map fun t => ⟨t.coeff, t.monomial * .ofPower v k⟩) = sumOf ts * X v ^ k := by
  induction ts with
  | nil => simp
  | cons t ts ih =>
    rw [List.map_cons, sumOf_cons, ih, sumOf_cons, add_mul, Term.toMv, Term.toMv,
      X_pow_eq_monomial, monomial_mul, mul_one, Monomial.toFinsupp_mul, Monomial.toFinsupp_ofPower]

/-- The coefficient of a power of one variable, monomial by monomial. -/
theorem coeff_sumOf_without (v k : ℕ) (ts : List Term) (m : ℕ →₀ ℕ) :
    (sumOf ((ts.filter fun t => t.monomial.degreeOf v == k).map fun t =>
      ⟨t.coeff, t.monomial.without v⟩)).coeff m =
        if m v = 0 then (sumOf ts).coeff (m + Finsupp.single v k) else 0 := by
  induction ts with
  | nil => simp
  | cons t ts ih =>
    have hterm : (⟨t.coeff, t.monomial.without v⟩ : Term).toMv.coeff m =
        if t.monomial.toFinsupp.erase v = m then t.coeff else 0 := by
      rw [Term.toMv, coeff_monomial, Monomial.toFinsupp_without]
    have hmonomial : t.toMv.coeff (m + Finsupp.single v k) =
        if t.monomial.toFinsupp = m + Finsupp.single v k then t.coeff else 0 := by
      rw [Term.toMv, coeff_monomial]
    -- the exponents with `v` removed are those of `m` exactly for one power of `v`
    have hiff : m v = 0 → (t.monomial.toFinsupp = m + Finsupp.single v k ↔
        t.monomial.degreeOf v = k ∧ t.monomial.toFinsupp.erase v = m) := fun hm => by
      constructor
      · intro he
        refine ⟨?_, ?_⟩
        · rw [← Monomial.toFinsupp_apply, he, Finsupp.add_apply, hm, Finsupp.single_eq_same,
            zero_add]
        · rw [he, Finsupp.erase_add, Finsupp.erase_single, add_zero,
            Finsupp.erase_of_notMem_support (by simpa using hm)]
      · rintro ⟨rfl, he⟩
        rw [← he, add_comm, ← Monomial.toFinsupp_eq_single_add_erase]
    rw [List.filter_cons, sumOf_cons, coeff_add, hmonomial]
    by_cases hm : m v = 0
    · rw [if_pos hm] at ih ⊢
      by_cases hk : t.monomial.degreeOf v = k
      · rw [if_pos (by simpa using hk), List.map_cons, sumOf_cons, coeff_add, ih, hterm]
        simp only [hiff hm, hk, true_and]
      · rw [if_neg (by simpa using hk), ih]
        simp only [hiff hm, hk, false_and, if_false, zero_add]
    · rw [if_neg hm] at ih ⊢
      have hne : t.monomial.toFinsupp.erase v ≠ m := fun he => hm (by rw [← he]; simp)
      split_ifs
      · rw [List.map_cons, sumOf_cons, coeff_add, ih, hterm, if_neg hne, add_zero]
      · exact ih

/-- The terms of low degree in one variable, monomial by monomial. -/
theorem coeff_sumOf_filter_lt (v d : ℕ) (ts : List Term) (m : ℕ →₀ ℕ) :
    (sumOf (ts.filter fun t => t.monomial.degreeOf v < d)).coeff m =
      if m v < d then (sumOf ts).coeff m else 0 := by
  induction ts with
  | nil => simp
  | cons t ts ih =>
    rw [List.filter_cons, sumOf_cons, coeff_add]
    by_cases he : t.monomial.toFinsupp = m
    · have hv : t.monomial.degreeOf v = m v := by rw [← he, Monomial.toFinsupp_apply]
      rw [hv]
      by_cases hm : m v < d
      · rw [if_pos (by simpa using hm), sumOf_cons, coeff_add, ih, if_pos hm, if_pos hm]
      · rw [if_neg (by simpa using hm), ih, if_neg hm, if_neg hm]
    · have hterm : t.toMv.coeff m = 0 := by rw [Term.toMv, coeff_monomial, if_neg he]
      rw [hterm, zero_add]
      split_ifs at ih ⊢ <;> simp [ih, hterm]

/-! ## Values with exponents of 32 bits -/

section Values

variable {x : ℕ → Option ℚ}

/-- The values of the variables, zero for those that have none. -/
def valueOr (x : ℕ → Option ℚ) (v : ℕ) : ℚ := (x v).getD 0

theorem evalPowers?_eq {ps : List (ℕ × ℕ)} (hps : ∀ p ∈ ps, p.2 < Nat.pow 2 31) :
    Poly.evalPowers? x ps =
      if ∀ p ∈ ps, (x p.1).isSome then
        some (eval (valueOr x) (monomial (exponentsOf ps) 1)) else none := by
  induction ps with
  | nil => simp [Poly.evalPowers?]
  | cons p ps ih =>
    have hcons : eval (valueOr x) (monomial (exponentsOf (p :: ps)) 1) =
        valueOr x p.1 ^ p.2 * eval (valueOr x) (monomial (exponentsOf ps) 1) := by
      rw [exponentsOf_cons, ← mul_one (1 : ℚ), ← monomial_mul, map_mul, mul_one,
        ← X_pow_eq_monomial, map_pow, eval_X]
    rw [Poly.evalPowers?, ih fun q hq => hps q (.tail _ hq), hcons]
    simp only [List.forall_mem_cons]
    cases hx : x p.1 with
    | none => simp
    | some y =>
      have hy : valueOr x p.1 = y := by rw [valueOr, hx, Option.getD_some]
      rw [hy]
      by_cases hall : ∀ q ∈ ps, (x q.1).isSome
      · have hpow : signedPow y p.2 = y ^ p.2 := signedPow_of_lt y (hps p (.head _))
        rw [if_pos hall, if_pos ⟨rfl, hall⟩, ← hpow]
      · rw [if_neg hall, if_neg fun h => hall h.2]

theorem evalTerms?_eq {ts : List Term}
    (hts : ∀ t ∈ ts, ∀ p ∈ t.monomial.powers, p.2 < Nat.pow 2 31) :
    Poly.evalTerms? x ts =
      if ∀ t ∈ ts, ∀ p ∈ t.monomial.powers, (x p.1).isSome then
        some (eval (valueOr x) (sumOf ts)) else none := by
  induction ts with
  | nil => simp [Poly.evalTerms?]
  | cons t ts ih =>
    have hterm : eval (valueOr x) t.toMv =
        t.coeff * eval (valueOr x) (monomial (exponentsOf t.monomial.powers) 1) := by
      rw [Term.toMv, Monomial.toFinsupp, ← mul_one t.coeff, ← C_mul_monomial, map_mul, eval_C,
        mul_one]
    rw [Poly.evalTerms?, evalPowers?_eq (hts t (.head _)), ih fun s hs => hts s (.tail _ hs),
      sumOf_cons, map_add, hterm]
    simp only [List.forall_mem_cons]
    by_cases hhead : ∀ p ∈ t.monomial.powers, (x p.1).isSome
    · by_cases hall : ∀ s ∈ ts, ∀ p ∈ s.monomial.powers, (x p.1).isSome
      · rw [if_pos hhead, if_pos hall, if_pos ⟨hhead, hall⟩]
      · rw [if_pos hhead, if_neg hall, if_neg fun h : _ ∧ _ => hall h.2]
    · rw [if_neg hhead, if_neg fun h : _ ∧ _ => hhead h.1]

end Values

namespace Poly

variable {p q : Poly} {x : ℕ → Option ℚ} {a b : ℚ}

/-! ## Equality and products with power products -/

/-- In one order equal polynomials are equal lists of terms. -/
theorem sameTerms_iff (ho : p.order = q.order) : p.sameTerms q = true ↔ p.toMv = q.toMv := by
  refine ⟨toMv_eq_of_sameTerms, fun h => ?_⟩
  rw [eq_of_toMv_eq ho h, sameTerms, beq_self_eq_true]

/-- The product with a power product keeps the order of the terms. -/
theorem terms_mulMonomial (m : Monomial) (p : Poly) :
    (p.mulMonomial m).terms = p.terms.map fun t => ⟨t.coeff, m * t.monomial⟩ := by
  show mulTerm p.order ⟨1, m⟩ p.terms = _
  simp only [mulTerm, one_mul]
  exact collectTerms_of_termList (p.valid.mapMul m)

/-! ## Coefficients -/

theorem coeff_toMv_coeff (v k : ℕ) (p : Poly) (m : ℕ →₀ ℕ) :
    (p.coeff v k).toMv.coeff m =
      if m v = 0 then p.toMv.coeff (m + Finsupp.single v k) else 0 := by
  rw [toMv_coeff]
  exact coeff_sumOf_without v k p.terms m

theorem toMv_reductum (v : ℕ) (p : Poly) :
    (p.reductum v).toMv = ∑ m ∈ p.toMv.support with m v < p.toMv.degreeOf v,
      monomial m (p.toMv.coeff m) := by
  ext m
  have hcoeff : (p.reductum v).toMv.coeff m =
      if m v < p.degreeOf v then p.toMv.coeff m else 0 := coeff_sumOf_filter_lt v _ p.terms m
  simp only [hcoeff, degreeOf_eq, coeff_sum, coeff_monomial, Finset.sum_ite_eq', Finset.mem_filter,
    mem_support_iff]
  split_ifs with h₁ h₂ h₂
  · rfl
  · by_contra h0
    exact h₂ ⟨h0, h₁⟩
  · exact absurd h₂.2 h₁
  · rfl

theorem toMv_ofCoeffs (v : ℕ) (cs : List Poly) :
    (ofCoeffs v cs).toMv = ∑ k ∈ Finset.range cs.length, (cs.getD k 0).toMv * X v ^ k := by
  have hsum : ∀ (cs : List Poly) (n : ℕ), ((cs.zipIdx n).map fun c => c.1.toMv * X v ^ c.2).sum =
      ∑ k ∈ Finset.range cs.length, (cs.getD k 0).toMv * X v ^ (k + n) := fun cs => by
    induction cs with
    | nil => simp
    | cons c cs ih =>
      intro n
      rw [List.zipIdx_cons, List.map_cons, List.sum_cons, ih, List.length_cons,
        Finset.sum_range_succ', add_comm, List.getD_cons_zero, zero_add]
      refine congrArg (· + _) (Finset.sum_congr rfl fun k _ => ?_)
      rw [List.getD_cons_succ, add_right_comm, add_assoc]
  rw [ofCoeffs, toMv_ofTerms, sumOf_flatMap, List.map_reverse, List.sum_reverse]
  simp only [sumOf_mulPower]
  exact hsum cs 0

/-- The coefficients with respect to a variable make up the polynomial. -/
theorem toMv_ofCoeffs_coeffs (v : ℕ) (p : Poly) : (ofCoeffs v (p.coeffs v)).toMv = p.toMv := by
  rw [toMv_ofCoeffs, toMv_eq_sum_coeff v p, coeffs, List.length_map, List.length_range]
  refine Finset.sum_congr rfl fun k hk => ?_
  rw [List.getD_eq_getElem?_getD, List.getElem?_map, List.getElem?_range (Finset.mem_range.1 hk)]
  rfl

/-! ## Evaluation -/

/-- All exponents are below `2 ^ 31`, so that numbers are put in exactly. -/
def ShortPowers (p : Poly) : Prop := ∀ v, p.degreeOf v < Nat.pow 2 31

theorem ShortPowers.of_totalDegree (h : p.totalDegree < Nat.pow 2 31) : p.ShortPowers := fun v =>
  (degreeOf_le_totalDegree v p).trans_lt h

/-- The exponents of a polynomial are below its degrees. -/
theorem snd_le_degreeOf {t : Term} (ht : t ∈ p.terms) {s : ℕ × ℕ} (hs : s ∈ t.monomial.powers) :
    s.2 ≤ p.degreeOf s.1 := by
  refine le_trans ?_ (degreeOf_le_iff.1 le_rfl t ht)
  rw [← Monomial.toFinsupp_apply]
  exact snd_le_exponentsOf hs

theorem fst_mem_vars {t : Term} (ht : t ∈ p.terms) {s : ℕ × ℕ} (hs : s ∈ t.monomial.powers) :
    s.1 ∈ p.toMv.vars :=
  (MvPolynomial.mem_vars_iff_mem_support _).2 ⟨_, mem_support_toMv.2 ⟨t, ht, rfl⟩,
    (Monomial.mem_vars_iff_mem_support _ _).1 (List.mem_map.2 ⟨s, hs, rfl⟩)⟩

theorem eval?_eq (hp : p.ShortPowers) :
    p.eval? x =
      if ∀ v ∈ p.toMv.vars, (x v).isSome then some (eval (valueOr x) p.toMv) else none := by
  have hshort : ∀ t ∈ p.terms, ∀ s ∈ t.monomial.powers, s.2 < Nat.pow 2 31 := fun t ht s hs =>
    (snd_le_degreeOf ht hs).trans_lt (hp s.1)
  have hvars : (∀ t ∈ p.terms, ∀ s ∈ t.monomial.powers, (x s.1).isSome) ↔
      ∀ v ∈ p.toMv.vars, (x v).isSome := by
    constructor
    · intro h v hv
      obtain ⟨m, hm, hv⟩ := (MvPolynomial.mem_vars_iff_mem_support v).1 hv
      obtain ⟨t, ht, rfl⟩ := mem_support_toMv.1 hm
      obtain ⟨s, hs, rfl⟩ := List.mem_map.1 ((Monomial.mem_vars_iff_mem_support _ _).2 hv)
      exact h t ht s hs
    · intro h t ht s hs
      exact h s.1 (fst_mem_vars ht hs)
  rw [eval?, evalTerms?_eq hshort]
  simp only [hvars]
  rfl

theorem eval?_eq_some_iff (hp : p.ShortPowers) :
    p.eval? x = some a ↔ (∀ v ∈ p.toMv.vars, (x v).isSome) ∧ eval (valueOr x) p.toMv = a := by
  rw [eval?_eq hp]
  split_ifs with h
  · rw [Option.some_inj, and_iff_right h]
  · exact iff_of_false nofun fun ha => h ha.1

theorem ShortPowers.add (hp : p.ShortPowers) (hq : q.ShortPowers) :
    (p + q).ShortPowers := fun v => by
  have hadd : (p + q).degreeOf v ≤ max (p.degreeOf v) (q.degreeOf v) := by
    rw [degreeOf_eq, degreeOf_eq, degreeOf_eq, toMv_add]
    exact MvPolynomial.degreeOf_add_le v _ _
  exact hadd.trans_lt (max_lt (hp v) (hq v))

theorem eval?_add (hp : p.ShortPowers) (hq : q.ShortPowers) (ha : p.eval? x = some a)
    (hb : q.eval? x = some b) : (p + q).eval? x = some (a + b) := by
  obtain ⟨hpx, rfl⟩ := (eval?_eq_some_iff hp).1 ha
  obtain ⟨hqx, rfl⟩ := (eval?_eq_some_iff hq).1 hb
  refine (eval?_eq_some_iff (hp.add hq)).2 ⟨fun v hv => ?_, by rw [toMv_add, map_add]⟩
  rw [toMv_add] at hv
  exact (Finset.mem_union.1 (vars_add_subset _ _ hv)).elim (hpx v) (hqx v)

theorem eval?_mul (hp : p.ShortPowers) (hq : q.ShortPowers) (hpq : (p * q).ShortPowers)
    (ha : p.eval? x = some a) (hb : q.eval? x = some b) : (p * q).eval? x = some (a * b) := by
  obtain ⟨hpx, rfl⟩ := (eval?_eq_some_iff hp).1 ha
  obtain ⟨hqx, rfl⟩ := (eval?_eq_some_iff hq).1 hb
  refine (eval?_eq_some_iff hpq).2 ⟨fun v hv => ?_, by rw [toMv_mul, map_mul]⟩
  rw [toMv_mul] at hv
  exact (Finset.mem_union.1 (vars_mul _ _ hv)).elim (hpx v) (hqx v)

theorem valueOr_update (x : ℕ → Option ℚ) (v : ℕ) (b : ℚ) :
    valueOr (Function.update x v (some b)) = Function.update (valueOr x) v b := by
  funext w
  by_cases hw : w = v
  · rw [hw, valueOr, Function.update_self, Function.update_self, Option.getD_some]
  · rw [valueOr, Function.update_of_ne hw, Function.update_of_ne hw, valueOr]

/-- Substitution composes with evaluation. -/
theorem eval?_substitute {v : ℕ} (hp : p.ShortPowers) (hq : q.ShortPowers)
    (hpq : (p.substitute v q).ShortPowers) (hb : q.eval? x = some b)
    (ha : p.eval? (Function.update x v (some b)) = some a) :
    (p.substitute v q).eval? x = some a := by
  obtain ⟨hpx, rfl⟩ := (eval?_eq_some_iff hp).1 ha
  obtain ⟨hqx, rfl⟩ := (eval?_eq_some_iff hq).1 hb
  refine (eval?_eq_some_iff hpq).2 ⟨fun w hw => ?_, ?_⟩
  · rcases Finset.mem_union.1 (vars_substitute_subset v p q hw) with hw | hw
    · have hne := Finset.ne_of_mem_erase hw
      have hsome := hpx w (Finset.mem_of_mem_erase hw)
      rwa [Function.update_of_ne hne] at hsome
    · exact hqx w hw
  · rw [valueOr_update]
    exact value_substitute v p q (valueOr x)

/-- Putting a number in composes with evaluation. -/
theorem eval?_evalAt {v : ℕ} {r : ℚ} (hp : p.ShortPowers)
    (ha : p.eval? (Function.update x v (some r)) = some a) : (p.evalAt v r).eval? x = some a := by
  obtain ⟨hpx, rfl⟩ := (eval?_eq_some_iff hp).1 ha
  have hshort : (p.evalAt v r).ShortPowers := fun w => (degreeOf_evalAt_le v w r p).trans_lt (hp w)
  refine (eval?_eq_some_iff hshort).2 ⟨fun w hw => ?_, ?_⟩
  · have hw := vars_evalAt_subset v r p hw
    have hsome := hpx w (Finset.mem_of_mem_erase hw)
    rwa [Function.update_of_ne (Finset.ne_of_mem_erase hw)] at hsome
  · rw [valueOr_update]
    exact value_evalAt (hp v) r (valueOr x)

/-! ## The operations -/

/-- The terms stand in the order of the polynomial, their coefficients are not zero, and they add up
to `P`. -/
structure Denotes (p : Poly) (P : MvPolynomial ℕ ℚ) : Prop where
  descending : p.terms.Pairwise fun s t => p.order.compare t.monomial s.monomial = .lt
  nonzero : ∀ t ∈ p.terms, t.coeff ≠ 0
  toMv_eq : p.toMv = P

theorem denotes_iff {P : MvPolynomial ℕ ℚ} : p.Denotes P ↔ p.toMv = P :=
  ⟨Denotes.toMv_eq, fun h => ⟨p.valid.descending, p.valid.nonzero, h⟩⟩

/-- Every operation returns the terms of what it means for polynomials over the rational numbers, and
polynomials in one order are equal as lists exactly if they are equal. -/
theorem operations_denote (p q : Poly) :
    (p + q).Denotes (p.toMv + q.toMv) ∧ (p - q).Denotes (p.toMv - q.toMv) ∧
    (p * q).Denotes (p.toMv * q.toMv) ∧ (-p).Denotes (-p.toMv) ∧
    (∀ c, (p.scale c).Denotes (C c * p.toMv)) ∧
    (∀ k, (p.pow k).Denotes (p.toMv ^ k)) ∧
    (∀ m, (p.mulMonomial m).Denotes (monomial m.toFinsupp 1 * p.toMv) ∧
      (p.mulMonomial m).terms = p.terms.map fun t => ⟨t.coeff, m * t.monomial⟩) ∧
    (∀ o, (p.withOrder o).order = o ∧ (p.withOrder o).Denotes p.toMv) ∧
    (∀ f, (p.rename f).Denotes (MvPolynomial.rename f p.toMv)) ∧
    (∀ v, (p.derivative v).Denotes (pderiv v p.toMv) ∧
      ((p * q).derivative v).Denotes (p.derivative v * q + p * q.derivative v).toMv) ∧
    (∀ v, (p.reductum v).Denotes (∑ m ∈ p.toMv.support with m v < p.toMv.degreeOf v,
      monomial m (p.toMv.coeff m))) ∧
    (∀ v k m, (p.coeff v k).toMv.coeff m =
      if m v = 0 then p.toMv.coeff (m + Finsupp.single v k) else 0) ∧
    (∀ v cs, (ofCoeffs v cs).Denotes
      (∑ k ∈ Finset.range cs.length, (cs.getD k 0).toMv * X v ^ k)) ∧
    (∀ v, (ofCoeffs v (p.coeffs v)).Denotes p.toMv) ∧
    (∀ v, (p.substitute v q).Denotes (aeval (Function.update X v q.toMv) p.toMv)) ∧
    (∀ v r, p.degreeOf v < Nat.pow 2 31 →
      (p.evalAt v r).Denotes (aeval (Function.update X v (C r)) p.toMv)) ∧
    (p.ShortPowers → ∀ x, p.eval? x =
      if ∀ v ∈ p.toMv.vars, (x v).isSome then some (eval (valueOr x) p.toMv) else none) ∧
    (p.ShortPowers → q.ShortPowers → ∀ x a b, p.eval? x = some a → q.eval? x = some b →
      (p + q).eval? x = some (a + b) ∧
      ((p * q).ShortPowers → (p * q).eval? x = some (a * b))) ∧
    (p.ShortPowers → q.ShortPowers → ∀ v, (p.substitute v q).ShortPowers → ∀ x a b,
      q.eval? x = some b → p.eval? (Function.update x v (some b)) = some a →
      (p.substitute v q).eval? x = some a) ∧
    (p.ShortPowers → ∀ v r x a, p.eval? (Function.update x v (some r)) = some a →
      (p.evalAt v r).eval? x = some a) ∧
    (p.order = q.order → (p.sameTerms q = true ↔ p.toMv = q.toMv)) := by
  refine ⟨denotes_iff.2 (toMv_add p q), denotes_iff.2 (toMv_sub p q), denotes_iff.2 (toMv_mul p q),
    denotes_iff.2 (toMv_neg p), fun c => denotes_iff.2 (toMv_scale c p),
    fun k => denotes_iff.2 (toMv_pow p k),
    fun m => ⟨denotes_iff.2 (toMv_mulMonomial m p), terms_mulMonomial m p⟩,
    fun o => ⟨order_withOrder o p, denotes_iff.2 (toMv_withOrder o p)⟩,
    fun f => denotes_iff.2 (toMv_rename f p),
    fun v => ⟨denotes_iff.2 (toMv_derivative v p), ?leibniz⟩,
    fun v => denotes_iff.2 (toMv_reductum v p), fun v k m => coeff_toMv_coeff v k p m,
    fun v cs => denotes_iff.2 (toMv_ofCoeffs v cs),
    fun v => denotes_iff.2 (toMv_ofCoeffs_coeffs v p),
    fun v => denotes_iff.2 (toMv_substitute v p q),
    fun v r h => denotes_iff.2 (toMv_evalAt h r), fun h x => eval?_eq h,
    fun hp hq x a b ha hb => ⟨eval?_add hp hq ha hb, fun hpq => eval?_mul hp hq hpq ha hb⟩,
    fun hp hq v hpq x a b hb ha => eval?_substitute hp hq hpq hb ha,
    fun hp v r x a => eval?_evalAt hp, sameTerms_iff⟩
  case leibniz =>
    refine denotes_iff.2 ?_
    rw [toMv_derivative, toMv_mul, Derivation.leibniz, toMv_add, toMv_mul, toMv_mul,
      toMv_derivative, toMv_derivative, smul_eq_mul, smul_eq_mul, mul_comm q.toMv, add_comm]

theorem operations_denote_difference :
    (.ofPower 0 2 - .const 2 : Poly).ShortPowers ∧ (.ofPower 1 1 + .const 1 : Poly).ShortPowers ∧
      ((.ofPower 0 2 - .const 2 : Poly).evalAt 0 3).Denotes
        (aeval (Function.update X 0 (C 3)) (.ofPower 0 2 - .const 2 : Poly).toMv) ∧
      ((.ofPower 0 2 - .const 2) * (.ofPower 1 1 + .const 1) : Poly).eval? (fun _ => some 3) =
        some (7 * 4) ∧
      ((.ofPower 0 2 - .const 2 : Poly).substitute 0 (.ofPower 1 1 + .const 1)).eval?
        (fun _ => some 3) = some 14 := by
  have hp : (.ofPower 0 2 - .const 2 : Poly).ShortPowers := .of_totalDegree (by decide +kernel)
  have hq : (.ofPower 1 1 + .const 1 : Poly).ShortPowers := .of_totalDegree (by decide +kernel)
  obtain ⟨-, -, -, -, -, -, -, -, -, -, -, -, -, -, -, hevalAt, -, heval, hsubstitute, -⟩ :=
    operations_denote (.ofPower 0 2 - .const 2) (.ofPower 1 1 + .const 1)
  exact ⟨hp, hq, hevalAt 0 3 (hp 0),
    (heval hp hq _ 7 4 (by decide +kernel) (by decide +kernel)).2
      (.of_totalDegree (by decide +kernel)),
    hsubstitute hp hq 0 (.of_totalDegree (by decide +kernel)) _ 14 4 (by decide +kernel)
      (by decide +kernel)⟩

/-- From `2 ^ 31` on an exponent is read as a negative one. -/
theorem not_evalAt_denotes_two :
    ¬((.ofPower 0 4294967295 : Poly).evalAt 0 2).Denotes
      (aeval (Function.update X 0 (C 2)) (.ofPower 0 4294967295 : Poly).toMv) := by
  intro h
  have hcomputed : (.ofPower 0 4294967295 : Poly).evalAt 0 2 = .const (1 / 2) := by decide +kernel
  have hvalue := congrArg (eval 0) h.toMv_eq
  rw [hcomputed, toMv_const, eval_C, toMv_ofPower, map_pow, aeval_X, Function.update_self, map_pow,
    eval_C] at hvalue
  have hone : (1 : ℚ) ≤ 2 ^ 4294967295 := one_le_pow₀ (by norm_num)
  rw [← hvalue] at hone
  norm_num at hone

end Poly

end Cylindrical

end
