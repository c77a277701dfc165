import Mathlib
import Cylindrical.Sample.Tower
import Cylindrical.Proofs.Poly.Gcd
import Cylindrical.Proofs.Poly.Monic
import Cylindrical.Proofs.Sample.Substitution

/-!
# Remainders modulo a tower

Where the levels of a tower vanish, remainders modulo them keep the value of a polynomial, and
quotient and remainder by another polynomial give it back.  The degrees of a remainder are below those of
the levels, and what is monic in a higher variable stays so.
-/

noncomputable section

namespace Cylindrical

open MvPolynomial (aeval X C)

/-- The defining polynomial of a level is monic in its variable, and has no higher ones. -/
structure TowerLevel.Monic (l : TowerLevel) : Prop where
  monicIn : l.defining.MonicIn l.var (l.defining.degreeOf l.var)
  vars_le : ∀ w ∈ l.defining.toMv.vars, w ≤ l.var

namespace Tower

variable {A : Type*} [CommRing A] [RationalAlgebra A] {x : ℕ → A}

/-! ## Remainders by one level -/

theorem value_remSteps {v : ℕ} {d : Poly} (hd : d.value x = 0) (steps : ℕ) (r : Poly) :
    (remSteps v d steps r).value x = r.value x := by
  induction steps generalizing r with
  | zero => rfl
  | succ steps ih =>
    rw [remSteps]
    split_ifs
    · rw [ih, Poly.value_sub, Poly.value_mul, hd, mul_zero, sub_zero]
    · rfl

theorem value_remainder {l : TowerLevel} (h : l.defining.value x = 0) (p : Poly) :
    (remainder l p).value x = p.value x := by
  rw [remainder]
  split_ifs
  · rfl
  · exact value_remSteps h _ p

/-- What subtracts a leading term: the polynomial without its leading power of `v`. -/
theorem degreeOf_sub_lead_lt {v : ℕ} {d r : Poly} (hd : d.MonicIn v (d.degreeOf v))
    (hle : d.degreeOf v ≤ r.degreeOf v) :
    (r - r.leadingCoeffOf v * .ofPower v (r.degreeOf v - d.degreeOf v) * d).degreeOf v <
      r.degreeOf v := by
  have h := Poly.degreeOf_cancel_lt hd.pos hle
  rw [hd.leadingCoeffOf_eq, mul_one] at h
  rw [Poly.degreeOf_eq, Poly.toMv_sub, Poly.toMv_mul, Poly.toMv_mul, Poly.toMv_ofPower,
    mul_right_comm]
  exact h

/-- What is subtracted has the degree of the coefficient in a variable that the divisor lacks. -/
theorem degreeOf_lead_le {v w k : ℕ} {d r : Poly} (hw : w ∉ d.toMv.vars) (hvw : w ≠ v) :
    (r.leadingCoeffOf v * .ofPower v k * d).degreeOf w ≤ (r.leadingCoeffOf v).degreeOf w := by
  rw [Poly.degreeOf_eq, Poly.toMv_mul, Poly.toMv_mul, Poly.toMv_ofPower]
  refine (MvPolynomial.degreeOf_mul_le _ _ _).trans ?_
  rw [Poly.degreeOf_of_notMem_vars hw, add_zero]
  refine (MvPolynomial.degreeOf_mul_le _ _ _).trans ?_
  rw [MvPolynomial.degreeOf_X_pow_of_ne k hvw, add_zero, Poly.degreeOf_eq]

theorem degreeOf_sub_lead_le {v w k : ℕ} {d r : Poly} (hw : w ∉ d.toMv.vars) (hvw : w ≠ v) :
    (r - r.leadingCoeffOf v * .ofPower v k * d).degreeOf w ≤ r.degreeOf w := by
  rw [Poly.degreeOf_eq, Poly.toMv_sub]
  refine (MvPolynomial.degreeOf_sub_le _ _ _).trans (max_le (Poly.degreeOf_eq w r).ge ?_)
  rw [← Poly.degreeOf_eq]
  exact (degreeOf_lead_le hw hvw).trans (Poly.degreeOf_coeff_le _ _ _ r)

/-- The steps of a division stop below the degree of the divisor. -/
theorem degreeOf_lt_of_stops {v : ℕ} {d r : Poly} (hd : 0 < d.degreeOf v)
    (h : ¬(!r.isZero && d.degreeOf v ≤ r.degreeOf v) = true) : r.degreeOf v < d.degreeOf v := by
  simp only [Bool.and_eq_true, Bool.not_eq_true', decide_eq_true_eq, not_and, not_le] at h
  cases hz : r.isZero with
  | true => rwa [Poly.degreeOf_eq, Poly.toMv_eq_zero_of_isZero hz, MvPolynomial.degreeOf_zero]
  | false => exact h hz

theorem degreeOf_remSteps_lt {v : ℕ} {d : Poly} (hd : d.MonicIn v (d.degreeOf v)) {steps : ℕ}
    {r : Poly} (hr : r.degreeOf v < d.degreeOf v + steps) :
    (remSteps v d steps r).degreeOf v < d.degreeOf v := by
  induction steps generalizing r with
  | zero => exact hr
  | succ steps ih =>
    rw [remSteps]
    split_ifs with h
    · simp only [Bool.and_eq_true, decide_eq_true_eq] at h
      refine ih ?_
      have := degreeOf_sub_lead_lt hd h.2
      omega
    · exact degreeOf_lt_of_stops hd.pos h

theorem degreeOf_remSteps_le {v w : ℕ} {d : Poly} (hw : w ∉ d.toMv.vars) (hvw : w ≠ v) (steps : ℕ)
    (r : Poly) : (remSteps v d steps r).degreeOf w ≤ r.degreeOf w := by
  induction steps generalizing r with
  | zero => exact le_rfl
  | succ steps ih =>
    rw [remSteps]
    split_ifs
    · exact (ih _).trans (degreeOf_sub_lead_le hw hvw)
    · exact le_rfl

theorem vars_sub_lead_subset {v k : ℕ} {d r : Poly} {s : Finset ℕ} (hd : d.toMv.vars ⊆ s)
    (hv : v ∈ s) (hr : r.toMv.vars ⊆ s) :
    (r - r.leadingCoeffOf v * .ofPower v k * d).toMv.vars ⊆ s := by
  classical
  have hc := (Poly.vars_coeff_subset v (r.degreeOf v) r).trans hr
  have hX : (X v ^ k : MvPolynomial ℕ ℚ).vars ⊆ s :=
    (MvPolynomial.vars_pow _ _).trans (by simpa using hv)
  rw [Poly.toMv_sub, Poly.toMv_mul, Poly.toMv_mul, Poly.toMv_ofPower]
  exact (MvPolynomial.vars_sub_subset (p := _) (q := _)).trans (Finset.union_subset hr
    ((MvPolynomial.vars_mul _ _).trans (Finset.union_subset
      ((MvPolynomial.vars_mul _ _).trans (Finset.union_subset hc hX)) hd)))

theorem vars_remSteps_subset {v : ℕ} {d : Poly} {s : Finset ℕ} (hd : d.toMv.vars ⊆ s) (hv : v ∈ s)
    {steps : ℕ} {r : Poly} (hr : r.toMv.vars ⊆ s) : (remSteps v d steps r).toMv.vars ⊆ s := by
  induction steps generalizing r with
  | zero => exact hr
  | succ steps ih =>
    rw [remSteps]
    split_ifs
    · exact ih (vars_sub_lead_subset hd hv hr)
    · exact hr

theorem monicIn_remSteps {v w n : ℕ} {d : Poly} (hd : 0 < d.degreeOf v) (hw : w ∉ d.toMv.vars)
    (hvw : w ≠ v) {steps : ℕ} {r : Poly} (hr : r.MonicIn w n) :
    (remSteps v d steps r).MonicIn w n := by
  induction steps generalizing r with
  | zero => exact hr
  | succ steps ih =>
    rw [remSteps]
    split_ifs with h
    · simp only [Bool.and_eq_true, decide_eq_true_eq] at h
      refine ih (hr.of_degreeOf_sub_lt ?_)
      rw [Poly.toMv_sub, sub_sub_cancel_left, MvPolynomial.degreeOf_neg, ← Poly.degreeOf_eq]
      exact (degreeOf_lead_le hw hvw).trans_lt (hr.degreeOf_coeff_lt hvw.symm (by omega))
    · exact hr

/-! ## Remainders by several levels -/

/-- The levels have increasing variables and are monic in them. -/
structure Ordered (ls : List TowerLevel) : Prop where
  increasing : ls.Pairwise fun k l => k.var < l.var
  monic : ∀ l ∈ ls, l.Monic

theorem Ordered.tail {l : TowerLevel} {ls : List TowerLevel} (h : Ordered (l :: ls)) :
    Ordered ls :=
  ⟨h.increasing.tail, fun k hk => h.monic k (.tail _ hk)⟩

theorem Ordered.take {ls : List TowerLevel} (h : Ordered ls) (n : ℕ) : Ordered (ls.take n) :=
  ⟨h.increasing.take, fun l hl => h.monic l (List.mem_of_mem_take hl)⟩

/-- The variables of the levels. -/
def varsOf (ls : List TowerLevel) : Finset ℕ := (ls.map (·.var)).toFinset

theorem mem_varsOf {ls : List TowerLevel} {w : ℕ} : w ∈ varsOf ls ↔ ∃ l ∈ ls, l.var = w := by
  simp [varsOf]

/-- Every variable of a level is that of a level. -/
def Closed (ls : List TowerLevel) : Prop := ∀ l ∈ ls, l.defining.toMv.vars ⊆ varsOf ls

theorem value_foldr_remainder {ls : List TowerLevel} (h : ∀ l ∈ ls, l.defining.value x = 0)
    (p : Poly) : (ls.foldr remainder p).value x = p.value x := by
  induction ls with
  | nil => rfl
  | cons l ls ih =>
    rw [List.foldr_cons, value_remainder (h l (.head _)), ih fun k hk => h k (.tail _ hk)]

theorem degreeOf_remainder_lt {l : TowerLevel} (h : l.Monic) (p : Poly) :
    (remainder l p).degreeOf l.var < l.defining.degreeOf l.var := by
  rw [remainder, if_neg h.monicIn.pos.ne']
  exact degreeOf_remSteps_lt h.monicIn (by omega)

theorem degreeOf_remainder_le {l : TowerLevel} (h : l.Monic) {w : ℕ} (hw : l.var < w) (p : Poly) :
    (remainder l p).degreeOf w ≤ p.degreeOf w := by
  rw [remainder, if_neg h.monicIn.pos.ne']
  exact degreeOf_remSteps_le (fun hmem => (h.vars_le w hmem).not_gt hw) hw.ne' _ p

theorem monicIn_remainder {l : TowerLevel} (h : l.Monic) {w n : ℕ} (hw : l.var < w) {p : Poly}
    (hp : p.MonicIn w n) : (remainder l p).MonicIn w n := by
  rw [remainder, if_neg h.monicIn.pos.ne']
  exact monicIn_remSteps h.monicIn.pos (fun hmem => (h.vars_le w hmem).not_gt hw) hw.ne' hp

theorem var_mem_vars {l : TowerLevel} (h : l.Monic) : l.var ∈ l.defining.toMv.vars := by
  by_contra hv
  exact h.monicIn.pos.ne' (Poly.degreeOf_eq_zero_iff.2 hv)

theorem vars_remainder_subset {l : TowerLevel} (h : l.Monic) {s : Finset ℕ}
    (hl : l.defining.toMv.vars ⊆ s) {p : Poly} (hp : p.toMv.vars ⊆ s) :
    (remainder l p).toMv.vars ⊆ s := by
  rw [remainder, if_neg h.monicIn.pos.ne']
  exact vars_remSteps_subset hl (hl (var_mem_vars h)) hp

theorem degreeOf_foldr_remainder_lt {ls : List TowerLevel} (h : Ordered ls) (p : Poly) :
    ∀ l ∈ ls, (ls.foldr remainder p).degreeOf l.var < l.defining.degreeOf l.var := by
  induction ls with
  | nil => simp
  | cons k ls ih =>
    intro l hl
    rw [List.foldr_cons]
    have hk := h.monic k (.head _)
    rcases List.mem_cons.1 hl with rfl | hl
    · exact degreeOf_remainder_lt hk _
    · have hlt := (List.pairwise_cons.1 h.increasing).1 l hl
      exact (degreeOf_remainder_le hk hlt _).trans_lt (ih h.tail l hl)

theorem degreeOf_foldr_remainder_le {ls : List TowerLevel} (h : Ordered ls) {w : ℕ}
    (hw : ∀ l ∈ ls, l.var < w) (p : Poly) :
    (ls.foldr remainder p).degreeOf w ≤ p.degreeOf w := by
  induction ls with
  | nil => exact le_rfl
  | cons k ls ih =>
    exact (degreeOf_remainder_le (h.monic k (.head _)) (hw k (.head _)) _).trans
      (ih h.tail fun l hl => hw l (.tail _ hl))

theorem monicIn_foldr_remainder {ls : List TowerLevel} (h : Ordered ls) {w n : ℕ}
    (hw : ∀ l ∈ ls, l.var < w) {p : Poly} (hp : p.MonicIn w n) :
    (ls.foldr remainder p).MonicIn w n := by
  induction ls with
  | nil => exact hp
  | cons k ls ih =>
    exact monicIn_remainder (h.monic k (.head _)) (hw k (.head _))
      (ih h.tail fun l hl => hw l (.tail _ hl))

theorem vars_foldr_remainder_subset {ls : List TowerLevel} (h : Ordered ls) {s : Finset ℕ}
    (hs : ∀ l ∈ ls, l.defining.toMv.vars ⊆ s) {p : Poly} (hp : p.toMv.vars ⊆ s) :
    (ls.foldr remainder p).toMv.vars ⊆ s := by
  induction ls with
  | nil => exact hp
  | cons k ls ih =>
    exact vars_remainder_subset (h.monic k (.head _)) (hs k (.head _))
      (ih h.tail fun l hl => hs l (.tail _ hl))

/-! ## Division -/

section Division

variable {t : Tower} {v limit : ℕ} {d : Poly}

theorem value_divRemSteps (ht : ∀ l ∈ t.levels.take limit, l.defining.value x = 0) (steps : ℕ)
    (q r : Poly) :
    (t.divRemSteps v limit d steps q r).1.value x * d.value x +
      (t.divRemSteps v limit d steps q r).2.value x = q.value x * d.value x + r.value x := by
  induction steps generalizing q r with
  | zero => rfl
  | succ steps ih =>
    rw [divRemSteps]
    split_ifs
    · simp only
      rw [ih, reduceBelow, value_foldr_remainder ht]
      simp only [Poly.value_add, Poly.value_sub, Poly.value_mul]
      ring
    · rfl

theorem divRemSteps_succ {r : Poly} (hz : r.isZero = false) (hr : d.degreeOf v ≤ r.degreeOf v)
    (steps : ℕ) (q : Poly) :
    t.divRemSteps v limit d (steps + 1) q r = t.divRemSteps v limit d steps
      (q + r.leadingCoeffOf v * .ofPower v (r.degreeOf v - d.degreeOf v))
      (t.reduceBelow limit
        (r - r.leadingCoeffOf v * .ofPower v (r.degreeOf v - d.degreeOf v) * d)) := by
  rw [divRemSteps, if_pos]
  rw [hz, Bool.not_false, Bool.true_and, decide_eq_true_eq]
  exact hr

/-- Quotient and remainder give the polynomial back, where the levels vanish. -/
theorem value_divRem (ht : ∀ l ∈ t.levels.take limit, l.defining.value x = 0) (p : Poly) :
    p.value x =
      (t.divRem v limit p d).1.value x * d.value x + (t.divRem v limit p d).2.value x := by
  simp only [divRem]
  rw [reduceBelow, value_foldr_remainder ht, value_divRemSteps ht, reduceBelow,
    value_foldr_remainder ht, Poly.value_zero, zero_mul, zero_add]

theorem vars_divRemSteps_subset (ht : Ordered t.levels) {s : Finset ℕ}
    (hs : ∀ l ∈ t.levels.take limit, l.defining.toMv.vars ⊆ s) (hd : d.toMv.vars ⊆ s) (hv : v ∈ s)
    {steps : ℕ} {q r : Poly} (hq : q.toMv.vars ⊆ s) (hr : r.toMv.vars ⊆ s) :
    (t.divRemSteps v limit d steps q r).1.toMv.vars ⊆ s := by
  classical
  induction steps generalizing q r with
  | zero => exact hq
  | succ steps ih =>
    rw [divRemSteps]
    split_ifs
    · refine ih ?_ (vars_foldr_remainder_subset (ht.take limit) hs (vars_sub_lead_subset hd hv hr))
      have hX : (X v ^ (r.degreeOf v - d.degreeOf v) : MvPolynomial ℕ ℚ).vars ⊆ s :=
        (MvPolynomial.vars_pow _ _).trans (by simpa using hv)
      rw [Poly.toMv_add, Poly.toMv_mul, Poly.toMv_ofPower]
      exact (MvPolynomial.vars_add_subset _ _).trans (Finset.union_subset hq
        ((MvPolynomial.vars_mul _ _).trans (Finset.union_subset
          ((Poly.vars_coeff_subset _ _ _).trans hr) hX)))
    · exact hq

theorem vars_divRem_subset (ht : Ordered t.levels) {s : Finset ℕ}
    (hs : ∀ l ∈ t.levels.take limit, l.defining.toMv.vars ⊆ s) (hd : d.toMv.vars ⊆ s) (hv : v ∈ s)
    {p : Poly} (hp : p.toMv.vars ⊆ s) : (t.divRem v limit p d).1.toMv.vars ⊆ s :=
  vars_foldr_remainder_subset (ht.take limit) hs (vars_divRemSteps_subset ht hs hd hv (by simp)
    (vars_foldr_remainder_subset (ht.take limit) hs hp))

theorem degreeOf_divRem_lt (ht : Ordered t.levels) (p : Poly) {l : TowerLevel}
    (hl : l ∈ t.levels.take limit) :
    (t.divRem v limit p d).1.degreeOf l.var < l.defining.degreeOf l.var :=
  degreeOf_foldr_remainder_lt (ht.take limit) _ l hl

/-- What is added to a quotient has the degree in which the remainder exceeds the divisor. -/
theorem degreeOf_divRemSteps_sub_lt (ht : Ordered t.levels) (hlt : ∀ l ∈ t.levels.take limit, l.var < v)
    {k : ℕ} (hk : 0 < k) {steps : ℕ} {q r : Poly} (hr : r.degreeOf v < d.degreeOf v + k) :
    MvPolynomial.degreeOf v ((t.divRemSteps v limit d steps q r).1.toMv - q.toMv) < k := by
  induction steps generalizing q r with
  | zero =>
    rw [divRemSteps, sub_self, MvPolynomial.degreeOf_zero]
    exact hk
  | succ steps ih =>
    rw [divRemSteps]
    split_ifs with h
    · simp only [Bool.and_eq_true, decide_eq_true_eq] at h
      have hs : MvPolynomial.degreeOf v
          (r.leadingCoeffOf v * .ofPower v (r.degreeOf v - d.degreeOf v) : Poly).toMv < k := by
        rw [Poly.toMv_mul, Poly.toMv_ofPower]
        refine (MvPolynomial.degreeOf_mul_le _ _ _).trans_lt ?_
        rw [Poly.degreeOf_of_notMem_vars (Poly.notMem_vars_leadingCoeffOf v r),
          MvPolynomial.degreeOf_X_self_pow]
        omega
      have hle : (r - r.leadingCoeffOf v * .ofPower v (r.degreeOf v - d.degreeOf v) * d).degreeOf v
          ≤ r.degreeOf v := by
        rw [Poly.degreeOf_eq, Poly.toMv_sub]
        refine (MvPolynomial.degreeOf_sub_le _ _ _).trans (max_le (Poly.degreeOf_eq v r).ge ?_)
        rw [Poly.toMv_mul, Poly.toMv_mul, Poly.toMv_ofPower]
        refine (MvPolynomial.degreeOf_mul_le _ _ _).trans ?_
        refine (Nat.add_le_add_right (MvPolynomial.degreeOf_mul_le _ _ _) _).trans ?_
        rw [Poly.degreeOf_of_notMem_vars (Poly.notMem_vars_leadingCoeffOf v r),
          MvPolynomial.degreeOf_X_self_pow, ← Poly.degreeOf_eq]
        omega
      have hnext := ih (q := q + r.leadingCoeffOf v * .ofPower v (r.degreeOf v - d.degreeOf v))
        ((degreeOf_foldr_remainder_le (ht.take limit) hlt _).trans_lt (hle.trans_lt hr))
      simp only
      rw [Poly.toMv_add] at hnext
      refine lt_of_eq_of_lt ?_ ((MvPolynomial.degreeOf_add_le v _ _).trans_lt (max_lt hnext hs))
      congr 1
      rw [reduceBelow]
      ring
    · rw [sub_self, MvPolynomial.degreeOf_zero]
      exact hk

/-- The quotient of two monic polynomials is monic. -/
theorem monicIn_divRem (ht : Ordered t.levels) (hlt : ∀ l ∈ t.levels.take limit, l.var < v)
    {m n : ℕ} {p : Poly} (hp : p.MonicIn v n) (hd : d.MonicIn v m) (hmn : m < n) :
    (t.divRem v limit p d).1.MonicIn v (n - m) := by
  have hred : (t.reduceBelow limit p).MonicIn v n :=
    monicIn_foldr_remainder (ht.take limit) hlt hp
  have hdeg := hred.degreeOf_eq
  have hddeg := hd.degreeOf_eq
  have hpos := hd.pos
  simp only [divRem]
  generalize stepLimit = steps
  refine monicIn_foldr_remainder (ht.take limit) hlt ?_
  generalize t.reduceBelow limit p = r at hred hdeg ⊢
  have hz : r.isZero = false := by
    rw [Poly.isZero_eq_false_iff]
    intro h0
    rw [Poly.degreeOf_eq, h0, MvPolynomial.degreeOf_zero] at hdeg
    omega
  have hd' : d.MonicIn v (d.degreeOf v) := hddeg.symm ▸ hd
  -- the first step brings in the leading power, the later ones add lower ones
  rw [if_neg (by omega), ← add_assoc, divRemSteps_succ hz (by omega)]
  have hfirst : (0 + r.leadingCoeffOf v * .ofPower v (r.degreeOf v - d.degreeOf v)).toMv =
      (Poly.ofPower v (n - m)).toMv := by
    rw [Poly.toMv_add, Poly.toMv_mul, hred.leadingCoeffOf_eq, hdeg, hddeg, Poly.toMv_zero, zero_add,
      one_mul]
  refine ((Poly.MonicIn.ofPower (v := v) (by omega : 0 < n - m)).congr hfirst).of_degreeOf_sub_lt ?_
  refine degreeOf_divRemSteps_sub_lt ht hlt (by omega) ?_
  refine (degreeOf_foldr_remainder_le (ht.take limit) hlt _).trans_lt ?_
  refine (degreeOf_sub_lead_lt hd' (by omega)).trans_le ?_
  omega

end Division

end Tower

end Cylindrical

end
