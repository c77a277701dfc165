import Mathlib
import Cylindrical.Proofs.Residue.Degree

/-!
# Points that separate normal forms

A normal form is determined by its coefficients in its highest variable, so a point that separates the
normal forms in the variables below `v` yields one for those in the variables up to `v`: over the
polynomials in `v`, or modulo a monic polynomial for the normal forms of smaller degree.  It
follows that normal forms are equal when they denote the same polynomial (`eq_of_toMv_eq`).
-/

noncomputable section

open Polynomial

namespace Cylindrical

namespace ResiduePoly

variable {p v : ℕ} {S : Set ℕ}

/-! ## Coefficients -/

/-- The coefficient of `v ^ i`, for a variable `v` that no variable exceeds. -/
def coeffIn (v i : ℕ) (a : ResiduePoly) : ResiduePoly := (a.coeffsIn v)[i]?.getD 0

theorem coeffIn_of_forall_mem {Q : ResiduePoly → Prop} (hQ : Q 0) {a : ResiduePoly}
    (h : ∀ c ∈ a.coeffsIn v, Q c) (i : ℕ) : Q (a.coeffIn v i) := by
  rw [coeffIn]
  cases hi : (a.coeffsIn v)[i]? with
  | none => exact hQ
  | some c => exact h c (List.mem_of_getElem? hi)

theorem normal_coeffIn (hp : 0 < p) {a : ResiduePoly} (ha : Normal p S (v + 1) a) (i : ℕ) :
    Normal p S v (a.coeffIn v i) :=
  coeffIn_of_forall_mem (normal_zero hp) (normalList_iff.1 (normalList_coeffsIn ha)) i

theorem coeffIn_eq_zero {a : ResiduePoly} {i : ℕ} (h : a.degreeIn v < i) : a.coeffIn v i = 0 := by
  have hlen : (a.coeffsIn v).length ≤ i := by
    cases a with
    | const a => exact h
    | node w cs =>
      rw [degreeIn] at h
      rw [coeffsIn]
      split_ifs at h ⊢
      · omega
      · exact h
  rw [coeffIn, List.getElem?_eq_none hlen, Option.getD_none]

theorem coeffIn_degreeIn {n : ℕ} {a : ResiduePoly} (ha : Normal p S n a) (h : a.mainVar? = some v) :
    a.coeffIn v (a.degreeIn v) = a.leadingCoeffIn v := by
  obtain ⟨cs, hcs, hlen, hlast⟩ := exists_getLast?_of_mainVar? ha h
  rw [List.getLast?_eq_getElem?] at hlast
  rw [coeffIn, hcs, degreeIn, if_pos rfl, coeffsIn, if_pos rfl, hlast, Option.getD_some, hcs]

theorem length_le_of_getD {cs ds : List ResiduePoly} (hcs : trim cs = cs)
    (h : ∀ i : ℕ, cs[i]?.getD 0 = ds[i]?.getD 0) : cs.length ≤ ds.length := by
  by_contra hlt
  obtain ⟨c, hlast⟩ : ∃ c, cs.getLast? = some c := by
    cases hl : cs.getLast? with
    | some c => exact ⟨c, rfl⟩
    | none => simp [List.getLast?_eq_none_iff.1 hl] at hlt
  have hne := trim_eq_self_iff.1 hcs c hlast
  have hc := h (cs.length - 1)
  rw [← List.getLast?_eq_getElem?, hlast, List.getElem?_eq_none (by omega), Option.getD_some,
    Option.getD_none] at hc
  rw [hc] at hne
  cases hne

theorem eq_of_getD {cs ds : List ResiduePoly} (hcs : trim cs = cs) (hds : trim ds = ds)
    (h : ∀ i : ℕ, cs[i]?.getD 0 = ds[i]?.getD 0) : cs = ds := by
  have hlen := le_antisymm (length_le_of_getD hcs h) (length_le_of_getD hds fun i => (h i).symm)
  refine List.ext_getElem hlen fun i hi hi' => ?_
  have := h i
  rwa [List.getElem?_eq_getElem hi, List.getElem?_eq_getElem hi', Option.getD_some,
    Option.getD_some] at this

theorem mainVar?_of_coeffIn {a b : ResiduePoly} (ha : Normal p S (v + 1) a)
    (hb : Normal p S (v + 1) b) (h : ∀ i, a.coeffIn v i = b.coeffIn v i)
    (hv : a.mainVar? = some v) : b.mainVar? = some v := by
  by_contra hbv
  have hdeg := (degreeIn_ne_zero_iff ha).2 hv
  have hlead := coeffIn_degreeIn ha hv
  rw [h, coeffIn_eq_zero (by rw [degreeIn_of_normal (hb.of_mainVar?_ne hbv)]; omega)] at hlead
  have hz := (leadingCoeffIn_spec ha hv).2
  rw [← hlead] at hz
  cases hz

/-- A normal form is determined by its coefficients. -/
theorem eq_of_coeffIn {a b : ResiduePoly} (ha : Normal p S (v + 1) a) (hb : Normal p S (v + 1) b)
    (h : ∀ i, a.coeffIn v i = b.coeffIn v i) : a = b := by
  by_cases hv : a.mainVar? = some v
  · obtain ⟨cs, rfl⟩ := exists_node_of_mainVar? hv
    obtain ⟨ds, rfl⟩ := exists_node_of_mainVar? (mainVar?_of_coeffIn ha hb h hv)
    refine congrArg (node v) (eq_of_getD (normal_node.1 ha).2.1.2 (normal_node.1 hb).2.1.2 fun i => ?_)
    simpa [coeffIn, coeffsIn] using h i
  · have hbv : b.mainVar? ≠ some v := fun hbv => hv (mainVar?_of_coeffIn hb ha (fun i => (h i).symm) hbv)
    have hconst : ∀ {c}, Normal p S (v + 1) c → c.mainVar? ≠ some v → c.coeffIn v 0 = c := by
      intro c hc hcv
      cases c with
      | const k => rfl
      | node w cs =>
        have hw : w ≠ v := fun he => hcv (by rw [mainVar?, he])
        rw [coeffIn, coeffsIn, if_neg hw]
        rfl
    rw [← hconst ha hv, h, hconst hb hbv]

/-! ## One more variable -/

section

variable {K L : Type*} [CommRing K] [CommRing L] {x : ℕ → K} {Q : ResiduePoly → Prop}

/-- The polynomial in `v` whose coefficients are the values of the coefficients. -/
def fiber (x : ℕ → K) (v : ℕ) (a : ResiduePoly) : K[X] :=
  evalList (fun w => C (x w)) X (a.coeffsIn v)

theorem coeff_fiber (a : ResiduePoly) (i : ℕ) : (fiber x v a).coeff i = eval x (a.coeffIn v i) := by
  rw [fiber, coeffIn]
  generalize a.coeffsIn v = cs
  induction cs generalizing i with
  | nil => simp
  | cons c cs ih =>
    rw [evalList_cons, ← map_eval C c, coeff_add]
    cases i with
    | zero => simp
    | succ i => rw [coeff_C_succ, coeff_X_mul, zero_add, ih, List.getElem?_cons_succ]

theorem eval_eq_fiber {a : ResiduePoly} (ha : Normal p S (v + 1) a) (f : K[X] →+* L) {y : ℕ → L}
    (hy : ∀ w < v, y w = f (C (x w))) (hv : y v = f X) : eval y a = f (fiber x v a) := by
  rw [fiber, map_evalList, ← evalList_coeffsIn v, hv]
  exact evalList_congr hy (normalList_coeffsIn ha)

/-- The value where `v` is a new variable. -/
theorem eval_polynomial {a : ResiduePoly} (ha : Normal p S (v + 1) a) :
    eval (Function.update (fun w => C (x w)) v X) a = fiber x v a :=
  eval_eq_fiber ha (RingHom.id _) (fun _ hw => Function.update_of_ne hw.ne _ _)
    (Function.update_self _ _ _)

/-- The value where `v` is a root of a polynomial. -/
theorem eval_adjoinRoot {a : ResiduePoly} (ha : Normal p S (v + 1) a) (g : K[X]) :
    eval (Function.update (fun w => AdjoinRoot.of g (x w)) v (AdjoinRoot.root g)) a =
      AdjoinRoot.mk g (fiber x v a) :=
  eval_eq_fiber ha _ (fun _ hw => Function.update_of_ne hw.ne _ _) (Function.update_self _ _ _)

/-- A point where different normal forms with a property have different values. -/
def Separates (x : ℕ → K) (p b : ℕ) (Q : ResiduePoly → Prop) : Prop :=
  ∀ a c, Normal p Set.univ b a → Normal p Set.univ b c → Q a → Q c → eval x a = eval x c → a = c

theorem Separates.eq {b : ℕ} (h : Separates x p b Q) {a c : ResiduePoly} (ha : Normal p S b a)
    (hc : Normal p S b c) (hQa : Q a) (hQc : Q c) (he : eval x a = eval x c) : a = c :=
  h a c (ha.mono_set fun w _ _ => Set.mem_univ w) (hc.mono_set fun w _ _ => Set.mem_univ w) hQa hQc he

theorem Separates.nontrivial {b : ℕ} (h : Separates x p b Q) (hp : 1 < p) (h0 : Q 0) (h1 : Q 1) :
    Nontrivial K := by
  by_contra hK
  rw [not_nontrivial_iff_subsingleton] at hK
  have := h 0 1 (normal_zero (by omega)) (normal_one hp) h0 h1 (Subsingleton.elim _ _)
  cases this

theorem eq_of_fiber_eq (hp : 0 < p) (h : Separates x p v Q) {a c : ResiduePoly}
    (ha : Normal p Set.univ (v + 1) a) (hc : Normal p Set.univ (v + 1) c)
    (hQa : ∀ i, Q (a.coeffIn v i)) (hQc : ∀ i, Q (c.coeffIn v i)) (he : fiber x v a = fiber x v c) :
    a = c := by
  refine eq_of_coeffIn ha hc fun i => h _ _ (normal_coeffIn hp ha i) (normal_coeffIn hp hc i)
    (hQa i) (hQc i) ?_
  rw [← coeff_fiber, ← coeff_fiber, he]

/-- The polynomials in one more variable. -/
theorem Separates.polynomial {R : ResiduePoly → Prop} (hp : 0 < p) (h : Separates x p v Q)
    (hQ : ∀ a, R a → ∀ i, Q (a.coeffIn v i)) :
    Separates (Function.update (fun w => C (x w)) v X) p (v + 1) R := by
  intro a c ha hc hRa hRc he
  rw [eval_polynomial ha, eval_polynomial hc] at he
  exact eq_of_fiber_eq hp h ha hc (hQ a hRa) (hQ c hRc) he

theorem degree_fiber_lt {a : ResiduePoly} {n : ℕ} (h : a.degreeIn v < n) : (fiber x v a).degree < n := by
  rw [degree_lt_iff_coeff_zero]
  intro i hi
  rw [coeff_fiber, coeffIn_eq_zero (by omega), eval_zero]

theorem monic_fiber {d : ResiduePoly} (hd : Normal p S (v + 1) d) (hv : d.mainVar? = some v)
    (hmonic : d.leadingCoeffIn v = 1) : (fiber x v d).Monic := by
  refine monic_of_natDegree_le_of_coeff_eq_one (d.degreeIn v) ?_ ?_
  · rw [natDegree_le_iff_coeff_eq_zero]
    intro i hi
    rw [coeff_fiber, coeffIn_eq_zero hi, eval_zero]
  · rw [coeff_fiber, coeffIn_degreeIn hd hv, hmonic, eval_one]

theorem le_degree_fiber [Nontrivial K] {d : ResiduePoly} (hd : Normal p S (v + 1) d)
    (hv : d.mainVar? = some v) (hmonic : d.leadingCoeffIn v = 1) :
    ((d.degreeIn v : ℕ) : WithBot ℕ) ≤ (fiber x v d).degree := by
  refine le_degree_of_ne_zero ?_
  rw [coeff_fiber, coeffIn_degreeIn hd hv, hmonic, eval_one]
  exact one_ne_zero

/-- The residues modulo a monic polynomial in one more variable, for normal forms of smaller
degree. -/
theorem Separates.adjoinRoot {R : ResiduePoly → Prop} (hp : 0 < p) [Nontrivial K]
    (h : Separates x p v Q) {d : ResiduePoly} (hd : Normal p S (v + 1) d) (hv : d.mainVar? = some v)
    (hmonic : d.leadingCoeffIn v = 1)
    (hQ : ∀ a, R a → a.degreeIn v < d.degreeIn v ∧ ∀ i, Q (a.coeffIn v i)) :
    Separates (Function.update (fun w => AdjoinRoot.of (fiber x v d) (x w)) v
      (AdjoinRoot.root (fiber x v d))) p (v + 1) R := by
  intro a c ha hc hRa hRc he
  rw [eval_adjoinRoot ha, eval_adjoinRoot hc, AdjoinRoot.mk_eq_mk] at he
  obtain ⟨hdega, hQa⟩ := hQ a hRa
  obtain ⟨hdegc, hQc⟩ := hQ c hRc
  have hm := monic_fiber (x := x) hd hv hmonic
  refine eq_of_fiber_eq hp h ha hc hQa hQc (sub_eq_zero.1 ?_)
  by_contra hne
  exact hm.not_dvd_of_degree_lt hne
    (((degree_sub_le _ _).trans_lt (max_lt (degree_fiber_lt hdega) (degree_fiber_lt hdegc))).trans_le
      (le_degree_fiber hd hv hmonic)) he

end

/-! ## Equality of normal forms -/

/-- The value at a point is that of the denoted polynomial. -/
theorem eval₂Hom_toMv {K : Type*} [CommRing K] (f : ZMod p →+* K) (x : ℕ → K) (a : ResiduePoly) :
    MvPolynomial.eval₂Hom f x (toMv p a) = eval x a := by
  rw [toMv, map_eval]
  simp only [MvPolynomial.eval₂Hom_X']

theorem separates_const (p : ℕ) (Q : ResiduePoly → Prop) :
    Separates (fun _ => (0 : ZMod p)) p 0 Q := by
  intro a c ha hc _ _ he
  cases a with
  | node v cs => exact absurd (normal_node.1 ha).1.1 (Nat.not_lt_zero v)
  | const a =>
    cases c with
    | node v cs => exact absurd (normal_node.1 hc).1.1 (Nat.not_lt_zero v)
    | const c =>
      rw [eval_const, eval_const, ZMod.natCast_eq_natCast_iff] at he
      rw [Nat.ModEq.eq_of_lt_of_lt he (normal_const.1 ha) (normal_const.1 hc)]

theorem exists_separates (hp : 0 < p) (b : ℕ) : ∃ (K : Type) (_ : CommRing K) (_ : ZMod p →+* K)
    (x : ℕ → K), Separates x p b fun _ => True := by
  induction b with
  | zero => exact ⟨ZMod p, inferInstance, RingHom.id _, _, separates_const p _⟩
  | succ v ih =>
    obtain ⟨K, _, f, x, hx⟩ := ih
    exact ⟨K[X], inferInstance, C.comp f, _, hx.polynomial hp fun _ _ _ => trivial⟩

/-- Normal forms that denote the same polynomial are equal. -/
theorem eq_of_toMv_eq (hp : 0 < p) {b : ℕ} {a c : ResiduePoly} (ha : Normal p S b a)
    (hc : Normal p S b c) (h : toMv p a = toMv p c) : a = c := by
  obtain ⟨K, _, f, x, hx⟩ := exists_separates hp b
  refine hx.eq ha hc trivial trivial ?_
  rw [← eval₂Hom_toMv f, h, eval₂Hom_toMv]

end ResiduePoly

end Cylindrical

end
