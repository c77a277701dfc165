import Mathlib
import Cylindrical.Projection.Operator
import Cylindrical.Proofs.Stack.CoefficientTests

/-!
# A norm that vanishes splits the tower

If the norm of a polynomial vanishes, the polynomial vanishes identically over a conjugate of the sample
point, though not over the point itself.  Tests that replace nothing cannot tell the two apart, so while
the coefficients are tested one of the defining polynomials is replaced by one of a smaller degree.  The
weight of the point bounds how often this happens, and in the end there is a norm to take the roots of.
-/

noncomputable section

namespace Cylindrical

/-! ## Points with further coordinates -/

namespace SamplePoint

variable {s t : SamplePoint} {x : ℕ → ℝ} {v : ℕ} {p : Poly}

/-- A coordinate that the point does not have may be any number. -/
theorem Denotes.update (hs : s.Denotes x) (hv : s.size ≤ v) (y : ℝ) :
    s.Denotes (Function.update x v y) := by
  intro w c hc
  have hlt := (lt_size_of_get? hc).trans_le hv
  have hden := hs w c hc
  cases c with
  | rational r =>
    rw [Coordinate.Denotes, Function.update_of_ne hlt.ne]
    exact hden
  | algebraic a =>
    obtain ⟨hisolates, hvars, hzero, hdvd⟩ := hden
    have hmem : v ∉ a.defining.toMv.vars := fun hm => (hvars v hm).not_gt hlt
    refine ⟨by rwa [Function.update_of_ne hlt.ne], hvars, ?_, ?_⟩
    · rwa [Poly.value_update_of_notMem hmem]
    · have hfiber : a.defining.fiber w (Function.update x v y) = a.defining.fiber w x :=
        Poly.fiber_congr fun u hu _ => Function.update_of_ne (ne_of_mem_of_not_mem hu hmem) _ _
      rwa [hfiber]

theorem Sound.update (hs : s.Sound x) (hv : s.size ≤ v) (y : ℝ) : s.Sound (Function.update x v y) :=
  ⟨hs.denotes.update hv y, hs.exact⟩

/-- Known coordinates in a polynomial keep its fiber over the point. -/
theorem fiber_substituteKnown (hs : s.Denotes x) (hv : s.size ≤ v) (hp : s.Fits p) :
    (s.substituteKnown p).fiber v x = p.fiber v x := Polynomial.funext fun y => by
  rw [Poly.eval_fiber, Poly.eval_fiber, value_substituteKnown (hs.update hv y) hp]

/-- What a point becomes in tests keeps the fiber. -/
theorem fiber_of_evolves (h : ∀ y, Evolves (Function.update x v y) s t) (p : Poly) :
    (t.substituteKnown p).fiber v x = (s.substituteKnown p).fiber v x := Polynomial.funext fun y => by
  rw [Poly.eval_fiber, Poly.eval_fiber, (h y).value]

/-- At a tighter point of a smaller weight one of the defining polynomials has a smaller degree. -/
theorem Tightens.exists_degreeOf_lt (h : t.Tightens s) (hlt : ZeroTest.weight t < ZeroTest.weight s) :
    ∃ w a b, s.get? w = some (.algebraic a) ∧ t.get? w = some (.algebraic b) ∧
      b.defining.degreeOf w < a.defining.degreeOf w := by
  rw [weight_eq_sum, weight_eq_sum, h.size] at hlt
  obtain ⟨w, hw, hlt⟩ := Finset.exists_lt_of_sum_lt hlt
  obtain ⟨c, hc⟩ := exists_get? (Finset.mem_range.1 hw)
  rw [degreeAt_of_get? hc] at hlt
  cases c with
  | rational r => exact absurd hlt (Nat.not_lt_zero _)
  | algebraic a =>
    obtain ⟨b, hb, -⟩ := h.algebraic w a hc
    rw [degreeAt_of_get? hb] at hlt
    exact ⟨w, a, b, hc, hb, hlt⟩

end SamplePoint

/-! ## Polynomials without their highest coefficients -/

namespace Poly

variable {v m : ℕ} {p : Poly}

theorem toMv_truncate (v m : ℕ) (p : Poly) : (ofCoeffs v ((p.coeffs v).take m)).toMv =
    ∑ k ∈ Finset.range (min m (p.degreeOf v + 1)), (p.coeff v k).toMv * MvPolynomial.X v ^ k := by
  rw [toMv_ofCoeffs, coeffs, List.length_take, List.length_map, List.length_range]
  refine Finset.sum_congr rfl fun k hk => ?_
  have hk := Finset.mem_range.1 hk
  rw [List.getD_eq_getElem?_getD, List.getElem?_take_of_lt (by omega), List.getElem?_map,
    List.getElem?_range (by omega)]
  rfl

theorem coeff_fiber_truncate {x : ℕ → ℝ} (n : ℕ) :
    ((ofCoeffs v ((p.coeffs v).take m)).fiber v x).coeff n =
      if n < min m (p.degreeOf v + 1) then (p.coeff v n).value x else 0 := by
  have hfiber : (ofCoeffs v ((p.coeffs v).take m)).fiber v x =
      ∑ k ∈ Finset.range (min m (p.degreeOf v + 1)),
        Polynomial.C ((p.coeff v k).value x) * Polynomial.X ^ k := by
    rw [fiber, value, toMv_truncate, map_sum]
    refine Finset.sum_congr rfl fun k _ => ?_
    rw [map_mul, map_pow, MvPolynomial.aeval_X, openAt_self]
    exact congrArg (· * _) (fiber_of_notMem (notMem_vars_coeff v k p) x)
  rw [hfiber, Polynomial.finsetSum_coeff]
  simp only [Polynomial.coeff_C_mul_X_pow, Finset.sum_ite_eq, Finset.mem_range]

/-- The coefficients above the degree of the fiber do not matter over the point. -/
theorem fiber_truncate {x : ℕ → ℝ} (h : (p.fiber v x).natDegree < m) :
    (ofCoeffs v ((p.coeffs v).take m)).fiber v x = p.fiber v x := by
  refine Polynomial.ext fun n => ?_
  rw [coeff_fiber_truncate]
  split_ifs with hn
  · rw [coeff_fiber]
  · refine (Polynomial.coeff_eq_zero_of_natDegree_lt ?_).symm
    have := natDegree_fiber_le v x p
    omega

theorem vars_truncate_le (h : ∀ w ∈ p.toMv.vars, w ≤ v) :
    ∀ w ∈ (ofCoeffs v ((p.coeffs v).take m)).toMv.vars, w ≤ v := by
  classical
  intro w hw
  rw [toMv_truncate] at hw
  obtain ⟨k, -, hw⟩ := Finset.mem_biUnion.1 (MvPolynomial.vars_sum_subset _ _ hw)
  rcases Finset.mem_union.1 (MvPolynomial.vars_mul _ _ hw) with hw | hw
  · exact h w (vars_coeff_subset v k p hw)
  · have hwv : w = v := by simpa using MvPolynomial.vars_pow _ _ hw
    exact hwv.le

end Poly

namespace Stack

open Tower ZeroTest

open DecompositionError (OfTest)

variable {zero : ZeroTest.Config} {σ τ υ : StackState} {x : ℕ → ℝ} {v : ℕ} {c f g n p : Poly}
  {cs : List Poly} {b : Bool}

/-! ## The norm of a factor -/

/-- The polynomial in `v` and lower variables does not vanish identically over a valid point, with the
known coordinates put in. -/
structure Extends (s : SamplePoint) (x : ℕ → ℝ) (v : ℕ) (p : Poly) : Prop where
  sound : s.Sound x
  size_le : s.size ≤ v
  vars_le : ∀ w ∈ p.toMv.vars, w ≤ v
  fiber_ne_zero : (s.substituteKnown p).fiber v x ≠ 0

/-- The variables of the coefficients have levels, if these have been tested. -/
theorem varsIn_of_settled {s : SamplePoint} {T : Finset ℕ} (hle : ∀ w ∈ g.toMv.vars, w ≤ v)
    (hall : ∀ c ∈ g.coeffs v, Settled s x c)
    (hT : ∀ c ∈ g.coeffs v, ∀ t, Tower.ofPoly c s = .ok t → varsOf t.levels ⊆ T) :
    g.VarsIn (insert v (T.filter (· < v))) := by
  intro w hw
  by_cases hwv : w = v
  · exact Finset.mem_insert.2 (.inl hwv)
  · obtain ⟨c, hc, hwc⟩ := Poly.exists_mem_vars_coeffs hwv hw
    obtain ⟨t, ht, -⟩ := hall c hc
    obtain ⟨-, -, -, hvars⟩ := ofPoly_eq_ok ht
    exact Finset.mem_insert_of_mem (Finset.mem_filter.2
      ⟨hT c hc t ht (hvars hwc), lt_of_le_of_ne (hle w hw) hwv⟩)

/-- If all coefficients have been tested without a replacement, and there is no norm to take the roots
of, then the polynomial vanishes identically over the point. -/
theorem fiber_eq_zero_of_settled (hs : σ.point.Sound x) (hsize : σ.point.size ≤ v)
    (hle : ∀ w ∈ g.toMv.vars, w ≤ v) (hall : ∀ c ∈ g.coeffs v, Settled σ.point x c)
    (hnorm : norm v g σ = .ok n τ) (hn : (!n.isZero && isIn v n) = false) : g.fiber v x = 0 := by
  have htri := hs.denotes.triangular
  obtain ⟨T, hT, hsub⟩ := exists_levelled fun c hc => (hall c hc).imp fun _ h => h.1
  obtain ⟨hvars, hzero⟩ := norm_spec htri hT le_rfl (varsIn_of_settled hle hall hsub) hnorm
  have hin : isIn v n = true := List.all_eq_true.2 fun w hw => by
    rw [beq_iff_eq]
    exact Finset.mem_singleton.1 (hvars (Poly.mem_vars_iff.1 hw))
  have hn0 : n.isZero = true := by simpa [hin] using hn
  obtain ⟨z, hz, hfiber⟩ := hzero (Poly.toMv_eq_zero_of_isZero hn0)
  refine Polynomial.ext fun k => ?_
  rw [Poly.coeff_fiber, Polynomial.coeff_zero]
  by_cases hk : k ≤ g.degreeOf v
  · have hmem : g.coeff v k ∈ g.coeffs v := List.mem_map.2 ⟨k, List.mem_range.2 (by omega), rfl⟩
    obtain ⟨t, ht, hiff⟩ := hall _ hmem
    rw [← hiff z (hz.vanishesAt htri hs.exact.size_le hsize ht (hsub _ hmem t ht)),
      ← Poly.coeff_fiber, hfiber, Polynomial.coeff_zero]
  · rw [Poly.value, Poly.coeff_eq_zero_of_degreeOf_lt (not_le.1 hk), map_zero]

section

variable (h : Extends σ.point x v p) (hnorm : norm v (σ.point.substituteKnown p) σ = .ok n τ)

include h hnorm

/-- Where there is no norm to take the roots of, the tests of the coefficients fail or end with a
replacement. -/
theorem replaced_of_norm (hn : (!n.isZero && isIn v n) = false)
    (hrun : splitTower zero ((σ.point.substituteKnown p).coeffs v).reverse τ = .ok b υ) :
    b = true ∧ Replaced σ.toPointState υ.toPointState := by
  have hsame := same_of_norm hnorm
  have hpoint : τ.point = σ.point := hsame.point
  have hcs : ∀ c ∈ ((σ.point.substituteKnown p).coeffs v).reverse, τ.point.substituteKnown c = c := by
    intro c hc
    obtain ⟨k, rfl⟩ := ResiduePoly.mem_coeffs (List.mem_reverse.1 hc)
    rw [hpoint]
    exact SamplePoint.substituteFrom_of_not_known (fun w hw _ hd =>
      SamplePoint.not_known_of_mem_vars_substituteKnown h.sound.denotes.triangular
        (Poly.vars_coeff_subset v k _ hw) hd) 0
  rcases splitTower_eq_ok (hpoint.symm ▸ h.sound) hcs hrun with ⟨hb, hr⟩ | hall
  · exact ⟨hb, .of_same hsame hr⟩
  · refine absurd (fiber_eq_zero_of_settled h.sound h.size_le ?_ (fun c hc => ?_) hnorm hn)
      h.fiber_ne_zero
    · exact SamplePoint.vars_substituteFrom_le h.sound.denotes.triangular h.vars_le 0
    · exact hpoint ▸ hall c (List.mem_reverse.2 hc)

/-- After the tests the polynomial still does not vanish identically over the point. -/
theorem extends_of_splitTower
    (hrun : splitTower zero ((σ.point.substituteKnown p).coeffs v).reverse τ = .ok b υ) :
    Extends υ.point x v p := by
  have hpoint : τ.point = σ.point := (same_of_norm hnorm).point
  have hev : ∀ y, σ.point.Evolves (Function.update x v y) υ.point := fun y => by
    have hs := h.sound.update h.size_le y
    rw [← hpoint] at hs ⊢
    exact tracks_splitTower (tracks_evolves _) hs hrun
  have hself := hev (x v)
  rw [Function.update_eq_self] at hself
  have htightens := tracks_splitTower tracks_tightens (hpoint ▸ h.sound.denotes.triangular) hrun
  refine ⟨hself.sound, ?_, h.vars_le, ?_⟩
  · rw [htightens.size, hpoint]
    exact h.size_le
  · rw [SamplePoint.fiber_of_evolves hev]
    exact h.fiber_ne_zero

end

/-! ## The loop -/

/-- The run does not end with the error that a norm vanishes. -/
def HasNorm {α : Type} (r : EStateM.Result DecompositionError StackState α) : Prop :=
  ∀ q τ, r ≠ .error (.inconclusive (.normVanishes q)) τ

theorem hasNorm_of_raises {α : Type} {y : StackM α} (hy : Raises OfTest y) (σ : StackState) :
    HasNorm (y σ) := fun _ _ hrun => hy hrun

theorem hasNorm_error {α : Type} {y : StackM α} (hy : Raises OfTest y) {e : DecompositionError}
    (hrun : y σ = .error e τ) {β : Type} :
    HasNorm (.error e τ : EStateM.Result DecompositionError StackState β) := fun q υ h => by
  cases h
  exact hy hrun

/-- A step of the loop ends it, or goes on from a point of a smaller weight. -/
theorem normAt_step (zero : ZeroTest.Config) (f : Poly) (h : Extends σ.point x v p) :
    (∃ r, HasNorm r ∧ ∀ k, normAt zero v f p (k + 1) σ = r) ∨
      ∃ υ : StackState, Extends υ.point x v p ∧ weight υ.point < weight σ.point ∧
        ∀ k, normAt zero v f p (k + 1) σ = normAt zero v f p k υ := by
  have hraises := (pushRule_raises (P := OfTest) id).toRule
  simp only [normAt, run_get_bind]
  cases hg : isIn v (σ.point.substituteKnown p) with
  | true =>
    simp only [if_true]
    exact .inl ⟨_, hasNorm_of_raises (raises_pure _) σ, fun _ => rfl⟩
  | false =>
    simp only [Bool.false_eq_true, if_false]
    cases hnorm : norm v (σ.point.substituteKnown p) σ with
    | error e τ =>
      exact .inl ⟨_, hasNorm_error (hraises.norm _ _) hnorm, fun k => run_bind_of_error hnorm⟩
    | ok n τ =>
      simp only [run_bind_of_ok hnorm]
      cases hn : !n.isZero && isIn v n with
      | true =>
        simp only [if_true]
        exact .inl ⟨_, hasNorm_of_raises (raises_pure _) τ, fun _ => rfl⟩
      | false =>
        simp only [Bool.false_eq_true, if_false]
        cases hsplit : splitTower zero ((σ.point.substituteKnown p).coeffs v).reverse τ with
        | error e υ =>
          exact .inl ⟨_, hasNorm_error (hraises.splitTower _) hsplit, fun k =>
            run_bind_of_error hsplit⟩
        | ok b υ =>
          obtain ⟨rfl, hreplaced⟩ := replaced_of_norm h hnorm hn hsplit
          exact .inr ⟨υ, extends_of_splitTower h hnorm hsplit, hreplaced.weight_lt, fun k => by
            rw [run_bind_of_ok hsplit, if_pos rfl]⟩

/-- In more steps than the weight there is no failure for want of a norm. -/
theorem hasNorm_normAt {steps : ℕ} (h : Extends σ.point x v p) (hsteps : weight σ.point < steps) :
    HasNorm (normAt zero v f p steps σ) := by
  induction steps generalizing σ with
  | zero => exact absurd hsteps (Nat.not_lt_zero _)
  | succ steps ih =>
    rcases normAt_step zero f h with ⟨r, hr, hrun⟩ | ⟨υ, hυ, hlt, hrun⟩
    · rw [hrun]
      exact hr
    · rw [hrun]
      exact ih hυ (by omega)

/-- More steps than the weight are never made. -/
theorem normAt_eq {j k : ℕ} (h : Extends σ.point x v p) (hj : weight σ.point < j)
    (hk : weight σ.point < k) : normAt zero v f p j σ = normAt zero v f p k σ := by
  induction j generalizing k σ with
  | zero => exact absurd hj (Nat.not_lt_zero _)
  | succ j ih =>
    obtain ⟨k, rfl⟩ := Nat.exists_eq_succ_of_ne_zero (Nat.ne_zero_of_lt hk)
    rcases normAt_step zero f h with ⟨r, -, hrun⟩ | ⟨υ, hυ, hlt, hrun⟩
    · rw [Nat.succ_eq_add_one, hrun, hrun]
    · rw [Nat.succ_eq_add_one, hrun, hrun]
      exact ih hυ (by omega) (by omega)

/-- If the norm vanishes and no test of a coefficient replaces a defining polynomial, the loop fails. -/
theorem normAt_eq_error {zero : ZeroTest.Config} {v k : ℕ} {f p n : Poly} {σ τ υ : StackState}
    (hin : isIn v (σ.point.substituteKnown p) = false)
    (hnorm : norm v (σ.point.substituteKnown p) σ = .ok n τ) (hn : n.isZero = true)
    (hsplit : splitTower zero ((σ.point.substituteKnown p).coeffs v).reverse τ = .ok false υ) :
    normAt zero v f p (k + 1) σ = .error (.inconclusive (.normVanishes f)) υ := by
  simp only [normAt, run_get_bind, hin, Bool.false_eq_true, if_false]
  rw [run_bind_of_ok hnorm, if_neg (by simp [hn]), run_bind_of_ok hsplit]
  rfl

theorem hasNorm_roots {c : Cylinder} {i degree : ℕ} {f : ProjectionFactor}
    (h : Extends σ.point x c.level (.ofCoeffs c.level ((f.poly.coeffs c.level).take (degree + 1)))) :
    HasNorm (roots zero c i f degree σ) := by
  intro q τ hrun
  rw [roots, run_get_bind] at hrun
  obtain hrun | ⟨r, σ₁, -, hrun⟩ := run_bind_eq_error hrun
  · exact hasNorm_normAt h (Nat.lt_succ_self _) q τ hrun
  · exact (pushRule_raises (P := OfTest) id).candidates degree r hrun

/-- Over the square root of two, given as a zero of `(x ^ 2 - 2) * (x ^ 2 - 3)`, the norm of
`(x ^ 2 - 3) * y` vanishes, and the tests of the coefficients split the tower. -/
example : returned? ((do
    let f : Poly := (.ofPower 0 2 - .const 3) * .var 1
    let n ← norm 1 f
    return (n.isZero, ← splitTower {} (f.coeffs 1).reverse) : StackM (Bool × Bool))
    { point := .ofCoords [.algebraic (.ofRoot
      (.ofPower 0 4 - (Poly.ofPower 0 2).scale 5 + .const 6) [6, 0, -5, 0, 1] ⟨1, 3 / 2⟩)] }) =
      some (true, true) := by
  cbv

end Stack

/-! ## Opposite square roots -/

/-- The square roots of three, the negative one first. -/
def oppositeRoots : SamplePoint := .ofCoords
  [.algebraic (.ofRoot (.ofPower 0 2 - .const 3) [-3, 0, 1] ⟨-2, -1⟩),
    .algebraic (.ofRoot (.ofPower 1 2 - .const 3) [-3, 0, 1] ⟨1, 2⟩)]

/-- The polynomial `(y - x) * z + y ^ 2 - 3`, which vanishes identically where `x` and `y` are the same
square root of three. -/
def sameRoots : Poly := (.var 1 - .var 0) * .var 2 + .ofPower 1 2 - .const 3

/-- The real numbers of `oppositeRoots`. -/
def oppositeValues (v : ℕ) : ℝ := if v = 0 then -√3 else √3

theorem get?_oppositeRoots {v : ℕ} {c : Coordinate} (h : oppositeRoots.get? v = some c) :
    v = 0 ∧ c = .algebraic (.ofRoot (.ofPower 0 2 - .const 3) [-3, 0, 1] ⟨-2, -1⟩) ∨
      v = 1 ∧ c = .algebraic (.ofRoot (.ofPower 1 2 - .const 3) [-3, 0, 1] ⟨1, 2⟩) := by
  rw [oppositeRoots, SamplePoint.get?_ofCoords] at h
  match v with
  | 0 => exact .inl ⟨rfl, (Option.some.inj h).symm⟩
  | 1 => exact .inr ⟨rfl, (Option.some.inj h).symm⟩
  | v + 2 => cases h

theorem fits_oppositeRoots (p : Poly) : oppositeRoots.Fits p := fun _ _ hr => by
  obtain ⟨-, h⟩ | ⟨-, h⟩ := get?_oppositeRoots hr <;> cases h

theorem sqrtThree_bounds : 1 < √3 ∧ √3 < 2 ∧ √3 ^ 2 = 3 := by
  have hsq : √3 ^ 2 = 3 := Real.sq_sqrt (by norm_num)
  have hpos : 0 ≤ √3 := Real.sqrt_nonneg 3
  exact ⟨by nlinarith, by nlinarith, hsq⟩

theorem denotes_oppositeRoots : oppositeRoots.Denotes oppositeValues := fun v c hc => by
  obtain ⟨hlo, hhi, hsq⟩ := sqrtThree_bounds
  obtain ⟨rfl, rfl⟩ | ⟨rfl, rfl⟩ := get?_oppositeRoots hc
  · have hx : oppositeValues 0 = -√3 := rfl
    refine denotes_squareRoot (by norm_num) ?_ ?_ ?_ (.inr (by norm_num))
    · rw [hx, neg_sq, hsq, Rat.cast_ofNat]
    · rw [hx]
      norm_num
      linarith
    · rw [hx]
      norm_num
      linarith
  · have hx : oppositeValues 1 = √3 := rfl
    refine denotes_squareRoot (by norm_num) ?_ ?_ ?_ (.inl (by norm_num))
    · rw [hx, hsq, Rat.cast_ofNat]
    · rw [hx]
      norm_num
      linarith
    · rw [hx]
      norm_num
      linarith

theorem exact_oppositeRoots : oppositeRoots.Exact where
  size_le := by decide
  fits _ _ _ := fits_oppositeRoots _
  degree_le v a ha := by
    obtain ⟨rfl, h⟩ | ⟨rfl, h⟩ := get?_oppositeRoots ha <;>
    · obtain rfl := Coordinate.algebraic.inj h
      decide +kernel

theorem vars_sameRoots : ∀ w ∈ sameRoots.toMv.vars, w ≤ 2 := fun w hw => by
  have hvars : sameRoots.vars = [0, 1, 2] := by decide +kernel
  have hw := Poly.mem_vars_iff.2 hw
  rw [hvars] at hw
  fin_cases hw <;> decide

theorem natDegree_sameRoots (x : ℕ → ℝ) : (sameRoots.fiber 2 x).natDegree ≤ 1 :=
  (Poly.natDegree_fiber_le 2 x sameRoots).trans (by decide +kernel)

theorem fiber_sameRoots : sameRoots.fiber 2 oppositeValues ≠ 0 := fun h => by
  have hvalue := congrArg (Polynomial.eval 1) h
  rw [Poly.eval_fiber, Polynomial.eval_zero] at hvalue
  simp [sameRoots, oppositeValues] at hvalue

namespace Stack

end Stack

/-! ## A power that counts otherwise -/

/-- The numbers two and one half and the square root of two. -/
def twoHalfRoot : SamplePoint := .ofCoords [.rational 2, .rational (1 / 2),
  .algebraic (.ofRoot (.ofPower 2 2 - .const 2) [-2, 0, 1] ⟨1, 2⟩)]

/-- The real numbers of `twoHalfRoot`. -/
def twoHalfValues (v : ℕ) : ℝ :=
  if v = 0 then (2 : ℚ) else if v = 1 then (1 / 2 : ℚ) else √(2 : ℚ)

/-- The polynomial `(x ^ 4294967295 - y) * t + z ^ 2 - 2`. -/
def largePower : Poly :=
  (.ofPower 0 4294967295 - .var 1) * .var 3 + .ofPower 2 2 - .const 2

theorem get?_twoHalfRoot {v : ℕ} {c : Coordinate} (h : twoHalfRoot.get? v = some c) :
    v = 0 ∧ c = .rational 2 ∨ v = 1 ∧ c = .rational (1 / 2) ∨
      v = 2 ∧ c = .algebraic (.ofRoot (.ofPower 2 2 - .const 2) [-2, 0, 1] ⟨1, 2⟩) := by
  rw [twoHalfRoot, SamplePoint.get?_ofCoords] at h
  match v with
  | 0 => exact .inl ⟨rfl, (Option.some.inj h).symm⟩
  | 1 => exact .inr (.inl ⟨rfl, (Option.some.inj h).symm⟩)
  | 2 => exact .inr (.inr ⟨rfl, (Option.some.inj h).symm⟩)
  | v + 3 => cases h

theorem denotes_twoHalfRoot : twoHalfRoot.Denotes twoHalfValues := fun v c hc => by
  obtain ⟨rfl, rfl⟩ | ⟨rfl, rfl⟩ | ⟨rfl, rfl⟩ := get?_twoHalfRoot hc
  · rfl
  · rfl
  · have hx : twoHalfValues 2 = √2 := congrArg _ (Rat.cast_ofNat 2)
    have hsq : √2 ^ 2 = 2 := Real.sq_sqrt (by norm_num)
    have hpos : 0 ≤ √2 := Real.sqrt_nonneg 2
    refine denotes_squareRoot (by norm_num) ?_ ?_ ?_ (.inl (by norm_num))
    · rw [hx, hsq, Rat.cast_ofNat]
    · rw [hx]
      norm_num
      nlinarith
    · rw [hx]
      norm_num

theorem exact_twoHalfRoot : twoHalfRoot.Exact where
  size_le := by decide
  fits v a ha := by
    obtain ⟨-, h⟩ | ⟨-, h⟩ | ⟨rfl, h⟩ := get?_twoHalfRoot ha
    · cases h
    · cases h
    · obtain rfl := Coordinate.algebraic.inj h
      intro w r hw
      obtain ⟨rfl, -⟩ | ⟨rfl, -⟩ | ⟨-, hr⟩ := get?_twoHalfRoot hw
      · decide +kernel
      · decide +kernel
      · cases hr
  degree_le v a ha := by
    obtain ⟨-, h⟩ | ⟨-, h⟩ | ⟨rfl, h⟩ := get?_twoHalfRoot ha
    · cases h
    · cases h
    · obtain rfl := Coordinate.algebraic.inj h
      decide +kernel

theorem fiber_largePower : largePower.fiber 3 twoHalfValues ≠ 0 := fun h => by
  have hvalue := congrArg (Polynomial.eval 1) h
  have hone : 1 ≤ twoHalfValues 0 := by
    show (1 : ℝ) ≤ (2 : ℚ)
    norm_num
  have hpow : 1 ≤ twoHalfValues 0 ^ 4294967295 := one_le_pow₀ hone
  have hsq : twoHalfValues 2 ^ 2 = (2 : ℚ) := Real.sq_sqrt (by norm_num)
  have h₀ : Function.update twoHalfValues 3 1 0 = twoHalfValues 0 := rfl
  have h₁ : Function.update twoHalfValues 3 1 1 = (1 / 2 : ℚ) := rfl
  have h₂ : Function.update twoHalfValues 3 1 2 = twoHalfValues 2 := rfl
  have h₃ : Function.update twoHalfValues 3 1 3 = 1 := rfl
  rw [Poly.eval_fiber, Polynomial.eval_zero, largePower, Poly.value_sub, Poly.value_add,
    Poly.value_mul, Poly.value_sub, Poly.value_ofPower, Poly.value_ofPower, Poly.value_var,
    Poly.value_var, Poly.value_const, h₀, h₁, h₂, h₃, hsq, eq_ratCast] at hvalue
  push_cast at hvalue
  linarith

namespace Stack

end Stack

end Cylindrical

end
