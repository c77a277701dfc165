import Mathlib
import Cylindrical.Proofs.Poly.Gcd
import Cylindrical.Proofs.Poly.Monic
import Cylindrical.Proofs.Sample.Factor

/-!
# The zero test over one level

Two polynomials in one variable with a common root share the minimal polynomial of it, so their greatest
common divisor has the root.  It divides the isolator, whose only root between the ends is the
coordinate, and changes its sign between them exactly when it has this root.
-/

noncomputable section

namespace Cylindrical

namespace Poly

variable {K : Type*} [Field K] [RationalAlgebra K] {v : ℕ} {x : ℕ → K} {p q g : Poly}

/-- A greatest common divisor of polynomials in one variable has their common roots. -/
theorem IsGcd.value_eq_zero (h : IsGcd g p q) (hp : ∀ w ∈ p.toMv.vars, w = v)
    (hq : ∀ w ∈ q.toMv.vars, w = v) (hpx : p.value x = 0) (hqx : q.value x = 0) :
    g.value x = 0 := by
  obtain ⟨cs, hcs⟩ := exists_univariate? hp
  obtain ⟨ds, hds⟩ := exists_univariate? hq
  have hroot : ∀ {r : Poly} {es : List ℚ}, r.univariate? v = some es → r.value x = 0 →
      Polynomial.aeval (MvPolynomial.X v) (minpoly ℚ (x v)) ∣ r.toMv := by
    intro r es hes hr
    rw [value, toMv_of_univariate? hes, ← Polynomial.aeval_algHom_apply, MvPolynomial.aeval_X] at hr
    rw [toMv_of_univariate? hes]
    exact map_dvd _ (minpoly.dvd ℚ (x v) hr)
  obtain ⟨c, hc⟩ := (h _).2 ⟨hroot hcs hpx, hroot hds hqx⟩
  rw [value, hc, map_mul, ← Polynomial.aeval_algHom_apply, MvPolynomial.aeval_X, minpoly.aeval,
    zero_mul]

theorem value_eq_zero_of_dvd (h : g.toMv ∣ p.toMv) (hg : g.value x = 0) : p.value x = 0 := by
  obtain ⟨c, hc⟩ := h
  rw [value] at hg ⊢
  rw [hc, map_mul, hg, zero_mul]

theorem fiber_dvd_of_dvd (h : g.toMv ∣ p.toMv) (v : ℕ) (x : ℕ → ℝ) : g.fiber v x ∣ p.fiber v x :=
  map_dvd _ h

theorem degreeOf_le_of_dvd (hp : p.toMv ≠ 0) (h : g.toMv ∣ p.toMv) (v : ℕ) :
    g.degreeOf v ≤ p.degreeOf v := by
  obtain ⟨c, hc⟩ := h
  rw [degreeOf_eq, degreeOf_eq, hc, MvPolynomial.degreeOf_mul_eq
    (left_ne_zero_of_mul (hc ▸ hp)) (right_ne_zero_of_mul (hc ▸ hp))]
  exact Nat.le_add_right _ _

/-- A polynomial of the same degree in its only variable that divides another has its roots. -/
theorem value_eq_zero_of_degreeOf_le (hp : ∀ w ∈ p.toMv.vars, w = v) (hp0 : p.toMv ≠ 0)
    (h : g.toMv ∣ p.toMv) (hle : p.degreeOf v ≤ g.degreeOf v) (hpx : p.value x = 0) :
    g.value x = 0 := by
  obtain ⟨c, hc⟩ := h
  have hg0 := left_ne_zero_of_mul (hc ▸ hp0)
  have hc0 := right_ne_zero_of_mul (hc ▸ hp0)
  rw [degreeOf_eq, degreeOf_eq, hc, MvPolynomial.degreeOf_mul_eq hg0 hc0] at hle
  have hcv : c.vars = ∅ := by
    refine Finset.eq_empty_iff_forall_notMem.2 fun w hw => ?_
    obtain rfl := hp w (vars_subset_of_dvd hp0 (Dvd.intro_left _ hc.symm) hw)
    have := (MvPolynomial.mem_vars_iff_degreeOf_ne_zero).1 hw
    omega
  rw [MvPolynomial.vars_eq_empty_iff_eq_C] at hcv
  rw [value] at hpx ⊢
  rw [hc, hcv, map_mul, MvPolynomial.aeval_C] at hpx
  refine (mul_eq_zero.1 hpx).resolve_right fun h0 => hc0 ?_
  rw [hcv, (map_eq_zero_iff _ (algebraMap ℚ K).injective).1 h0, MvPolynomial.C_0]

end Poly

namespace Univariate

/-- A divisor of a square-free polynomial with one root between two ends changes its sign there
exactly when it has this root. -/
theorem signAt_ne_iff {cs : List ℚ} {a : AlgebraicNumber} {ξ : ℝ} (ha : a.Isolates ξ)
    (h : toReal cs ∣ toReal a.isolator) :
    signAt cs a.span.lo ≠ signAt cs a.span.hi ↔ (toReal cs).IsRoot ξ := by
  have hsq : Squarefree (toReal cs) := (squarefree_toReal ha.squarefree).squarefree_of_dvd h
  have huniq : ∀ y ∈ Set.Icc (a.span.lo : ℝ) a.span.hi, (toReal cs).IsRoot y → y = ξ := fun y hy hr =>
    ha.unique y hy.1 hy.2 (hr.dvd h)
  refine ⟨fun hne => ?_, fun hr => signAt_ne_of_isRoot hsq ha.lo_lt ha.lt_hi hr huniq⟩
  by_contra hr
  exact hne (signAt_eq_of_forall_not_isRoot ha.lo_lt_hi.le fun y hy hy' => hr (huniq y hy hy' ▸ hy'))

end Univariate

namespace ZeroTest

open Tower

variable {σ τ : PointState} {x : ℕ → ℝ} {l : TowerLevel} {a : AlgebraicNumber} {r : Poly}

theorem algebraically_eq_ok {α : Type} {y : AlgebraM α} {b : α}
    (h : PointState.algebraically y σ = .ok b τ) :
    (∃ t, y σ.algebra = .ok b t) ∧ τ.point = σ.point := by
  obtain ⟨t, ht, rfl⟩ := run_focus_eq_ok h
  exact ⟨⟨t, ht⟩, rfl⟩

theorem span?_of_get? {s : SamplePoint} {v : ℕ} (h : s.get? v = some (.algebraic a)) :
    s.span? v = some a.span := by
  rw [SamplePoint.span?, h]
  rfl

/-- A divisor of the defining polynomial changes its sign over the interval exactly when it
vanishes. -/
theorem signAt_ne_iff_of_dvd {s : SamplePoint} (hs : s.Sound x) (hl : LevelOver s x l a)
    (hvars : ∀ w ∈ l.defining.toMv.vars, w = l.var) {g : Poly} (h : g.toMv ∣ l.defining.toMv)
    (hl0 : l.defining.toMv ≠ 0) :
    (Univariate.signAt ((g.univariate? l.var).getD []) a.span.lo !=
      Univariate.signAt ((g.univariate? l.var).getD []) a.span.hi) = true ↔ g.value x = 0 := by
  obtain ⟨cs, hcs⟩ := Poly.exists_univariate? fun w hw => hvars w (vars_subset_of_dvd hl0 h hw)
  have hfiber : g.fiber l.var x = Univariate.toReal cs := Poly.fiber_of_toMv_eq (Poly.toMv_of_univariate? hcs) x
  have hden := hs.denotes l.var _ hl.get?
  obtain ⟨c, hc, hlf⟩ := hl.fiber
  have hdvd : Univariate.toReal cs ∣ Univariate.toReal a.isolator := by
    rw [← hfiber]
    refine (Poly.fiber_dvd_of_dvd h l.var x).trans ?_
    rw [hlf]
    exact (((isUnit_iff_ne_zero.2 hc).map Polynomial.C).mul_left_dvd).2 hden.2.fiber_dvd
  rw [hcs, Option.getD_some, bne_iff_ne, Univariate.signAt_ne_iff hden.1 hdvd, ← hfiber,
    Polynomial.IsRoot, Poly.eval_fiber, Function.update_eq_self]

/-- A divisor of the defining polynomial that vanishes may take its place. -/
theorem redefines_of_dvd {s : SamplePoint} (hl : LevelOver s x l a)
    (hvars : ∀ w ∈ l.defining.toMv.vars, w = l.var) {g : Poly} (h : g.toMv ∣ l.defining.toMv)
    (hl0 : l.defining.toMv ≠ 0) (hg : g.value x = 0) : Redefines s x l g where
  vars_le w hw := (hvars w (vars_subset_of_dvd hl0 h hw)).le
  vars_not_known w hw := hl.vars_not_known w (vars_subset_of_dvd hl0 h hw)
  value_eq_zero := hg
  fiber_dvd := Poly.fiber_dvd_of_dvd h l.var x
  degree_le := Poly.degreeOf_le_of_dvd hl0 h l.var

/-- The zero test over one level. -/
theorem overOne_spec (hs : σ.point.Sound x) (hl : LevelOver σ.point x l a)
    (hvars : ∀ w ∈ l.defining.toMv.vars, w = l.var) (hr : ∀ w ∈ r.toMv.vars, w = l.var)
    (hr0 : r.toMv ≠ 0) {o : Outcome} (hrun : overOne l r σ = .ok o τ) :
    σ.point.Evolves x τ.point ∧ ∀ b, o = .decided b → (b = true ↔ r.value x = 0) := by
  rw [overOne] at hrun
  obtain ⟨_, σ₁, hcount, h₁⟩ := run_bind_eq_ok hrun
  obtain ⟨g, σ₂, hg, h₂⟩ := run_bind_eq_ok h₁
  obtain ⟨⟨t, hg⟩, hσ₂⟩ := algebraically_eq_ok hg
  have hgcd := Poly.isGcd_gcd (AlgebraSystem.call_eq_ok hg)
  rw [count_eq_ok hcount] at hσ₂
  have hshare := fun hrx => hgcd.value_eq_zero hvars hr hl.value_eq_zero (x := x) hrx
  have hg0 : g.toMv ≠ 0 := ne_zero_of_dvd_ne_zero hr0 hgcd.dvd_right
  have hl0 := Poly.ne_zero_of_degreeOf_pos hl.monic.monicIn.pos
  split_ifs at h₂ with hnum hdeg
  · obtain ⟨rfl, rfl⟩ := run_pure_eq_ok h₂
    rw [hσ₂]
    refine ⟨.refl hs, fun b hb => ?_⟩
    obtain rfl := Outcome.decided.inj hb
    refine ⟨fun h => absurd h (by decide), fun hrx => absurd ?_ hg0⟩
    have hgx := hshare hrx
    rw [Poly.value_of_isNumber x hnum] at hgx
    rw [Poly.toMv_of_isNumber hnum, (map_eq_zero_iff _ (algebraMap ℚ ℝ).injective).1 hgx,
      MvPolynomial.C_0]
  · obtain ⟨rfl, rfl⟩ := run_pure_eq_ok h₂
    rw [hσ₂]
    refine ⟨.refl hs, fun b hb => ?_⟩
    obtain rfl := Outcome.decided.inj hb
    exact ⟨fun _ => Poly.value_eq_zero_of_dvd hgcd.dvd_right (Poly.value_eq_zero_of_degreeOf_le hvars hl0
      hgcd.dvd_left hdeg hl.value_eq_zero), fun _ => rfl⟩
  · obtain ⟨h, σ₃, hlift, h₃⟩ := run_bind_eq_ok h₂
    obtain ⟨hquot, rfl⟩ := run_lift_eq_ok hlift
    obtain ⟨-, hmul⟩ := Poly.toMv_of_exactQuotient hquot
    have hassoc := Poly.associated_monic hg0
    rw [run_get_bind] at h₃
    obtain ⟨_, σ₄, hrep, h₄⟩ := run_bind_eq_ok h₃
    obtain ⟨rfl, rfl⟩ := run_pure_eq_ok h₄
    rw [hσ₂, span?_of_get? hl.get?, Option.getD_some] at hrep ⊢
    have hiff := signAt_ne_iff_of_dvd hs hl hvars (Dvd.intro_left _ hmul.symm) hl0
    generalize (Univariate.signAt ((g.monic.univariate? l.var).getD []) a.span.lo !=
      Univariate.signAt ((g.monic.univariate? l.var).getD []) a.span.hi) = c at hrep hiff ⊢
    rw [replace_eq_ok (by rw [hσ₂]; exact hl.get?) hrep, hσ₂]
    refine ⟨evolves_redefine hs hl ?_, fun b hb => ?_⟩
    · cases c
      · have hne := mt hiff.2 (by decide)
        have h0 := hl.value_eq_zero
        rw [Poly.value, hmul, map_mul] at h0
        exact redefines_of_dvd hl hvars (Dvd.intro _ hmul.symm) hl0 ((mul_eq_zero.1 h0).resolve_right hne)
      · exact redefines_of_dvd hl hvars (Dvd.intro_left _ hmul.symm) hl0 (hiff.1 rfl)
    · obtain rfl := Outcome.decided.inj hb
      rw [hiff]
      refine ⟨fun hgx => Poly.value_eq_zero_of_dvd (hassoc.dvd_iff_dvd_left.2 hgcd.dvd_right) hgx,
        fun hrx => Poly.value_eq_zero_of_dvd hassoc.dvd' (hshare hrx)⟩

end ZeroTest

end Cylindrical

end
