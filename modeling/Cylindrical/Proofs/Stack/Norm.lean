import Mathlib
import Cylindrical.Stack.Root
import Cylindrical.Proofs.Poly.Discriminant
import Cylindrical.Proofs.Sample.Conjugates

/-!
# Norms of factors

The resultant with the defining polynomial of a coordinate is, up to a factor, the product over all its
roots, so a norm is the product over the conjugates of the point.  A norm that vanishes identically
therefore has a factor that does: there is a point, conjugate to the sample point, over which the
polynomial vanishes identically.
-/

noncomputable section

open scoped Polynomial

namespace Cylindrical

namespace Poly

variable {u v : ℕ} {p d r : Poly} {z : ℕ → ℂ}

theorem fiber_congr {A : Type*} [CommRing A] [RationalAlgebra A] {x y : ℕ → A}
    (h : ∀ w ∈ p.toMv.vars, w ≠ v → x w = y w) : p.fiber v x = p.fiber v y := by
  refine value_congr fun w hw => ?_
  by_cases hwv : w = v
  · rw [hwv, openAt_self, openAt_self]
  · rw [openAt_of_ne hwv, openAt_of_ne hwv, h w hw hwv]

/-- Where the fiber keeps its degree, a resultant is up to a factor the product of the values at its
roots. -/
theorem prod_eval_eq_zero_of_resultant (hp : 0 < p.degreeOf u) (hd : 0 < d.degreeOf u)
    (hdegree : (d.fiber u z).natDegree = d.degreeOf u) (h : resultant u p d = .ok r)
    (hr : r.value z = 0) : ((d.fiber u z).roots.map (p.fiber u z).eval).prod = 0 := by
  have hsplits : (d.fiber u z).Splits := IsAlgClosed.splits _
  have hlead : (d.fiber u z).leadingCoeff ≠ 0 := by
    refine Polynomial.leadingCoeff_ne_zero.2 fun h0 => ?_
    rw [h0, Polynomial.natDegree_zero] at hdegree
    omega
  rw [value_resultant hp hd h, Polynomial.resultant_comm, ← hdegree,
    Polynomial.resultant_eq_prod_eval _ _ _ (natDegree_fiber_le u z p) hsplits] at hr
  refine (mul_eq_zero.1 ((mul_eq_zero.1 hr).resolve_left ?_)).resolve_left (pow_ne_zero _ hlead)
  exact pow_ne_zero _ (neg_ne_zero.2 one_ne_zero)

/-- If a resultant vanishes identically over a point, the polynomial does so at a root. -/
theorem exists_fiber_eq_zero (huv : u ≠ v) (hv : v ∉ d.toMv.vars) (hp : 0 < p.degreeOf u)
    (hd : 0 < d.degreeOf u) (hdegree : (d.fiber u z).natDegree = d.degreeOf u)
    (h : resultant u p d = .ok r) (hr : r.fiber v z = 0) :
    ∃ ξ, (d.fiber u z).IsRoot ξ ∧ p.fiber v (Function.update z u ξ) = 0 := by
  have hprod : ((d.fiber u z).roots.map fun ξ => p.fiber v (Function.update z u ξ)).prod = 0 := by
    refine Polynomial.funext fun y => ?_
    have hfiber : d.fiber u (Function.update z v y) = d.fiber u z := fiber_congr fun w hw _ => by
      rw [Function.update_of_ne]
      rintro rfl
      exact hv hw
    have hzero := congrArg (Polynomial.eval y) hr
    rw [eval_fiber, Polynomial.eval_zero] at hzero
    have hroots := prod_eval_eq_zero_of_resultant hp hd (hfiber.symm ▸ hdegree) h hzero
    rw [hfiber] at hroots
    rw [Polynomial.eval_multiset_prod, Multiset.map_map, Polynomial.eval_zero, ← hroots]
    congr 1
    refine Multiset.map_congr rfl fun ξ _ => ?_
    rw [Function.comp_apply, eval_fiber, eval_fiber, Function.update_comm huv]
  obtain ⟨ξ, hξ, hzero⟩ := Multiset.mem_map.1 (Multiset.prod_eq_zero_iff.1 hprod)
  exact ⟨ξ, Polynomial.isRoot_of_mem_roots hξ, hzero⟩

end Poly

namespace Tower

variable {s : SamplePoint} {T : Finset ℕ} {u v w : ℕ} {l : TowerLevel} {z : ℕ → ℂ}

/-- The variables have levels at the point, in these variables. -/
def Levelled (s : SamplePoint) (T : Finset ℕ) : Prop :=
  ∀ w ∈ T, ∃ l, level s w = .ok l ∧ l.defining.toMv.vars ⊆ T

/-- The levels of the variables below `u` vanish. -/
def VanishBelow (s : SamplePoint) (T : Finset ℕ) (u : ℕ) (z : ℕ → ℂ) : Prop :=
  ∀ w ∈ T, w < u → ∀ l, level s w = .ok l → l.defining.value z = 0

theorem le_of_level (hs : s.Triangular) (hl : level s u = .ok l) (hw : w ∈ l.defining.toMv.vars) :
    w ≤ u := by
  obtain ⟨a, ha⟩ := levelOf_of_level hs hl
  exact var_of_level hl ▸ ha.monic.vars_le w hw

/-- A further coordinate at which its level vanishes. -/
theorem VanishBelow.update (hs : s.Triangular) (h : VanishBelow s T u z) {ξ : ℂ}
    (hξ : ∀ l, level s u = .ok l → (l.defining.fiber u z).IsRoot ξ) :
    VanishBelow s T (u + 1) (Function.update z u ξ) := by
  intro w hw hlt l hl
  obtain hlt | rfl := Nat.lt_succ_iff_lt_or_eq.1 hlt
  · rw [Poly.value_update_of_notMem fun hmem => (le_of_level hs hl hmem).not_gt hlt]
    exact h w hw hlt l hl
  · rw [← Poly.eval_fiber]
    exact hξ l hl

/-- What a level is made from has a fiber of full degree, with the roots of the level. -/
theorem fiber_of_level (hl : level s u = .ok l) (z : ℕ → ℂ) :
    ∃ a, s.get? u = some (.algebraic a) ∧ 0 < (s.substituteKnown a.defining).degreeOf u ∧
      (s.substituteKnown a.defining).toMv.vars = l.defining.toMv.vars ∧
      ((s.substituteKnown a.defining).fiber u z).natDegree =
        (s.substituteKnown a.defining).degreeOf u ∧
      ∀ ξ, ((s.substituteKnown a.defining).fiber u z).IsRoot ξ →
        (l.defining.fiber u z).IsRoot ξ := by
  obtain ⟨a, c, ha, hc, rfl, hmonic⟩ := level_eq_ok hl
  have hdegree := (hmonic.monic_fiber z).2
  have hc' : algebraMap ℚ ℂ c ≠ 0 := (map_ne_zero_iff _ (algebraMap ℚ ℂ).injective).2 hc
  rw [Poly.fiber_scale, Polynomial.natDegree_C_mul hc'] at hdegree
  refine ⟨a, ha, hmonic.pos, ?_, hdegree, fun ξ hξ => ?_⟩
  · rw [Poly.toMv_scale, MvPolynomial.vars_C_mul _ hc]
  · rw [Polynomial.IsRoot, Poly.fiber_scale, Polynomial.eval_mul, hξ.eq_zero, mul_zero]

theorem exists_isRoot_level (s : SamplePoint) (u : ℕ) (z : ℕ → ℂ) :
    ∃ ξ, ∀ l, level s u = .ok l → (l.defining.fiber u z).IsRoot ξ := by
  cases h : level s u with
  | error e => exact ⟨0, nofun⟩
  | ok l =>
    obtain ⟨a, -, hpos, -, hdegree, hroot⟩ := fiber_of_level h z
    obtain ⟨ξ, hξ⟩ := IsAlgClosed.exists_root _
      (Polynomial.degree_ne_of_natDegree_ne (hdegree.trans_ne hpos.ne'))
    refine ⟨ξ, fun k hk => ?_⟩
    obtain rfl := Except.ok.inj hk
    exact hroot ξ hξ

end Tower

namespace Stack

open Tower ZeroTest

variable {σ τ : StackState} {T : Finset ℕ} {u v : ℕ} {n p : Poly}

theorem same_of_algebraically {α : Type} {y : AlgebraM α} {b : α}
    (hrun : algebraically y σ = .ok b τ) :
    (∃ t, y σ.algebra = .ok b t) ∧ Same σ.toPointState τ.toPointState := by
  rw [algebraically, atPoint] at hrun
  obtain ⟨t, hy, rfl⟩ := run_focus_eq_ok hrun
  exact ⟨(algebraically_eq_ok hy).1, ZeroTest.same_of_algebraically hy⟩

/-- A variable that does not occur gets the coordinate of a root of its level. -/
theorem exists_conjugate_of_notMem (hs : σ.point.Triangular) (hu : u ∉ p.toMv.vars)
    (h : ∃ z, VanishBelow σ.point T u z ∧ p.fiber v z = 0) :
    ∃ z, VanishBelow σ.point T (u + 1) z ∧ p.fiber v z = 0 := by
  obtain ⟨z, hz, hzero⟩ := h
  obtain ⟨ξ, hξ⟩ := exists_isRoot_level σ.point u z
  refine ⟨_, hz.update hs hξ, ?_⟩
  rw [← hzero]
  refine Poly.fiber_congr fun w hw _ => ?_
  rw [Function.update_of_ne]
  rintro rfl
  exact hu hw

theorem varsIn_of_notMem (hp : p.VarsIn (insert v (T.filter (· < u + 1)))) (hu : u ∉ p.toMv.vars) :
    p.VarsIn (insert v (T.filter (· < u))) := by
  intro w hw
  have hmem := hp hw
  simp only [Finset.mem_insert, Finset.mem_filter] at hmem ⊢
  refine hmem.imp_right fun h => ⟨h.1, ?_⟩
  have hne : w ≠ u := fun hwu => hu (hwu ▸ hw)
  omega

section

variable {s : SamplePoint} {a : AlgebraicNumber} {l : TowerLevel} {r : Poly}
  (hs : s.Triangular) (ha : s.get? u = some (.algebraic a)) (hl : level s u = .ok l)
  (hres : Poly.resultant u p (s.substituteKnown a.defining) = .ok r)

include hs ha hl hres

/-- A variable that is eliminated gets the coordinate of a root over which the polynomial vanishes. -/
theorem exists_conjugate_of_resultant (huv : u < v) (hu : u ∈ p.toMv.vars)
    (h : ∃ z, VanishBelow s T u z ∧ r.fiber v z = 0) :
    ∃ z, VanishBelow s T (u + 1) z ∧ p.fiber v z = 0 := by
  obtain ⟨z, hz, hzero⟩ := h
  obtain ⟨b, hb, hpos, hvars, hdegree, hroot⟩ := fiber_of_level hl z
  obtain rfl := Coordinate.algebraic.inj (Option.some.inj (ha.symm.trans hb))
  have hv : v ∉ (s.substituteKnown a.defining).toMv.vars := fun hmem =>
    (le_of_level hs hl (hvars ▸ hmem)).not_gt huv
  have hp : 0 < p.degreeOf u := Nat.pos_of_ne_zero fun h0 => Poly.degreeOf_eq_zero_iff.1 h0 hu
  obtain ⟨ξ, hξ, hfiber⟩ := Poly.exists_fiber_eq_zero huv.ne hv hp hpos hdegree hres hzero
  refine ⟨_, hz.update hs fun k hk => ?_, hfiber⟩
  obtain rfl := Except.ok.inj (hl.symm.trans hk)
  exact hroot ξ hξ

theorem varsIn_resultant (hp : p.VarsIn (insert v (T.filter (· < u + 1))))
    (hT : l.defining.toMv.vars ⊆ T) : r.VarsIn (insert v (T.filter (· < u))) := by
  obtain ⟨b, hb, -, hvars, -, -⟩ := fiber_of_level hl 0
  obtain rfl := Coordinate.algebraic.inj (Option.some.inj (ha.symm.trans hb))
  refine Poly.varsIn_of_subresultantCoeff (v := u) (hp.mono fun w hw => ?_) (fun w hw => ?_) hres
  · simp only [Finset.mem_insert, Finset.mem_filter] at hw ⊢
    obtain hw | ⟨hw, hlt⟩ := hw
    · exact .inr (.inl hw)
    · exact (Nat.lt_succ_iff_lt_or_eq.1 hlt).symm.imp_right fun hlt => .inr ⟨hw, hlt⟩
  · simp only [Finset.mem_insert, Finset.mem_filter]
    have hmem := hT (hvars ▸ hw)
    exact (le_of_level hs hl (hvars ▸ hw)).eq_or_lt.imp_right fun hlt => .inr ⟨hmem, hlt⟩

end

/-- A norm leaves the point as it is. -/
theorem same_of_norm (hrun : norm u p σ = .ok n τ) : Same σ.toPointState τ.toPointState := by
  induction u generalizing p σ with
  | zero =>
    obtain ⟨-, rfl⟩ := run_pure_eq_ok hrun
    exact .refl _
  | succ u ih =>
    rw [norm, run_get_bind] at hrun
    rcases hget : σ.point.get? u with _ | r | a <;> rw [hget] at hrun
    · exact ih hrun
    · exact ih hrun
    · simp only at hrun
      split_ifs at hrun
      · obtain ⟨r, σ₁, hcall, hrest⟩ := run_bind_eq_ok hrun
        exact (same_of_algebraically hcall).2.trans (ih hrest)
      · exact ih hrun

/-- A norm has one variable left, and if it vanishes, the polynomial vanishes identically over a point at
which the levels of all variables vanish. -/
theorem norm_spec (hs : σ.point.Triangular) (hT : Levelled σ.point T) (huv : u ≤ v)
    (hp : p.VarsIn (insert v (T.filter (· < u)))) (hrun : norm u p σ = .ok n τ) :
    n.VarsIn {v} ∧ (n.toMv = 0 → ∃ z, VanishBelow σ.point T u z ∧ p.fiber v z = 0) := by
  induction u generalizing p σ with
  | zero =>
    obtain ⟨rfl, rfl⟩ := run_pure_eq_ok hrun
    refine ⟨by simpa using hp, fun h0 => ⟨0, fun w _ hw => absurd hw (Nat.not_lt_zero w), ?_⟩⟩
    rw [Poly.fiber, Poly.value, h0, map_zero]
  | succ u ih =>
    -- the norm of a polynomial without the variable
    have hskip : u ∉ p.toMv.vars → norm u p σ = .ok n τ → n.VarsIn {v} ∧
        (n.toMv = 0 → ∃ z, VanishBelow σ.point T (u + 1) z ∧ p.fiber v z = 0) := fun hu hrun => by
      obtain ⟨hn, hzero⟩ := ih hs hT (by omega) (varsIn_of_notMem hp hu) hrun
      exact ⟨hn, fun h0 => exists_conjugate_of_notMem hs hu (hzero h0)⟩
    -- a variable that occurs has a level
    have hlevel : u ∈ p.toMv.vars → ∃ l, level σ.point u = .ok l ∧ l.defining.toMv.vars ⊆ T :=
      fun hu => by
        have hmem := hp hu
        simp only [Finset.mem_insert, Finset.mem_filter] at hmem
        exact hT u (hmem.resolve_left (by omega)).1
    have halgebraic : u ∈ p.toMv.vars → ∃ a, σ.point.get? u = some (.algebraic a) := fun hu => by
      obtain ⟨l, hl, -⟩ := hlevel hu
      obtain ⟨a, ha, -⟩ := fiber_of_level hl 0
      exact ⟨a, ha⟩
    rw [norm, run_get_bind] at hrun
    rcases hget : σ.point.get? u with _ | r | a <;> rw [hget] at hrun
    · refine hskip (fun hu => ?_) hrun
      obtain ⟨a, ha⟩ := halgebraic hu
      cases hget.symm.trans ha
    · refine hskip (fun hu => ?_) hrun
      obtain ⟨a, ha⟩ := halgebraic hu
      cases hget.symm.trans ha
    · simp only at hrun
      split_ifs at hrun with hc
      · have hu := Poly.containsVar_iff.1 hc
        obtain ⟨l, hl, hlT⟩ := hlevel hu
        obtain ⟨r, σ₁, hcall, hrest⟩ := run_bind_eq_ok hrun
        obtain ⟨⟨t, hres⟩, hsame⟩ := same_of_algebraically hcall
        have hres := AlgebraSystem.call_eq_ok hres
        have hr := varsIn_resultant hs hget hl hres hp hlT
        obtain ⟨hn, hzero⟩ :=
          ih (hsame.point.symm ▸ hs) (hsame.point.symm ▸ hT) (by omega) hr hrest
        refine ⟨hn, fun h0 => ?_⟩
        have hz := hzero h0
        rw [hsame.point] at hz
        exact exists_conjugate_of_resultant hs hget hl hres (by omega) hu hz
      · exact hskip (Poly.containsVar_eq_false_iff.1 (by simpa using hc)) hrun

end Stack

end Cylindrical

end
