import Mathlib
import Cylindrical.Proofs.Failure
import Cylindrical.Proofs.Stack.Norm

/-!
# Tests of coefficients

Each coefficient is tested over a tower of its own, and all levels come from the same point.  A test
that replaces no defining polynomial settles for all conjugates of the point at once whether the
coefficient vanishes, so the tests either end with a replacement or settle all coefficients.
-/

noncomputable section

namespace Cylindrical

/-! ## The levels under several polynomials -/

theorem Poly.exists_mem_vars_coeffs {v w : ℕ} {p : Poly} (hne : w ≠ v) (hw : w ∈ p.toMv.vars) :
    ∃ c ∈ p.coeffs v, w ∈ c.toMv.vars := by
  classical
  rw [toMv_eq_sum_coeff v p] at hw
  obtain ⟨k, hk, hw⟩ := Finset.mem_biUnion.1 (MvPolynomial.vars_sum_subset _ _ hw)
  refine ⟨p.coeff v k, List.mem_map.2 ⟨k, List.mem_range.2 (Finset.mem_range.1 hk), rfl⟩, ?_⟩
  refine (Finset.mem_union.1 (MvPolynomial.vars_mul _ _ hw)).resolve_right fun hX => hne ?_
  simpa using MvPolynomial.vars_pow _ _ hX

namespace Tower

variable {s : SamplePoint} {T U : Finset ℕ} {t : Tower} {c : Poly} {cs : List Poly} {v : ℕ}
  {z : ℕ → ℂ}

theorem levelled_of_ofPoly (ht : ofPoly c s = .ok t) : Levelled s (varsOf t.levels) := by
  obtain ⟨-, hlevel, hclosed, -⟩ := ofPoly_eq_ok ht
  intro w hw
  obtain ⟨l, hl, rfl⟩ := mem_varsOf.1 hw
  exact ⟨l, hlevel l hl, hclosed l hl⟩

theorem Levelled.union (hT : Levelled s T) (hU : Levelled s U) : Levelled s (T ∪ U) := by
  intro w hw
  obtain hw | hw := Finset.mem_union.1 hw
  · obtain ⟨l, hl, hsub⟩ := hT w hw
    exact ⟨l, hl, hsub.trans Finset.subset_union_left⟩
  · obtain ⟨l, hl, hsub⟩ := hU w hw
    exact ⟨l, hl, hsub.trans Finset.subset_union_right⟩

theorem exists_levelled (h : ∀ c ∈ cs, ∃ t, ofPoly c s = .ok t) :
    ∃ T, Levelled s T ∧ ∀ c ∈ cs, ∀ t, ofPoly c s = .ok t → varsOf t.levels ⊆ T := by
  induction cs with
  | nil => exact ⟨∅, by simp [Levelled], by simp⟩
  | cons c cs ih =>
    obtain ⟨T, hT, hsub⟩ := ih fun d hd => h d (.tail _ hd)
    obtain ⟨t, ht⟩ := h c (.head _)
    refine ⟨varsOf t.levels ∪ T, (levelled_of_ofPoly ht).union hT, fun d hd u hu => ?_⟩
    obtain rfl | hd := List.mem_cons.1 hd
    · obtain rfl := Except.ok.inj (ht.symm.trans hu)
      exact Finset.subset_union_left
    · exact (hsub d hd u hu).trans Finset.subset_union_right

/-- Where the levels of all variables vanish, so does the tower under a polynomial. -/
theorem VanishBelow.vanishesAt (hs : s.Triangular) (hsize : s.size ≤ Poly.reservedVar)
    (hv : s.size ≤ v) (hz : VanishBelow s T v z) (ht : ofPoly c s = .ok t)
    (hT : varsOf t.levels ⊆ T) : t.VanishesAt z := by
  obtain ⟨hbuilt, -⟩ := built_of_ofPoly hs ht
  obtain ⟨-, hlevel, -, -⟩ := ofPoly_eq_ok ht
  have hlt : ∀ l ∈ t.levels, l.var < s.size := fun l hl => by
    obtain ⟨a, ha⟩ := hbuilt.level l hl
    exact SamplePoint.lt_size_of_get? ha.get?
  exact {
    ordered := hbuilt.ordered
    closed := hbuilt.closed
    value_eq_zero := fun l hl => hz l.var (hT (mem_varsOf.2 ⟨l, hl, rfl⟩))
      ((hlt l hl).trans_le hv) l (hlevel l hl)
    lt_reserved := fun l hl => (hlt l hl).trans_le hsize }

end Tower

/-! ## Tests of the coefficients -/

namespace Stack

open Tower ZeroTest

variable {zero : ZeroTest.Config} {σ τ υ : StackState} {x : ℕ → ℝ} {c : Poly} {cs : List Poly}
  {b : Bool}

theorem vanishes_eq_ok (hrun : vanishes zero c σ = .ok b τ) :
    vanishesAt zero c σ.toPointState = .ok b τ.toPointState := by
  rw [vanishes, atPoint] at hrun
  obtain ⟨ρ, hρ, rfl⟩ := run_focus_eq_ok hrun
  exact hρ

/-- A polynomial has been tested, and vanishes at the conjugates of the point exactly if it vanishes at
the point. -/
def Settled (s : SamplePoint) (x : ℕ → ℝ) (c : Poly) : Prop :=
  ∃ t, Tower.ofPoly c s = .ok t ∧ ∀ z : ℕ → ℂ, t.VanishesAt z → (c.value z = 0 ↔ c.value x = 0)

theorem settled_of_isNumber (hc : c.isNumber = true) : Settled σ.point x c :=
  ⟨_, ofPoly_of_isNumber hc, fun z _ => by
    rw [← Poly.isZero_iff_of_isNumber hc, ← Poly.isZero_iff_of_isNumber hc]⟩

/-- A test replaces a defining polynomial, or it settles the question for all conjugates. -/
theorem replaced_or_settled (hs : σ.point.Sound x) (hc : σ.point.substituteKnown c = c)
    (hrun : vanishes zero c σ = .ok b τ) : Replaced σ.toPointState τ.toPointState ∨
      Same σ.toPointState τ.toPointState ∧ Settled σ.point x c := by
  have hrun := vanishes_eq_ok hrun
  rcases vanishesAt_answers hs.denotes.triangular hs.exact.size_le hrun with h | ⟨t, ht, h⟩
  · exact .inl h
  · have hb := (vanishesAt_spec hs hrun).2
    rw [hc] at ht h hb
    refine .inr ⟨h.same, t, ht, fun z hz => ?_⟩
    rw [← hb, (h.settles z hz).iff b rfl]

/-- A coefficient is passed over, or its test replaces a defining polynomial and is the last one, or the
tests go on after it. -/
theorem splitTower_cons_eq_ok (hrun : splitTower zero (c :: cs) σ = .ok b τ) :
    c.isNumber = true ∧ splitTower zero cs σ = .ok b τ ∨
      ∃ b' σ₁, vanishes zero c σ = .ok b' σ₁ ∧
        if σ.stats.replacements < σ₁.stats.replacements then
          b = true ∧ τ.toPointState = σ₁.toPointState
        else splitTower zero cs σ₁ = .ok b τ := by
  rw [splitTower] at hrun
  split_ifs at hrun with hnum
  · exact .inl ⟨hnum, hrun⟩
  · rw [run_get_bind] at hrun
    obtain ⟨b', σ₁, hvanishes, hrun⟩ := run_bind_eq_ok hrun
    rw [run_get_bind] at hrun
    refine .inr ⟨b', σ₁, hvanishes, ?_⟩
    split_ifs at hrun ⊢
    · cases hrun
      exact ⟨rfl, rfl⟩
    · exact hrun

/-- The tests of the coefficients end with a replacement, or all of them have been settled. -/
theorem splitTower_eq_ok (hs : σ.point.Sound x) (hcs : ∀ c ∈ cs, σ.point.substituteKnown c = c)
    (hrun : splitTower zero cs σ = .ok b τ) :
    b = true ∧ Replaced σ.toPointState τ.toPointState ∨ ∀ c ∈ cs, Settled σ.point x c := by
  induction cs generalizing σ with
  | nil => exact .inr (by simp)
  | cons c cs ih =>
    obtain ⟨hnum, hrun⟩ | ⟨b', σ₁, hvanishes, hrun⟩ := splitTower_cons_eq_ok hrun
    · refine (ih hs (fun d hd => hcs d (.tail _ hd)) hrun).imp_right fun h => ?_
      exact List.forall_mem_cons.2 ⟨settled_of_isNumber hnum, h⟩
    · rcases replaced_or_settled hs (hcs c (.head _)) hvanishes with h | ⟨h, hsettled⟩
      · rw [if_pos h.replacements] at hrun
        exact .inl ⟨hrun.1, hrun.2 ▸ h⟩
      · rw [if_neg (h.replacements ▸ lt_irrefl _)] at hrun
        have hpoint : σ₁.point = σ.point := h.point
        rw [← hpoint] at hs hcs hsettled ⊢
        refine (ih hs (fun d hd => hcs d (.tail _ hd)) hrun).imp ?_ fun hall => ?_
        · exact fun ⟨hb, hr⟩ => ⟨hb, .of_same h hr⟩
        · exact List.forall_mem_cons.2 ⟨hsettled, hall⟩

/-- If the tests of the coefficients fail, one of them does. -/
theorem splitTower_eq_error {e : DecompositionError} (hrun : splitTower zero cs σ = .error e τ) :
    ∃ c ∈ cs, ∃ ρ, vanishes zero c ρ = .error e τ := by
  induction cs generalizing σ with
  | nil => cases hrun
  | cons c cs ih =>
    have htail : ∀ {ρ : StackState}, splitTower zero cs ρ = .error e τ →
        ∃ d ∈ c :: cs, ∃ ρ, vanishes zero d ρ = .error e τ := fun h => by
      obtain ⟨d, hd, hrun⟩ := ih h
      exact ⟨d, .tail _ hd, hrun⟩
    rw [splitTower] at hrun
    split_ifs at hrun
    · exact htail hrun
    · rw [run_get_bind] at hrun
      obtain h | ⟨b', σ₁, -, h₁⟩ := run_bind_eq_error hrun
      · exact ⟨c, .head _, σ, h⟩
      · rw [run_get_bind] at h₁
        split_ifs at h₁
        · cases h₁
        · exact htail h₁

/-- What tests do to the point, the tests of the coefficients do. -/
theorem tracks_splitTower {Inv : SamplePoint → Prop} {R : SamplePoint → SamplePoint → Prop}
    (hR : Tracks Inv R) (hσ : Inv σ.point) (hrun : splitTower zero cs σ = .ok b τ) :
    R σ.point τ.point := by
  induction cs generalizing σ with
  | nil =>
    cases hrun
    exact hR.refl hσ
  | cons c cs ih =>
    obtain ⟨-, hrun⟩ | ⟨b', σ₁, hvanishes, hrun⟩ := splitTower_cons_eq_ok hrun
    · exact ih hσ hrun
    · have hstep := (hR.ends_vanishesAt hσ).of_ok (vanishes_eq_ok hvanishes)
      split_ifs at hrun
      · rw [hrun.2]
        exact hstep
      · exact hR.trans hstep (ih (hR.inv hσ hstep) hrun)

end Stack

end Cylindrical

end
