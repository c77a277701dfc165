import Mathlib
import Cylindrical.Proofs.Sample.Replacement

/-!
# Factors of a level

A proper factor of the defining polynomial of a level and its cofactor are monic in the variable of the
level, and their fibers multiply to that of the level.  One of them vanishes at the point; enclosures
tell which, and it becomes the new defining polynomial.
-/

noncomputable section

namespace Cylindrical

namespace Poly

/-- All exponents count as they are. -/
def ExponentsCount (p : Poly) : Prop := ∀ v, p.degreeOf v < Nat.pow 2 31

theorem ExponentsCount.congr {p q : Poly} (h : p.ExponentsCount) (hq : q.toMv = p.toMv) :
    q.ExponentsCount := fun v => by
  rw [degreeOf_eq, hq, ← degreeOf_eq]
  exact h v

end Poly

namespace Tower

variable {t : Tower} {s : SamplePoint} {x : ℕ → ℝ} {i : ℕ} {l : TowerLevel} {f : Poly}

/-! ## Levels up to a position -/

theorem mem_take_of_var_le {ls : List TowerLevel} (h : ls.Pairwise fun k l => k.var < l.var)
    {n : ℕ} {k l : TowerLevel} (hk : k ∈ ls) (hl : l ∈ ls.take n) (hle : k.var ≤ l.var) :
    k ∈ ls.take n := by
  induction ls generalizing n with
  | nil => cases hk
  | cons j ls ih =>
    cases n with
    | zero => simp at hl
    | succ n =>
      obtain ⟨hj, hls⟩ := List.pairwise_cons.1 h
      rw [List.take_succ_cons] at hl ⊢
      rcases List.mem_cons.1 hk with rfl | hk'
      · exact .head _
      · rcases List.mem_cons.1 hl with rfl | hl'
        · exact absurd hle (hj k hk').not_ge
        · exact .tail _ (ih hls hk' hl')

theorem mem_take_succ (hl : t.levels[i]? = some l) : l ∈ t.levels.take (i + 1) := by
  rw [List.take_add_one, hl]
  exact List.mem_append_right _ (.head _)

theorem var_lt_of_mem_take (ht : Ordered t.levels) (hl : t.levels[i]? = some l) {k : TowerLevel}
    (hk : k ∈ t.levels.take i) : k.var < l.var := by
  have h := ht.increasing
  rw [← List.take_append_drop i t.levels, List.pairwise_append] at h
  refine h.2.2 k hk l (List.mem_of_getElem? (i := 0) ?_)
  rwa [List.getElem?_drop, Nat.add_zero]

theorem var_le_of_mem_take (ht : Ordered t.levels) (hl : t.levels[i]? = some l) {k : TowerLevel}
    (hk : k ∈ t.levels.take (i + 1)) : k.var ≤ l.var := by
  rw [List.take_add_one, hl] at hk
  rcases List.mem_append.1 hk with hk | hk
  · exact (var_lt_of_mem_take ht hl hk).le
  · obtain rfl := List.mem_singleton.1 hk
    exact le_rfl

theorem le_of_mem_varsOf_take (ht : Ordered t.levels) (hl : t.levels[i]? = some l) {w : ℕ}
    (hw : w ∈ varsOf (t.levels.take (i + 1))) : w ≤ l.var := by
  obtain ⟨k, hk, rfl⟩ := mem_varsOf.1 hw
  exact var_le_of_mem_take ht hl hk

theorem vars_subset_take (ht : Ordered t.levels) (hc : Closed t.levels) {n : ℕ} {k : TowerLevel}
    (hk : k ∈ t.levels.take n) : k.defining.toMv.vars ⊆ varsOf (t.levels.take n) := by
  intro w hw
  have hkt := List.mem_of_mem_take hk
  obtain ⟨j, hj, rfl⟩ := mem_varsOf.1 (hc k hkt hw)
  exact mem_varsOf.2 ⟨j, mem_take_of_var_le ht.increasing hj hk ((ht.monic k hkt).vars_le _ hw), rfl⟩

theorem mem_varsThrough {w : ℕ} : w ∈ t.varsThrough i ↔ w ∈ varsOf (t.levels.take (i + 1)) := by
  rw [varsThrough, varsOf, List.mem_toFinset]

/-! ## Factors and cofactors -/

/-- A factor of the defining polynomial of level `i`: monic of a smaller degree, in the variables of
the levels up to `i`. -/
structure FactorOf (t : Tower) (i : ℕ) (l : TowerLevel) (f : Poly) : Prop where
  level : t.levels[i]? = some l
  monic : f.MonicIn l.var (f.degreeOf l.var)
  degree_lt : f.degreeOf l.var < l.defining.degreeOf l.var
  vars : f.toMv.vars ⊆ varsOf (t.levels.take (i + 1))

theorem FactorOf.congr (hf : FactorOf t i l f) {g : Poly} (h : g.toMv = f.toMv) :
    FactorOf t i l g := by
  have hdeg : g.degreeOf l.var = f.degreeOf l.var := by
    rw [Poly.degreeOf_eq, h, ← Poly.degreeOf_eq]
  exact ⟨hf.level, hdeg ▸ hf.monic.congr h, hdeg ▸ hf.degree_lt, h ▸ hf.vars⟩

/-- What the check for a factor establishes. -/
theorem factorOf_of_isProperFactor (hl : t.levels[i]? = some l) (h : t.isProperFactor i f = true) :
    FactorOf t i l f ∧ (t.divRem l.var i l.defining f).2.toMv = 0 := by
  rw [isProperFactor, hl] at h
  simp only [Bool.and_eq_true, bne_iff_ne, decide_eq_true_eq] at h
  obtain ⟨⟨⟨⟨h0, hlt⟩, hone⟩, hvars⟩, hrem⟩ := h
  refine ⟨⟨hl, Poly.MonicIn.of_leadingCoeffOf rfl h0 (Poly.isOne_iff.1 hone), hlt, fun w hw => ?_⟩,
    Poly.toMv_eq_zero_of_isZero hrem⟩
  rw [← mem_varsThrough]
  simpa using List.all_eq_true.1 hvars w (Poly.mem_vars_iff.2 hw)

/-- The cofactor is monic of the complementary degree. -/
theorem FactorOf.monicIn_cofactor (hf : FactorOf t i l f) (ht : Ordered t.levels) :
    (t.divRem l.var i l.defining f).1.MonicIn l.var
      (l.defining.degreeOf l.var - f.degreeOf l.var) :=
  monicIn_divRem ht (fun _ hk => var_lt_of_mem_take ht hf.level hk)
    (ht.monic l (List.mem_of_mem_take (mem_take_succ hf.level))).monicIn hf.monic hf.degree_lt

/-- The cofactor is one of the same kind. -/
theorem FactorOf.cofactor (hf : FactorOf t i l f) (ht : Ordered t.levels) (hc : Closed t.levels) :
    FactorOf t i l (t.divRem l.var i l.defining f).1 := by
  have hpos := hf.monic.pos
  have hl := mem_take_succ hf.level
  have hquot := hf.monicIn_cofactor ht
  have hdeg := hquot.degreeOf_eq
  have hlt := hf.degree_lt
  refine ⟨hf.level, hdeg.symm ▸ hquot, by omega, vars_divRem_subset ht (fun k hk => ?_)
    hf.vars (mem_varsOf.2 ⟨l, hl, rfl⟩) (vars_subset_take ht hc hl)⟩
  exact vars_subset_take ht hc ((List.take_prefix_take_left (Nat.le_succ i)).subset hk)

section

variable (ht : t.Over s x) (hf : FactorOf t i l f)

include ht hf

/-- The fibers of factor and cofactor multiply to that of the level. -/
theorem FactorOf.fiber_eq (hrem : (t.divRem l.var i l.defining f).2.toMv = 0) :
    l.defining.fiber l.var x =
      (t.divRem l.var i l.defining f).1.fiber l.var x * f.fiber l.var x := by
  have hlow : ∀ k ∈ t.levels.take i, k.defining.value (Poly.openAt l.var x) = 0 := by
    intro k hk
    have hmem := List.mem_of_mem_take hk
    obtain ⟨a, ha⟩ := ht.level k hmem
    have hlt := var_lt_of_mem_take ht.ordered hf.level hk
    have hnot : l.var ∉ k.defining.toMv.vars := fun hw =>
      ((ht.ordered.monic k hmem).vars_le _ hw).not_gt hlt
    exact (Poly.fiber_of_notMem hnot x).trans (by rw [ha.value_eq_zero, Polynomial.C_0])
  have h := value_divRem (v := l.var) (d := f) hlow l.defining
  rwa [Poly.value_of_isZero _ (Poly.toMv_eq_zero_iff.1 hrem), add_zero] at h

/-- At the point one of factor and cofactor vanishes. -/
theorem FactorOf.value_mul_eq_zero (hrem : (t.divRem l.var i l.defining f).2.toMv = 0) :
    f.value x * (t.divRem l.var i l.defining f).1.value x = 0 := by
  have h := congrArg (Polynomial.eval (x l.var)) (hf.fiber_eq ht hrem)
  rw [Polynomial.eval_mul, Poly.eval_fiber, Poly.eval_fiber, Poly.eval_fiber,
    Function.update_eq_self] at h
  obtain ⟨a, ha⟩ := ht.level l (List.mem_of_mem_take (mem_take_succ hf.level))
  rw [mul_comm, ← h, ha.value_eq_zero]

/-- A factor that vanishes may become the defining polynomial. -/
theorem FactorOf.redefines (hdvd : f.fiber l.var x ∣ l.defining.fiber l.var x)
    (hzero : f.value x = 0) : Redefines s x l f where
  vars_le w hw := le_of_mem_varsOf_take ht.ordered hf.level (hf.vars hw)
  vars_not_known w hw c hc hk := by
    obtain ⟨k, hk', rfl⟩ := mem_varsOf.1 (hf.vars hw)
    obtain ⟨a, ha⟩ := ht.level k (List.mem_of_mem_take hk')
    obtain rfl := Option.some.inj (hc.symm.trans ha.get?)
    exact ha.not_known hk
  value_eq_zero := hzero
  fiber_dvd := hdvd
  degree_le := hf.degree_lt.le

/-- The exponents of a factor count, if those of the lower variables do. -/
theorem FactorOf.exponentsCount (he : s.Exact)
    (hlow : ∀ w, w ≠ l.var → f.degreeOf w < Nat.pow 2 31) : f.ExponentsCount := fun w => by
  by_cases hw : w = l.var
  · subst hw
    exact hf.degree_lt.trans_le
      (ht.degreeOf_le he l (List.mem_of_mem_take (mem_take_succ hf.level)))
  · exact hlow w hw

theorem FactorOf.exponentsCount_cofactor (he : s.Exact) :
    (t.divRem l.var i l.defining f).1.ExponentsCount := by
  have hco := hf.cofactor ht.ordered ht.closed
  refine hco.exponentsCount ht he fun w hw => ?_
  by_cases hmem : w ∈ (t.divRem l.var i l.defining f).1.toMv.vars
  · obtain ⟨k, hk, rfl⟩ := mem_varsOf.1 (hco.vars hmem)
    rw [List.take_add_one, hf.level] at hk
    rcases List.mem_append.1 hk with hk | hk
    · exact (degreeOf_divRem_lt ht.ordered _ hk).trans_le
        (ht.degreeOf_le he k (List.mem_of_mem_take hk))
    · exact absurd (by rw [List.mem_singleton.1 hk]) hw
  · rw [Poly.degreeOf_eq_zero_iff.2 hmem]
    exact Nat.pow_pos (by omega)

end

end Tower

namespace ZeroTest

open Tower

variable {cfg : Config} {σ τ : PointState} {x : ℕ → ℝ}

/-! ## Separation by enclosures -/

theorem ne_zero_of_enclosure {prec : ℕ} {p : Poly} {i : Interval} (hs : σ.point.Denotes x)
    (hp : p.ExponentsCount) (h : enclosure prec p σ = .ok i τ) (hi : i.containsZero = false) :
    p.value x ≠ 0 := by
  intro h0
  have henc := Interval.encloses_of_evalPoly? hs.encloses hp (enclosure_eq_ok h).1
  rw [h0] at henc
  rw [henc.containsZero] at hi
  cases hi

theorem pickVanishing_spec {g h : Poly} (hg : g.ExponentsCount) (hh : h.ExponentsCount)
    (hgh : g.value x * h.value x = 0) {vars : List ℕ} (rounds round : ℕ) {b : Bool}
    (hs : σ.point.Denotes x) (hrun : pickVanishing cfg g h vars rounds round σ = .ok b τ) :
    τ.point.Refines σ.point ∧ if b then g.value x = 0 else h.value x = 0 := by
  induction rounds generalizing round σ with
  | zero => cases hrun
  | succ rounds ih =>
    rw [pickVanishing] at hrun
    obtain ⟨_, σ₁, hσ₁, h₁⟩ := run_bind_eq_ok hrun
    obtain ⟨i, σ₂, hi, h₂⟩ := run_bind_eq_ok h₁
    obtain ⟨j, σ₃, hj, h₃⟩ := run_bind_eq_ok h₂
    have href := refineTo_eq_ok hσ₁
    have hs₁ := hs.of_refines href
    obtain ⟨-, rfl⟩ := enclosure_eq_ok hi
    obtain ⟨-, rfl⟩ := enclosure_eq_ok hj
    cases hci : i.containsZero <;> cases hcj : j.containsZero <;> rw [hci, hcj] at h₃
    · cases h₃
    · obtain ⟨rfl, rfl⟩ := run_pure_eq_ok h₃
      exact ⟨href, (mul_eq_zero.1 hgh).resolve_left (ne_zero_of_enclosure hs₁ hg hi hci)⟩
    · obtain ⟨rfl, rfl⟩ := run_pure_eq_ok h₃
      exact ⟨href, (mul_eq_zero.1 hgh).resolve_right (ne_zero_of_enclosure hs₁ hh hj hcj)⟩
    · obtain ⟨hτ, hb⟩ := ih _ hs₁ h₃
      exact ⟨hτ.trans href, hb⟩

/-- The one of two factors that vanishes becomes the defining polynomial. -/
theorem resolve_spec {t : Tower} {i : ℕ} {l : TowerLevel} {g h : Poly} (hs : σ.point.Sound x)
    (hl : ∃ a, LevelOver σ.point x l a) (hg : g.ExponentsCount) (hh : h.ExponentsCount)
    (hgh : g.value x * h.value x = 0)
    (hgr : g.value x = 0 → Redefines σ.point x l g) (hhr : h.value x = 0 → Redefines σ.point x l h)
    {b : Bool} (hrun : resolve cfg t i l.var g h σ = .ok b τ) :
    σ.point.Evolves x τ.point ∧ if b then g.value x = 0 else h.value x = 0 := by
  rw [resolve] at hrun
  obtain ⟨c, σ₁, hpick, hrun⟩ := run_bind_eq_ok hrun
  obtain ⟨_, σ₂, hrep, hrun⟩ := run_bind_eq_ok hrun
  obtain ⟨rfl, rfl⟩ := run_pure_eq_ok hrun
  obtain ⟨href, hzero⟩ := pickVanishing_spec hg hh hgh _ _ hs.denotes hpick
  have hev := SamplePoint.Evolves.of_refines hs href
  obtain ⟨a, ha⟩ := hl
  obtain ⟨a', ha'⟩ := ha.of_refines href
  refine ⟨hev.trans ?_, hzero⟩
  rw [replace_eq_ok ha'.get? hrep]
  refine evolves_redefine hev.sound ha' ?_
  cases b
  · exact (hhr hzero).of_refines href
  · exact (hgr hzero).of_refines href

end ZeroTest

end Cylindrical

end
