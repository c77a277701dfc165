import Mathlib
import Cylindrical.Proofs.Sample.OneLevel
import Cylindrical.Proofs.Sample.SeveralLevels

/-!
# The zero test

Remainders modulo the tower keep the value of a polynomial in which the known coordinates have been put,
so an attempt is right if the test of the remainder is.  What it leaves behind is a point at which this
value is the same, and the next attempt is right too.  The value is that of the polynomial itself as
long as rational coordinates are put in at powers below `2 ^ 31`.
-/

noncomputable section

namespace Cylindrical

namespace Poly

variable {K : Type*} [Field K] [RationalAlgebra K] {p : Poly} {x : ℕ → K}

theorem isZero_iff_of_isNumber (h : p.isNumber = true) : p.isZero = true ↔ p.value x = 0 := by
  rw [← toMv_eq_zero_iff, value, toMv_of_isNumber h, MvPolynomial.aeval_C, map_eq_zero_iff _
    (MvPolynomial.C_injective ℕ ℚ), map_eq_zero_iff _ (algebraMap ℚ K).injective]

theorem toMv_ne_zero_of_mainVar? {v : ℕ} (h : p.mainVar? = some v) : p.toMv ≠ 0 := fun h0 => by
  have hnum : p.isNumber = true := isNumber_iff.2 ⟨0, by rw [h0, MvPolynomial.C_0]⟩
  rw [mainVar?_eq_none_iff.2 hnum] at h
  cases h

end Poly

namespace SamplePoint

variable {s : SamplePoint} {x : ℕ → ℝ} {p : Poly}

/-- Known coordinates in a polynomial keep its value. -/
theorem value_substituteKnown (hs : s.Denotes x) (hp : s.Fits p) :
    (s.substituteKnown p).value x = p.value x :=
  value_substituteKnown_of_holds hs.triangular hp fun v c hc =>
    Tower.holdsUpTo_of_denotes hs v v c hc le_rfl

theorem relations_ofCoords (s : SamplePoint) : (ofCoords s.coords).relations = s.relations := rfl

theorem Sound.ofCoords (h : s.Sound x) : (ofCoords s.coords).Sound x where
  denotes v c hc := h.denotes v c (by rwa [get?_ofCoords_coords] at hc)
  exact := h.exact.congr s.relations_ofCoords

theorem substituteKnown_ofCoords (s : SamplePoint) (p : Poly) :
    (ofCoords s.coords).substituteKnown p = s.substituteKnown p :=
  substituteFrom_congr s.relations_ofCoords 0 p

end SamplePoint

namespace Tower

variable {s : SamplePoint} {x : ℕ → ℝ} {t : Tower} {v i : ℕ}

theorem levelOf?_eq_some (h : t.levelOf? v = some i) : ∃ l, t.levels[i]? = some l ∧ l.var = v := by
  rw [levelOf?, List.findIdx?_eq_some_iff_getElem] at h
  obtain ⟨hi, hv, -⟩ := h
  exact ⟨t.levels[i], List.getElem?_eq_getElem hi, by simpa using hv⟩

theorem Over.vars_lt (h : t.Over s x) (he : s.Exact) {l : TowerLevel} (hl : l ∈ t.levels) :
    l.var < Poly.reservedVar := (h.vanishesAt he).lt_reserved l hl

/-- The remainder modulo a tower that has all variables of a polynomial. -/
theorem reduce_spec (h : t.Over s x) {q : Poly} (hq : q.toMv.vars ⊆ varsOf t.levels) :
    (t.reduce q).value x = q.value x ∧ (t.reduce q).toMv.vars ⊆ varsOf t.levels := by
  rw [reduce, reduceBelow, List.take_length]
  refine ⟨value_foldr_remainder (fun l hl => ?_) q,
    vars_foldr_remainder_subset h.ordered h.closed hq⟩
  obtain ⟨a, ha⟩ := h.level l hl
  exact ha.value_eq_zero

end Tower

namespace ZeroTest

open Tower

variable {cfg : Config} {σ τ : PointState} {x : ℕ → ℝ} {p : Poly} {b : Bool}

section

variable {K : Type*} [Field K] [RationalAlgebra K] {z : ℕ → K}

theorem Settles.congr {p q : Poly} {o : Outcome} (h : Settles z q o) (hpq : q.value z = p.value z) :
    Settles z p o where
  iff b hb := by
    rw [← hpq]
    exact h.iff b hb

theorem settles_isZero (h : p.isNumber = true) : Settles z p (.decided p.isZero) where
  iff b hb := by
    obtain rfl := Outcome.decided.inj hb
    exact Poly.isZero_iff_of_isNumber h

end

/-- What a successful attempt did on the polynomial `q`, in which the known coordinates are put. -/
inductive AttemptStep (cfg : Config) (σ τ : PointState) (q : Poly) (o : Outcome) : Prop
  | known (hq : q.isNumber = true) (ho : o = .decided q.isZero) (hτ : τ = σ)
  | reduced {t : Tower} (ht : Tower.ofPoly q σ.point = .ok t) (hr : (t.reduce q).isNumber = true)
      (ho : o = .decided (t.reduce q).isZero) (hτ : τ = σ)
  | overOnly {t : Tower} {v : ℕ} {l : TowerLevel} (ht : Tower.ofPoly q σ.point = .ok t)
      (hv : (t.reduce q).mainVar? = some v) (hls : t.levels = [l])
      (hrun : overOne l (t.reduce q) σ = .ok o τ)
  | overLevel {t : Tower} {v i : ℕ} {l : TowerLevel} {u : Unit} {υ : PointState}
      (ht : Tower.ofPoly q σ.point = .ok t) (hv : (t.reduce q).mainVar? = some v)
      (hl : t.levels[i]? = some l) (hlv : l.var = v)
      (hcount : count (fun s => { s with severalLevels := s.severalLevels + 1 }) σ = .ok u υ)
      (hrun : overSeveral cfg t i l (t.reduce q) (Residue.primes.take cfg.maxPrimes) none
        (fun _ => (none, none)) υ = .ok o τ)

theorem attempt_eq_ok {o : Outcome} (hrun : attempt cfg p σ = .ok o τ) :
    AttemptStep cfg σ τ (σ.point.substituteKnown p) o := by
  rw [attempt, run_get_bind] at hrun
  generalize σ.point.substituteKnown p = q at hrun ⊢
  split_ifs at hrun with hnum
  · obtain ⟨ho, hτ⟩ := run_pure_eq_ok hrun
    exact .known hnum ho hτ
  · obtain ⟨t, σ₁, hlift, h₁⟩ := run_bind_eq_ok hrun
    obtain ⟨ht, rfl⟩ := run_lift_eq_ok hlift
    simp only at h₁
    cases hv : (t.reduce q).mainVar? with
    | none =>
      rw [hv] at h₁
      obtain ⟨ho, hτ⟩ := run_pure_eq_ok h₁
      exact .reduced ht (Poly.mainVar?_eq_none_iff.1 hv) ho hτ
    | some v =>
      rw [hv] at h₁
      simp only at h₁
      cases hi : t.levelOf? v with
      | none =>
        rw [hi] at h₁
        rcases hls : t.levels with _ | ⟨l, _ | ⟨k, ls⟩⟩ <;> rw [hls] at h₁
        · cases h₁
        · exact .overOnly ht hv hls h₁
        · cases h₁
      | some i =>
        obtain ⟨l, hl, hlv⟩ := levelOf?_eq_some hi
        rw [hi] at h₁
        rcases hls : t.levels with _ | ⟨k, _ | ⟨k', ls⟩⟩ <;> rw [hls] at h₁
        · rw [hls] at hl
          cases hl
        · exact .overOnly ht hv hls h₁
        · obtain ⟨_, σ₂, hcount, h₂⟩ := run_bind_eq_ok h₁
          rw [← hls, hl] at h₂
          exact .overLevel ht hv hl hlv hcount h₂

section

variable {t : Tower} (ht : t.Over σ.point x) {r : Poly} (hr : r.toMv.vars ⊆ varsOf t.levels) {v : ℕ}
  (hv : r.mainVar? = some v) {o : Outcome}

include ht hr hv

/-- The test of a remainder over the only level. -/
theorem overOnly_spec (hs : σ.point.Sound x) {l : TowerLevel} (hls : t.levels = [l])
    (hrun : overOne l r σ = .ok o τ) : σ.point.Evolves x τ.point ∧ Settles x r o := by
  have hl : l ∈ t.levels := hls ▸ .head _
  have hone : varsOf t.levels = {l.var} := by rw [hls]; rfl
  obtain ⟨a, ha⟩ := ht.level l hl
  have hdefining : ∀ w ∈ l.defining.toMv.vars, w = l.var := fun w hw =>
    Finset.mem_singleton.1 (hone ▸ ht.closed l hl hw)
  have hremainder : ∀ w ∈ r.toMv.vars, w = l.var := fun w hw =>
    Finset.mem_singleton.1 (hone ▸ hr hw)
  obtain ⟨hev, hiff⟩ := overOne_spec hs ha hdefining hremainder
    (Poly.toMv_ne_zero_of_mainVar? hv) hrun
  exact ⟨hev, ⟨hiff⟩⟩

/-- The test of a remainder over the level of its main variable. -/
theorem overLevel_spec (hs : σ.point.Sound x) {i : ℕ} {l : TowerLevel}
    (hl : t.levels[i]? = some l) (hlv : l.var = v)
    (hrun : overSeveral cfg t i l r (Residue.primes.take cfg.maxPrimes) none
      (fun _ => (none, none)) σ = .ok o τ) :
    σ.point.Evolves x τ.point ∧ Settles x r o := by
  have hreserved : Poly.reservedVar ∉ r.toMv.vars := fun hmem => by
    obtain ⟨l, hl, hlv⟩ := mem_varsOf.1 (hr hmem)
    exact (ht.vars_lt hs.exact hl).ne hlv
  refine overSeveral_spec (fun p hp => Residue.prime_of_mem_primes (List.mem_of_mem_take hp)) hs ht hl
    (fun w hw => ?_) imagesFit_none (fun _ _ _ => imagesFit_none) hrun
  rw [hlv]
  exact Poly.le_of_mainVar? hreserved hv hw

end

/-- An attempt that decides is right, and each attempt leaves a sound point. -/
theorem attempt_spec (hs : σ.point.Sound x) {o : Outcome} (hrun : attempt cfg p σ = .ok o τ) :
    σ.point.Evolves x τ.point ∧ Settles x (σ.point.substituteKnown p) o := by
  have hstep := attempt_eq_ok hrun
  generalize σ.point.substituteKnown p = q at hstep ⊢
  have hreduce : ∀ {t : Tower}, Tower.ofPoly q σ.point = .ok t → t.Over σ.point x ∧
      (t.reduce q).value x = q.value x ∧ (t.reduce q).toMv.vars ⊆ varsOf t.levels := fun ht => by
    obtain ⟨hover, hvars⟩ := ofPoly_spec hs.denotes hs.exact ht
    exact ⟨hover, reduce_spec hover hvars⟩
  cases hstep with
  | known hq ho hτ =>
    subst ho hτ
    exact ⟨.refl hs, settles_isZero hq⟩
  | reduced ht hr ho hτ =>
    subst ho hτ
    exact ⟨.refl hs, (settles_isZero hr).congr (hreduce ht).2.1⟩
  | overOnly ht hv hls hrun =>
    obtain ⟨hover, hvalue, hsub⟩ := hreduce ht
    exact (overOnly_spec hover hsub hv hs hls hrun).imp_right fun h => h.congr hvalue
  | overLevel ht hv hl hlv hcount hrun =>
    obtain ⟨hover, hvalue, hsub⟩ := hreduce ht
    have hpoint := count_eq_ok hcount
    rw [← hpoint] at hs hover ⊢
    exact (overLevel_spec hover hsub hv hs hl hlv hrun).imp_right fun h => h.congr hvalue

/-- The zero test with its restarts. -/
theorem attempts_spec {n : ℕ} (hs : σ.point.Sound x) (hrun : attempts cfg p n σ = .ok b τ) :
    σ.point.Evolves x τ.point ∧ (b = true ↔ (σ.point.substituteKnown p).value x = 0) := by
  induction n generalizing σ with
  | zero => cases hrun
  | succ n ih =>
    rw [attempts] at hrun
    obtain ⟨o, σ₁, hattempt, h₁⟩ := run_bind_eq_ok hrun
    obtain ⟨hev, hsettles⟩ := attempt_spec hs hattempt
    cases o with
    | decided c =>
      obtain ⟨rfl, rfl⟩ := run_pure_eq_ok h₁
      exact ⟨hev, hsettles.iff _ rfl⟩
    | replaced =>
      obtain ⟨hev', hb⟩ := ih hev.sound h₁
      rw [hev.value] at hb
      exact ⟨hev.trans hev', hb⟩

theorem vanishesAt_spec (hs : σ.point.Sound x) (hrun : vanishesAt cfg p σ = .ok b τ) :
    σ.point.Evolves x τ.point ∧ (b = true ↔ (σ.point.substituteKnown p).value x = 0) := by
  rw [vanishesAt] at hrun
  obtain ⟨_, σ₁, hcount, h₁⟩ := run_bind_eq_ok hrun
  rw [run_get_bind] at h₁
  have hσ₁ := count_eq_ok hcount
  rw [← hσ₁] at hs ⊢
  exact attempts_spec hs h₁

theorem onCopy_eq_ok {α : Type} {y : PointM α} {a : α} {cs : List (ℕ × Coordinate)}
    (h : onCopy y σ = .ok (a, cs) τ) :
    ∃ υ, y { σ with point := .ofCoords σ.point.coords } = .ok a υ ∧ cs = υ.point.changes ∧
      τ = { υ with point := σ.point } := by
  rw [onCopy] at h
  split at h
  · rename_i b υ hy
    cases h
    exact ⟨υ, hy, rfl, rfl⟩
  · cases h

end ZeroTest

/-! ## Square roots -/

theorem toReal_square (c : ℚ) :
    Univariate.toReal [-c, 0, 1] = Polynomial.X ^ 2 - Polynomial.C (c : ℝ) := by
  simp [Univariate.toReal, pow_two, sub_eq_add_neg]

/-- An interval on one side of zero isolates the square root in it. -/
theorem isolates_squareRoot {c : ℚ} {d : Poly} {s : Interval} {ξ : ℝ} (hc : c ≠ 0)
    (hξ : ξ ^ 2 = c) (hlo : (s.lo : ℝ) < ξ) (hhi : ξ < s.hi) (hs : 0 ≤ s.lo ∨ s.hi ≤ 0) :
    (AlgebraicNumber.ofRoot d [-c, 0, 1] s).Isolates ξ := by
  refine ⟨?_, hlo, hhi, ?_, fun y h₁ h₂ hy => ?_, rfl⟩
  · have h : Univariate.toPolynomial [-c, 0, 1] =
        (Polynomial.X ^ 2 - Polynomial.C c : Polynomial ℚ) := by
      simp [pow_two, sub_eq_add_neg]
    show Squarefree (Univariate.toPolynomial [-c, 0, 1])
    rw [h]
    exact (Polynomial.separable_X_pow_sub_C c (by norm_num) hc).squarefree
  · show (Univariate.toReal [-c, 0, 1]).IsRoot ξ
    rw [toReal_square]
    simp [hξ]
  · have hy : (Univariate.toReal [-c, 0, 1]).IsRoot y := hy
    rw [toReal_square] at hy
    have hy : y ^ 2 = c := by simpa [sub_eq_zero] using hy
    have hsq : (y - ξ) * (y + ξ) = 0 := by
      rw [← sub_eq_zero.2 (hy.trans hξ.symm)]
      ring
    -- the other square root has the other sign
    refine sub_eq_zero.1 ((mul_eq_zero.1 hsq).resolve_right fun h => ?_)
    have h₁ : (s.lo : ℝ) ≤ y := h₁
    have h₂ : y ≤ (s.hi : ℝ) := h₂
    obtain hs | hs := hs
    · have hs : (0 : ℝ) ≤ s.lo := by exact_mod_cast hs
      linarith
    · have hs : (s.hi : ℝ) ≤ 0 := by exact_mod_cast hs
      linarith

theorem denotes_squareRoot {v : ℕ} {c : ℚ} {s : Interval} {x : ℕ → ℝ} (hc : c ≠ 0)
    (hx : x v ^ 2 = c) (hlo : (s.lo : ℝ) < x v) (hhi : x v < s.hi) (hs : 0 ≤ s.lo ∨ s.hi ≤ 0) :
    (Coordinate.algebraic (.ofRoot (.ofPower v 2 - .const c) [-c, 0, 1] s)).Denotes v x := by
  refine ⟨isolates_squareRoot hc hx hlo hhi hs, fun w hw => ?_, ?_, ?_⟩
  · have hw : w ∈ (Poly.ofPower v 2 - .const c).toMv.vars := hw
    rw [Poly.toMv_sub, Poly.toMv_ofPower, Poly.toMv_const] at hw
    obtain hw | hw := Finset.mem_union.1 (MvPolynomial.vars_sub_subset _ hw)
    · have hwv : w = v := by simpa using MvPolynomial.vars_pow _ _ hw
      exact hwv.le
    · simp at hw
  · simp [AlgebraicNumber.ofRoot, hx]
  · show Poly.fiber _ _ (.ofPower v 2 - .const c) ∣ Univariate.toReal [-c, 0, 1]
    rw [toReal_square, Poly.fiber, Poly.value_sub, Poly.value_ofPower, Poly.openAt_self,
      Poly.value_const]
    exact dvd_of_eq (by simp)

/-! ## The square root of two -/

/-- The square root of two as the only coordinate. -/
def sqrtTwo : SamplePoint :=
  .ofCoords [.algebraic (.ofRoot (.ofPower 0 2 - .const 2) [-2, 0, 1] ⟨1, 2⟩)]

theorem get?_sqrtTwo {v : ℕ} {c : Coordinate} (h : sqrtTwo.get? v = some c) :
    v = 0 ∧ c = .algebraic (.ofRoot (.ofPower 0 2 - .const 2) [-2, 0, 1] ⟨1, 2⟩) := by
  rw [sqrtTwo, SamplePoint.get?_ofCoords] at h
  cases v with
  | zero => exact ⟨rfl, (Option.some.inj h).symm⟩
  | succ v => cases h

theorem fits_sqrtTwo (p : Poly) : sqrtTwo.Fits p := fun _ _ hr => by
  cases (get?_sqrtTwo hr).2

theorem sound_sqrtTwo : sqrtTwo.Sound fun _ => √2 where
  denotes v c hc := by
    obtain ⟨rfl, rfl⟩ := get?_sqrtTwo hc
    have hsq : √2 ^ 2 = 2 := Real.sq_sqrt (by norm_num)
    have hpos : 0 ≤ √2 := Real.sqrt_nonneg 2
    refine denotes_squareRoot (by norm_num) (by rw [hsq, Rat.cast_ofNat]) ?_ ?_ (.inl (by norm_num))
    · norm_num
      nlinarith
    · norm_num
  exact := {
    size_le := by decide
    fits := fun _ _ _ => fits_sqrtTwo _
    degree_le := fun v a ha => by
      obtain ⟨rfl, h⟩ := get?_sqrtTwo ha
      obtain rfl := Coordinate.algebraic.inj h
      decide +kernel }

/-- The number two as the only coordinate. -/
def two : SamplePoint := .ofCoords [.rational 2]

theorem denotes_two : two.Denotes fun _ => 2 := fun v c hc => by
  rw [two, SamplePoint.get?_ofCoords] at hc
  cases v with
  | zero =>
    obtain rfl := Option.some.inj hc
    exact (Rat.cast_ofNat 2).symm
  | succ v => cases hc

theorem exact_two : two.Exact where
  size_le := by decide
  fits v a ha := by
    rw [two, SamplePoint.get?_ofCoords] at ha
    cases v <;> cases ha
  degree_le v a ha := by
    rw [two, SamplePoint.get?_ofCoords] at ha
    cases v <;> cases ha

end Cylindrical

end
