import Mathlib
import Cylindrical.Proofs.Sample.Sign
import Cylindrical.Proofs.Sample.Tightening

/-!
# Tests keep a point

A zero test and a sign evaluation are made of refinements and attempts, so what these do to a point the
whole test does, whether it succeeds or fails.  The point stays valid for the same real point, and it only
gets tighter; the weight bounds how often an attempt is repeated.
-/

noncomputable section

namespace Cylindrical

namespace ZeroTest

variable {cfg : Config} {σ : PointState} {p q : Poly} {x : ℕ → ℝ}
  {Inv : SamplePoint → Prop} {R : SamplePoint → SamplePoint → Prop}

/-! ## Relations that tests respect -/

/-- From points in `Inv`, refinements and attempts that succeed or fail lead along `R`, and `R` stays in
`Inv`. -/
structure Tracks (Inv : SamplePoint → Prop) (R : SamplePoint → SamplePoint → Prop) : Prop where
  of_refines : ∀ {s t}, Inv s → t.Refines s → R s t
  trans : ∀ {s t u}, R s t → R t u → R s u
  inv : ∀ {s t}, Inv s → R s t → Inv t
  attempt : ∀ (cfg : Config) (p : Poly) {σ : PointState}, Inv σ.point →
    Ends (attempt cfg p) σ (fun _ τ => R σ.point τ.point) fun τ => R σ.point τ.point

namespace Tracks

variable (hR : Tracks Inv R)

include hR

theorem refl {s : SamplePoint} (hs : Inv s) : R s s := hR.of_refines hs s.refines_refl

/-- A step on from a point that `R` has led to. -/
theorem ends_trans {α : Type} {y : PointM α} {s : SamplePoint} (h : R s σ.point)
    (hy : Ends y σ (fun _ τ => R σ.point τ.point) fun τ => R σ.point τ.point) :
    Ends y σ (fun _ τ => R s τ.point) fun τ => R s τ.point :=
  hy.mono (fun _ _ hτ => hR.trans h hτ) fun _ hτ => hR.trans h hτ

theorem ends_attempts {n : ℕ} (hσ : Inv σ.point) :
    Ends (attempts cfg p n) σ (fun _ τ => R σ.point τ.point) fun τ => R σ.point τ.point := by
  induction n generalizing σ with
  | zero => exact ends_throw (hR.refl hσ)
  | succ n ih =>
    rw [attempts]
    refine .bind ((hR.attempt cfg p hσ).mono (fun o τ hτ => ?_) fun _ hE => hE)
    cases o with
    | decided b => exact ends_pure hτ
    | replaced => exact hR.ends_trans hτ (ih (hR.inv hσ hτ))

theorem ends_vanishesAt (hσ : Inv σ.point) :
    Ends (vanishesAt cfg p) σ (fun _ τ => R σ.point τ.point) fun τ => R σ.point τ.point := by
  rw [vanishesAt]
  refine .bind (ends_count fun σ₁ hσ₁ => .bind (ends_get ?_))
  rw [← hσ₁] at hσ ⊢
  exact hR.ends_attempts hσ

/-- A round without the zero test. -/
theorem ends_round {vars : List ℕ} {round : ℕ} {next : PointM Sign} (hσ : Inv σ.point)
    (hnext : ∀ τ : PointState, Inv τ.point →
      Ends next τ (fun _ υ => R τ.point υ.point) fun υ => R τ.point υ.point) :
    Ends (do
      refineTo vars (cfg.precision round / 2)
      match intervalSign? (cfg.precision round) q (← get).point with
      | some s =>
        if round < cfg.probe then count fun s => { s with intervalSigns := s.intervalSigns + 1 }
        return s
      | none => next) σ (fun _ τ => R σ.point τ.point) fun τ => R σ.point τ.point := by
  refine .bind (ends_refineTo fun σ₁ hσ₁ => .bind (ends_get ?_))
  have hσ₁ := hR.of_refines hσ hσ₁
  cases intervalSign? (cfg.precision round) q σ₁.point with
  | none => exact hR.ends_trans hσ₁ (hnext σ₁ (hR.inv hσ hσ₁))
  | some s =>
    simp only
    split_ifs
    · exact .bind (ends_count fun σ₂ hσ₂ => ends_pure (hσ₂ ▸ hσ₁))
    · exact ends_pure hσ₁

theorem ends_signRounds {vars : List ℕ} {rounds round : ℕ} (hσ : Inv σ.point) :
    Ends (signRounds cfg q vars rounds round) σ (fun _ τ => R σ.point τ.point)
      fun τ => R σ.point τ.point := by
  induction rounds generalizing round σ with
  | zero => exact ends_throw (hR.refl hσ)
  | succ rounds ih =>
    rw [signRounds]
    simp only
    by_cases hprobe : round = cfg.probe
    · rw [if_pos hprobe]
      refine .bind ((hR.ends_vanishesAt hσ).mono (fun b τ hτ => ?_) fun _ hE => hE)
      cases b with
      | true => exact ends_pure hτ
      | false => exact hR.ends_trans hτ (hR.ends_round (hR.inv hσ hτ) fun υ hυ => ih hυ)
    · rw [if_neg hprobe]
      exact hR.ends_round hσ fun υ hυ => ih hυ

theorem ends_signAt (hσ : Inv σ.point) :
    Ends (signAt cfg p) σ (fun _ τ => R σ.point τ.point) fun τ => R σ.point τ.point := by
  rw [signAt]
  refine .bind (ends_count fun σ₁ hσ₁ => .bind (ends_get ?_))
  rw [← hσ₁] at hσ ⊢
  simp only
  split_ifs
  · exact ends_pure (hR.refl hσ)
  · cases List.find? _ _ with
    | some v => exact ends_throw (hR.refl hσ)
    | none => exact hR.ends_signRounds hσ

end Tracks

theorem tracks_tightens : Tracks (·.Triangular) fun s t => t.Tightens s where
  of_refines _ h := h.tightens
  trans h h' := h'.trans h
  inv hs h := hs.of_tightens h
  attempt _ _ _ hσ := (ends_attempt rfl hσ).mono (fun _ _ h => h.tightens) fun _ h => h.tightens

theorem tracks_evolves (x : ℕ → ℝ) : Tracks (·.Sound x) (SamplePoint.Evolves x) where
  of_refines hs h := .of_refines hs h
  trans h h' := h.trans h'
  inv _ h := h.sound
  attempt cfg p σ hσ := by
    rw [Ends]
    cases hrun : attempt cfg p σ with
    | ok o τ => exact (attempt_spec hσ hrun).1
    | error e τ => exact .of_refines hσ ((ends_attempt rfl hσ.denotes.triangular).of_error hrun)

/-! ## Restarts -/

/-- Attempts that follow one another because each has replaced a defining polynomial: the weight bounds
their number. -/
theorem restarts_le_weight {f : ℕ → PointState} {n : ℕ} (hs : (f 0).point.Triangular)
    (hf : ∀ k < n, attempt cfg p (f k) = .ok .replaced (f (k + 1))) : n ≤ weight (f 0).point := by
  have hstep : ∀ k ≤ n, (f k).point.Triangular ∧ weight (f k).point + k ≤ weight (f 0).point := by
    intro k
    induction k with
    | zero => exact fun _ => ⟨hs, le_rfl⟩
    | succ k ih =>
      intro hk
      obtain ⟨htri, hle⟩ := ih (by omega)
      have hleaves := (ends_attempt rfl htri).of_ok (hf k hk)
      have hlt := hleaves.weight_lt rfl
      exact ⟨htri.of_tightens hleaves.tightens, by omega⟩
  have := (hstep n le_rfl).2
  omega

/-- More restarts than the weight allows are never made. -/
theorem attempts_eq {m n : ℕ} (hs : σ.point.Triangular) (hm : weight σ.point < m)
    (hn : weight σ.point < n) : attempts cfg p m σ = attempts cfg p n σ := by
  induction m generalizing n σ with
  | zero => exact absurd hm (Nat.not_lt_zero _)
  | succ m ih =>
    cases n with
    | zero => exact absurd hn (Nat.not_lt_zero _)
    | succ n =>
      rw [attempts, attempts]
      simp only [bind, EStateM.bind]
      cases hrun : attempt cfg p σ with
      | error e τ => rfl
      | ok o τ =>
        cases o with
        | decided b => rfl
        | replaced =>
          have hleaves := (ends_attempt rfl hs).of_ok hrun
          have hlt := hleaves.weight_lt rfl
          exact ih (hs.of_tightens hleaves.tightens) (by omega) (by omega)

/-! ## Validity -/

/-- At a point that is valid for `x`, what a test leaves of the coordinate of `v`: a number with the
same isolator in a narrower interval, whose defining polynomial is the same or lower. -/
structure Keeps (x : ℕ → ℝ) (s t : SamplePoint) : Prop where
  size : t.size = s.size
  rational : ∀ v r, s.get? v = some (.rational r) → t.get? v = some (.rational r)
  algebraic : ∀ v a, s.get? v = some (.algebraic a) → ∃ b, t.get? v = some (.algebraic b) ∧
    b.isolator = a.isolator ∧ b.Isolates (x v) ∧ a.span.lo ≤ b.span.lo ∧ b.span.hi ≤ a.span.hi ∧
    (b.defining = a.defining ∨ b.defining.Lowers v a.defining)

theorem keeps_of_tightens {s t : SamplePoint} (hs : s.Denotes x) (h : t.Tightens s) :
    Keeps x s t where
  size := h.size
  rational := h.rational
  algebraic v a ha := by
    obtain ⟨b, hb, hba⟩ := h.algebraic v a ha
    have hiso := (hs v _ ha).1
    obtain ⟨hlo, hhi⟩ := hba.narrows.span _ hiso
    exact ⟨b, hb, hba.narrows.isolator, hba.narrows.isolates _ hiso, hlo, hhi, hba.defining⟩

end ZeroTest

/-- The number one as a root of `x ^ 2 - 1`, the only coordinate. -/
def unitRoot : SamplePoint :=
  .ofCoords [.algebraic (.ofRoot (.ofPower 0 2 - .const 1) [-1, 0, 1] ⟨1 / 2, 3 / 2⟩)]

theorem get?_unitRoot {v : ℕ} {c : Coordinate} (h : unitRoot.get? v = some c) :
    v = 0 ∧ c = .algebraic (.ofRoot (.ofPower 0 2 - .const 1) [-1, 0, 1] ⟨1 / 2, 3 / 2⟩) := by
  rw [unitRoot, SamplePoint.get?_ofCoords] at h
  cases v with
  | zero => exact ⟨rfl, (Option.some.inj h).symm⟩
  | succ v => cases h

theorem isolates_unitRoot : (AlgebraicNumber.ofRoot (.ofPower 0 2 - .const 1) [-1, 0, 1]
    ⟨1 / 2, 3 / 2⟩).Isolates 1 := by
  have hreal : Univariate.toReal [-1, 0, 1] = (Polynomial.X ^ 2 - 1 : Polynomial ℝ) := by
    simp [Univariate.toReal, pow_two, sub_eq_add_neg]
  refine ⟨?_, ?_, ?_, ?_, fun y h₁ _ hy => ?_, rfl⟩
  · have h : Univariate.toPolynomial [-1, 0, 1] =
        (Polynomial.X ^ 2 - Polynomial.C 1 : Polynomial ℚ) := by
      simp [pow_two, sub_eq_add_neg]
    show Squarefree (Univariate.toPolynomial [-1, 0, 1])
    rw [h]
    exact (Polynomial.separable_X_pow_sub_C 1 (by norm_num) (by norm_num)).squarefree
  · show ((1 / 2 : ℚ) : ℝ) < 1
    norm_num
  · show (1 : ℝ) < ((3 / 2 : ℚ) : ℝ)
    norm_num
  · show (Univariate.toReal [-1, 0, 1]).IsRoot 1
    rw [hreal]
    simp
  · have hy : (Univariate.toReal [-1, 0, 1]).IsRoot y := hy
    have h₁ : ((1 / 2 : ℚ) : ℝ) ≤ y := h₁
    rw [Rat.cast_div, Rat.cast_one, Rat.cast_ofNat] at h₁
    rw [hreal] at hy
    have hy : (y - 1) * (y + 1) = 0 := by
      have hy : y ^ 2 - 1 = 0 := by simpa using hy
      linarith [sq y]
    exact sub_eq_zero.1 ((mul_eq_zero.1 hy).resolve_right (by linarith))

theorem sound_unitRoot : unitRoot.Sound fun _ => 1 where
  denotes v c hc := by
    obtain ⟨rfl, rfl⟩ := get?_unitRoot hc
    refine ⟨isolates_unitRoot, fun w hw => ?_, by simp [AlgebraicNumber.ofRoot], ?_⟩
    · have hvars : (.ofPower 0 2 - .const 1 : Poly).vars = [0] := by decide +kernel
      have hw := Poly.mem_vars_iff.2 hw
      rw [AlgebraicNumber.ofRoot, hvars, List.mem_singleton] at hw
      exact hw.le
    · show Poly.fiber _ _ (.ofPower 0 2 - .const 1) ∣ Univariate.toReal [-1, 0, 1]
      rw [Poly.fiber, Poly.value_sub, Poly.value_ofPower, Poly.openAt_self, Poly.value_const]
      exact dvd_of_eq (by simp [Univariate.toReal, pow_two, sub_eq_add_neg])
  exact := {
    size_le := by decide
    fits := fun v a _ w r hr => by cases (get?_unitRoot hr).2
    degree_le := fun v a ha => by
      obtain ⟨rfl, h⟩ := get?_unitRoot ha
      obtain rfl := Coordinate.algebraic.inj h
      decide +kernel }

end Cylindrical

end
