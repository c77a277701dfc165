import Mathlib
import Cylindrical.Sample.ZeroTest
import Cylindrical.Proofs.Composition

/-!
# Tests as compositions

The tests at a sample point are composed from a few steps: calls of the algebra, counts, refinement
of the point and replacement of defining polynomials.  Whether a defining polynomial has been
replaced is counted, so the number of replacements is kept apart from the other counts.
-/

namespace Cylindrical

/-- The error is not that the matrix is undetermined. -/
def DecompositionError.Determinate (e : DecompositionError) : Prop :=
  ∀ path, e ≠ .inconclusive (.matrixUndetermined path)

/-- An error with which a test may end: not that a norm vanishes, nor that the matrix is
undetermined. -/
def DecompositionError.OfTest : DecompositionError → Prop
  | .inconclusive (.normVanishes _) | .inconclusive (.matrixUndetermined _) => False
  | _ => True

theorem DecompositionError.OfTest.determinate {e : DecompositionError} (h : e.OfTest) :
    e.Determinate := by
  rintro path rfl
  exact h

open DecompositionError (OfTest)

namespace Tower

theorem errors_level (x : SamplePoint) (v : ℕ) : Errors OfTest (level x v) := fun _ h => by
  rw [level] at h
  split at h
  · simp only at h
    split_ifs at h
    cases h
    trivial
  · cases h
    trivial
  · cases h
    trivial

theorem errors_collect (x : SamplePoint) (unseen todo : List ℕ) (levels : List TowerLevel) :
    Errors OfTest (collect x unseen todo levels) := by
  fun_induction collect x unseen todo levels with
  | case1 => nofun
  | case2 unseen levels v todo hmem l hl ih => exact ih
  | case3 unseen levels v todo hmem e he =>
    intro d hd
    cases hd
    exact errors_level x v he
  | case4 unseen levels v todo hmem hv ih => exact ih
  | case5 =>
    intro d hd
    cases hd
    trivial

theorem errors_ofPoly (p : Poly) (x : SamplePoint) : Errors OfTest (ofPoly p x) :=
  fun _ h => by
    rw [ofPoly] at h
    cases hc : collect x (List.range x.size) p.vars.reverse [] with
    | error d =>
      rw [hc] at h
      cases h
      exact errors_collect _ _ _ _ hc
    | ok ls =>
      rw [hc] at h
      cases h

end Tower

namespace ZeroTest

/-- A property of tests that composition keeps and that the steps of tests have. -/
structure Rule (K : ∀ {α : Type}, PointM α → Prop) : Prop extends
    Composable OfTest @K where
  /-- What is read of the state is the point. -/
  point : ∀ {α : Type} {f : PointState → PointM α}, (∀ s, K (f s)) →
    (∀ s t, s.point = t.point → f s = f t) → K (get >>= f)
  call : ∀ {α : Type} (g : CallCounts → CallCounts) (y : Algebra α),
    K (PointState.algebraically (AlgebraSystem.call g y))
  /-- The number of replacements grows by a fixed amount. -/
  count : ∀ {g : Stats → Stats}, (∃ n, ∀ s, (g s).replacements = s.replacements + n) → K (count g)
  refineTo : ∀ vars bits, K (refineTo vars bits)
  replace : ∀ v d, K (replace v d)

namespace Rule

variable {K : ∀ {α : Type}, PointM α → Prop} (h : Rule @K) {cfg : Config} {t : Tower}
  {l : TowerLevel} {i v : ℕ} {p r : Poly}

include h

theorem enclosure (prec : ℕ) (p : Poly) : K (enclosure prec p) := by
  rw [ZeroTest.enclosure]
  refine h.point (fun s => ?_) fun s t hst => by simp only [hst]
  split
  · exact h.pure _
  · exact h.throw trivial

theorem pickVanishing (g f : Poly) (vars : List ℕ) (rounds round : ℕ) :
    K (pickVanishing cfg g f vars rounds round) := by
  induction rounds generalizing round with
  | zero => exact h.throw trivial
  | succ rounds ih =>
    rw [ZeroTest.pickVanishing]
    refine h.bind (h.refineTo _ _) fun _ => h.bind (h.enclosure _ _) fun a =>
      h.bind (h.enclosure _ _) fun b => ?_
    split
    · exact h.pure _
    · exact h.pure _
    · exact h.throw trivial
    · exact ih _

theorem resolve (g f : Poly) : K (resolve cfg t i v g f) := by
  rw [ZeroTest.resolve]
  exact h.bind (h.pickVanishing ..) fun _ => h.bind (h.replace ..) fun _ => h.pure _

theorem overOne : K (overOne l r) := by
  rw [ZeroTest.overOne]
  refine h.bind (h.count ⟨0, fun _ => rfl⟩) fun _ => h.bind (h.call _ _) fun g => ?_
  split_ifs
  · exact h.pure _
  · exact h.pure _
  · refine h.bind (h.lift (Q := fun _ => True) (fun _ _ => trivial) fun _ _ => trivial) fun f => ?_
    refine h.point (fun s => ?_) fun s t hst => by simp only [hst]
    exact h.bind (h.replace ..) fun _ => h.pure _

theorem acceptGcd (g : Poly) : K (acceptGcd cfg t i l r g) := by
  rw [ZeroTest.acceptGcd]
  refine h.bind (h.count ⟨0, fun _ => rfl⟩) fun _ => ?_
  split_ifs
  · refine h.bind (h.resolve ..) fun b => ?_
    split_ifs <;> exact h.pure _
  · exact h.pure _

theorem acceptSplit (f g : Poly) : K (acceptSplit cfg t i l f g) := by
  rw [ZeroTest.acceptSplit]
  refine h.bind (h.count ⟨0, fun _ => rfl⟩) fun _ => ?_
  simp only
  split_ifs
  · exact h.bind (h.resolve ..) fun _ => h.pure _
  · exact h.pure _

theorem overSeveral (ps : List ℕ) (gcds : Images) (splits : ℕ → Images × Images) :
    K (overSeveral cfg t i l r ps gcds splits) := by
  induction ps generalizing gcds splits with
  | nil => exact h.throw trivial
  | cons p ps ih =>
    rw [ZeroTest.overSeveral]
    refine h.bind (h.count ⟨0, fun _ => rfl⟩) fun _ => ?_
    split
    · exact h.bind (h.count ⟨0, fun _ => rfl⟩) fun _ => ih _ _
    · split
      · split_ifs
        · exact h.pure _
        · simp only
          split
          · refine h.bind (h.acceptGcd _) fun o? => ?_
            cases o? with
            | none => exact ih _ _
            | some o => exact h.pure o
          · refine h.bind (h.pure none) fun o? => ?_
            cases o? with
            | none => exact ih _ _
            | some o => exact h.pure o
      · split
        · simp only
          split
          · refine h.bind (h.acceptSplit _ _) fun o? => ?_
            cases o? with
            | none => exact ih _ _
            | some o => exact h.pure o
          · refine h.bind (h.pure none) fun o? => ?_
            cases o? with
            | none => exact ih _ _
            | some o => exact h.pure o
        · exact ih _ _

theorem attempt : K (attempt cfg p) := by
  rw [ZeroTest.attempt]
  refine h.point (fun s => ?_) fun s t hst => by simp only [hst]
  simp only
  split_ifs
  · exact h.pure _
  · refine h.bind (h.lift (Tower.errors_ofPoly _ _) fun _ he => he) fun t => ?_
    split
    · exact h.pure _
    · split
      · exact h.overOne
      · refine h.bind (h.count ⟨0, fun _ => rfl⟩) fun _ => ?_
        split
        · exact h.overSeveral _ _ _
        · exact h.throw trivial
      · exact h.throw trivial

theorem attempts (n : ℕ) : K (attempts cfg p n) := by
  induction n with
  | zero => exact h.throw trivial
  | succ n ih =>
    rw [ZeroTest.attempts]
    refine h.bind h.attempt fun o => ?_
    cases o with
    | decided b => exact h.pure _
    | replaced => exact ih

theorem vanishesAt (cfg : Config) (p : Poly) : K (vanishesAt cfg p) := by
  rw [ZeroTest.vanishesAt]
  refine h.bind (h.count ⟨0, fun _ => rfl⟩) fun _ => ?_
  exact h.point (fun s => h.attempts _) fun s t hst => by simp only [hst]

/-- A test in between, which may decide the result. -/
theorem probe {α : Type} {P : Prop} [Decidable P] {x : PointM Bool} {y : PointM α} (a : α)
    (hx : K x) (hy : K y) : K (if P then do if ← x then return a else y else y) := by
  split_ifs
  · refine h.bind hx fun b => ?_
    split_ifs
    · exact h.pure a
    · exact hy
  · exact hy

theorem signRounds (vars : List ℕ) (rounds round : ℕ) :
    K (signRounds cfg p vars rounds round) := by
  induction rounds generalizing round with
  | zero => exact h.throw trivial
  | succ rounds ih =>
    rw [ZeroTest.signRounds]
    refine h.probe Sign.zero (h.vanishesAt ..) (h.bind (h.refineTo _ _) fun _ => ?_)
    refine h.point (fun s => ?_) fun s t hst => by simp only [hst]
    split
    · split_ifs
      · exact h.bind (h.count ⟨0, fun _ => rfl⟩) fun _ => h.pure _
      · exact h.pure _
    · exact ih _

theorem signAt (cfg : Config) (p : Poly) : K (signAt cfg p) := by
  rw [ZeroTest.signAt]
  refine h.bind (h.count ⟨0, fun _ => rfl⟩) fun _ => ?_
  refine h.point (fun s => ?_) fun s t hst => by simp only [hst]
  simp only
  split_ifs
  · exact h.pure _
  · split
    · exact h.throw trivial
    · exact h.signRounds _ _ _

end Rule

end ZeroTest

end Cylindrical
