import Mathlib
import Cylindrical.Stack.Lifting
import Cylindrical.Proofs.Sample.Composition

/-!
# Stacks as compositions

The construction of a stack is composed of tests at the sample point and counts.  The point is read,
and gets one more coordinate while a root is confirmed; of the counts only that of the replacements
is read, to see whether a test has replaced a defining polynomial.
-/

namespace Cylindrical

open DecompositionError (OfTest)

namespace Stack

/-- A property of computations of a stack with the errors in `P` that composition keeps and that
their steps at a point have. -/
structure Rule (P : DecompositionError → Prop) (K : ∀ {α : Type}, StackM α → Prop) : Prop extends
    Composable P @K where
  ofTest : ∀ {e}, OfTest e → P e
  /-- What is read of the state is the point. -/
  point : ∀ {α : Type} {f : StackState → StackM α}, (∀ s, K (f s)) →
    (∀ s t, s.point = t.point → f s = f t) → K (get >>= f)
  count : ∀ g, K (count g)
  test : ∀ {α : Type} {x : PointM α},
    (∀ L : ∀ {α : Type}, PointM α → Prop, ZeroTest.Rule @L → L x) → K (atPoint x)
  /-- Whether a computation replaces a defining polynomial. -/
  replaced : ∀ {α β : Type} {x : StackM β} {y z : StackM α}, K x → K y → K z → K (do
    let before := (← get).stats.replacements
    let _ ← x
    if before < (← get).stats.replacements then y else z)

/-- A rule for computations that add a coordinate to the point and take it away again. -/
structure PushRule (P : DecompositionError → Prop) (K : ∀ {α : Type}, StackM α → Prop) : Prop
    extends Rule P @K where
  push : ∀ c, K (modify fun s : StackState => { s with point := s.point.push c })
  pop : K (modify fun s : StackState => { s with point := s.point.pop })

variable {P : DecompositionError → Prop} {K : ∀ {α : Type}, StackM α → Prop} {cfg : Config}
  {zero : ZeroTest.Config} {c : Cylinder} {f : ProjectionFactor} {v i : ℕ}

namespace Rule

variable (h : Rule P @K)

include h

theorem signOf (p : Poly) : K (signOf zero p) := h.test fun _ hL => hL.signAt _ _

theorem vanishes (p : Poly) : K (vanishes zero p) := h.test fun _ hL => hL.vanishesAt _ _

theorem call {α : Type} (g : CallCounts → CallCounts) (y : Algebra α) :
    K (algebraically (AlgebraSystem.call g y)) := h.test fun _ hL => hL.call g y

/-! ## Factors over a cell -/

theorem scannedLead (ls : List (ℕ × Option ℕ)) : K (scannedLead zero c f ls) := by
  induction ls with
  | nil => exact h.pure _
  | cons l ls ih =>
    have hnext : ∀ s : Sign,
        K (if s = .zero then Stack.scannedLead zero c f ls else return some (l.1, s)) := fun s => by
      split_ifs
      · exact ih
      · exact h.pure _
    obtain ⟨k, _ | link⟩ := l
    · exact ih
    · rw [Stack.scannedLead]
      simp only
      split
      · exact h.bind (h.pure _) hnext
      · exact h.bind (h.signOf _) hnext

theorem leadBelow (n : ℕ) : K (leadBelow zero c f n) := by
  induction n with
  | zero => exact h.pure _
  | succ n ih =>
    rw [Stack.leadBelow]
    split_ifs
    · exact ih
    · refine h.bind (h.signOf _) fun s => ?_
      split_ifs
      · exact ih
      · exact h.pure _

theorem lead : K (lead zero c f) := by
  rw [Stack.lead]
  refine h.bind (h.scannedLead _) fun l => ?_
  split
  · exact h.pure _
  · exact h.leadBelow _

theorem shape (f : ProjectionFactor) : K (shape zero c f) := by
  rw [Stack.shape]
  refine h.bind h.lead fun l => ?_
  split
  · refine h.bind (h.count _) fun _ => ?_
    split_ifs
    · exact h.throw (h.ofTest trivial)
    · exact h.pure _
  · exact h.pure _
  · split
    · exact h.bind (h.count _) fun _ => h.pure _
    · exact h.pure _

theorem norm (n : ℕ) (p : Poly) : K (norm n p) := by
  induction n generalizing p with
  | zero => exact h.pure _
  | succ n ih =>
    rw [Stack.norm]
    refine h.point (fun s => ?_) fun s t hst => by simp only [hst]
    simp only
    split
    · split_ifs
      · exact h.bind (h.call _ _) fun _ => ih _
      · exact ih _
    · exact ih _

theorem splitTower (cs : List Poly) : K (splitTower zero cs) := by
  induction cs with
  | nil => exact h.pure _
  | cons p cs ih =>
    rw [Stack.splitTower]
    split_ifs
    · exact ih
    · exact h.replaced (h.vanishes _) (h.bind (h.count _) fun _ => h.pure _) ih

theorem normAt (hP : ∀ q, P (.inconclusive (.normVanishes q))) (g p : Poly) (steps : ℕ) :
    K (normAt zero v g p steps) := by
  induction steps with
  | zero => exact h.throw (hP g)
  | succ steps ih =>
    rw [Stack.normAt]
    refine h.point (fun s => ?_) fun s t hst => by simp only [hst]
    simp only
    split_ifs
    · exact h.pure _
    · refine h.bind (h.norm _ _) fun n => ?_
      split_ifs
      · exact h.pure _
      · refine h.bind (h.splitTower _) fun b => ?_
        split_ifs
        · exact ih
        · exact h.throw (hP g)

theorem multiplicityFrom (left m : ℕ) (p : Poly) : K (multiplicityFrom zero v left m p) := by
  induction left generalizing m p with
  | zero => exact h.pure _
  | succ left ih =>
    rw [Stack.multiplicityFrom]
    refine h.bind (h.vanishes _) fun b => ?_
    split_ifs
    · exact ih _ _
    · exact h.pure _

theorem isolate (p : Poly) : K (isolate v p) := by
  rw [Stack.isolate]
  split
  · exact h.throw (h.ofTest trivial)
  · exact h.pure _
  · exact h.pure _

/-! ## Comparison -/

theorem compareRational (x : ℚ) (steps : ℕ) (a : AlgebraicNumber) :
    K (compareRational x steps a) := by
  induction steps generalizing a with
  | zero => exact h.pure _
  | succ steps ih =>
    rw [Stack.compareRational]
    split_ifs
    · exact h.pure _
    · exact h.pure _
    · exact h.pure _
    · exact h.bind (h.count _) fun _ => ih _

theorem locateIn (spans : List Interval) (steps : ℕ) (a : AlgebraicNumber) :
    K (locateIn spans steps a) := by
  induction steps generalizing a with
  | zero => exact h.throw (h.ofTest trivial)
  | succ steps ih =>
    rw [Stack.locateIn]
    split
    · exact h.pure _
    · exact h.bind (h.count _) fun _ => ih _

theorem locate? (cs : List ℚ) (spans : List Interval) (a : AlgebraicNumber) :
    K (locate? cfg cs spans a) := by
  rw [Stack.locate?]
  split_ifs
  · exact h.pure _
  · exact h.bind (h.locateIn ..) fun _ => h.pure _

theorem sameRoot (a b : AlgebraicNumber) : K (sameRoot cfg a b) := by
  rw [Stack.sameRoot]
  refine h.bind (h.call _ _) fun g => ?_
  split_ifs
  · exact h.pure _
  · refine h.bind (h.locate? ..) fun r => ?_
    split
    · exact h.pure _
    · exact h.bind (h.locate? ..) fun _ => h.pure _

theorem testEquality (mayEqual : Bool) (steps : ℕ) (a b : AlgebraicNumber) :
    K (testEquality cfg mayEqual steps a b) := by
  rw [Stack.testEquality]
  split_ifs
  · exact h.bind (h.count _) fun _ => h.sameRoot a b
  · exact h.pure _

theorem compareAlgebraic (mayEqual : Bool) (left steps : ℕ) (a b : AlgebraicNumber) :
    K (compareAlgebraic cfg mayEqual left steps a b) := by
  induction left generalizing steps a b with
  | zero =>
    rw [Stack.compareAlgebraic]
    split
    · exact h.pure _
    · refine h.bind (h.testEquality ..) fun r => ?_
      obtain ⟨same, a, b⟩ := r
      cases same with
      | false => exact h.throw (h.ofTest trivial)
      | true => exact h.pure _
  | succ left ih =>
    rw [Stack.compareAlgebraic]
    split
    · exact h.pure _
    · refine h.bind (h.testEquality ..) fun r => ?_
      obtain ⟨same, a, b⟩ := r
      cases same with
      | false =>
        refine h.bind (h.count _) fun _ => ?_
        split_ifs <;> exact ih ..
      | true => exact h.pure _

theorem compare (mayEqual : Bool) (a b : Coordinate) : K (compare cfg mayEqual a b) := by
  rw [Stack.compare.eq_def]
  split
  · exact h.pure _
  · exact h.bind (h.compareRational ..) fun _ => h.pure _
  · exact h.bind (h.compareRational ..) fun _ => h.pure _
  · exact h.bind (h.compareAlgebraic ..) fun _ => h.pure _

theorem between (steps : ℕ) (a b : Coordinate) : K (between steps a b) := by
  induction steps generalizing a b with
  | zero => exact h.throw (h.ofTest trivial)
  | succ steps ih =>
    rw [Stack.between]
    split_ifs
    · exact h.pure _
    · exact h.pure _
    · exact h.bind (h.count _) fun _ => ih _ _

/-! ## Sections and sectors -/

theorem insert (r : FactorRoot) (ss : List Section) : K (Section.insert cfg c r ss) := by
  induction ss generalizing r with
  | nil => exact h.pure _
  | cons s ss ih =>
    rw [Section.insert]
    refine h.bind (h.compare ..) fun o => ?_
    simp only
    split
    · exact h.pure _
    · exact h.bind (ih _) fun _ => h.pure _
    · split_ifs
      · exact h.pure _
      · exact h.bind (h.count _) fun _ => h.pure _

theorem sectorsAbove (s : Section) (ss : List Section) : K (sectorsAbove cfg s ss) := by
  induction ss generalizing s with
  | nil => exact h.pure _
  | cons t ss ih =>
    rw [Stack.sectorsAbove]
    exact h.bind (h.between ..) fun r => h.bind (ih _) fun _ => h.pure _

theorem cellCoords (ss : List Section) : K (cellCoords cfg ss) := by
  cases ss with
  | nil => exact h.pure _
  | cons s ss =>
    rw [Stack.cellCoords]
    exact h.bind (h.sectorsAbove ..) fun _ => h.pure _

end Rule

namespace PushRule

variable (h : PushRule P @K)

include h

theorem confirm (degree : ℕ) (g : Poly) (candidate : Coordinate) :
    K (confirm zero c i f degree g candidate) := by
  have hfound : ∀ m : ℕ, K (do
      let coord := ((← get).point.get? c.level).getD candidate
      modify fun s => { s with point := s.point.pop }
      return some ⟨coord, i, m⟩ : StackM (Option FactorRoot)) := fun m =>
    h.point (fun s => h.bind h.pop fun _ => h.pure _) fun s t hst => by simp only [hst]
  rw [Stack.confirm]
  refine h.bind (h.push _) fun _ => h.bind (h.vanishes _) fun b => ?_
  cases b with
  | false => exact h.bind h.pop fun _ => h.bind (h.count _) fun _ => h.pure _
  | true =>
    simp only [if_true]
    split_ifs
    · exact h.bind (h.multiplicityFrom ..) hfound
    · exact h.bind (h.pure _) hfound

/-- The roots of the factor, or those of its norm that are roots of the factor. -/
theorem candidates (degree : ℕ) (r : Poly × Option Poly) :
    K (match r with
      | (g, none) => do
        let h ← algebraically (AlgebraSystem.factor g)
        return (← h.factors.mapM fun (q, m) => do
          return (← Stack.isolate c.level q).map fun x => ⟨x, i, m⟩).flatten
      | (g, some n) => do
        let h ← algebraically (AlgebraSystem.factor n)
        return (← h.factors.mapM fun (q, _) => do
          (← Stack.isolate c.level q).filterMapM (Stack.confirm zero c i f degree g)).flatten :
        StackM (List FactorRoot)) := by
  split
  · exact h.bind (h.call _ _) fun p => h.bind (h.mapM fun q => h.bind (h.isolate _) fun _ =>
      h.pure _) fun _ => h.pure _
  · exact h.bind (h.call _ _) fun p => h.bind (h.mapM fun q => h.bind (h.isolate _) fun _ =>
      h.filterMapM (h.confirm _ _)) fun _ => h.pure _

variable (hP : ∀ q, P (.inconclusive (.normVanishes q)))

include hP

theorem roots (degree : ℕ) : K (roots zero c i f degree) := by
  rw [Stack.roots]
  exact h.point (fun s => h.bind (h.normAt hP ..) (h.candidates degree)) fun s t hst => by
    simp only [hst]

theorem addFactors (i : ℕ) (fs : List ProjectionFactor) (ss : List Section) :
    K (addFactors cfg zero c i fs ss) := by
  induction fs generalizing i ss with
  | nil => exact h.pure _
  | cons f fs ih =>
    have hnext : ∀ (sh : Shape) (rs : List FactorRoot), K (do
        let ss ← rs.foldlM (fun ss r => do
          Stack.count fun s => { s with roots := s.roots + 1 }
          Section.insert cfg c r ss) ss
        let r ← Stack.addFactors cfg zero c (i + 1) fs ss
        return (sh :: r.1, r.2)) := fun sh rs =>
      h.bind (h.foldlM (fun ss r => h.bind (h.count _) fun _ => h.insert r ss) ss) fun ss =>
        h.bind (ih _ _) fun _ => h.pure _
    rw [Stack.addFactors]
    refine h.bind (h.shape f) fun sh => ?_
    cases sh with
    | constant s => exact h.bind (h.pure _) (hnext _)
    | roots degree lead => exact h.bind (h.roots hP _) (hnext _)

theorem cells (c : Cylinder) : K (cells cfg zero c) := by
  have hrest : K (do
      let r ← Stack.addFactors cfg zero c 0 c.factors []
      return assemble (← Stack.cellCoords cfg r.2) r.1 : StackM (List StackCell)) :=
    h.bind (h.addFactors hP ..) fun r => h.bind (h.cellCoords _) fun _ => h.pure _
  rw [Stack.cells]
  refine h.bind (h.count _) fun _ => h.point (fun s => ?_) fun s t hst => by simp only [hst]
  cases s.point.isRational with
  | true => exact hrest
  | false => exact h.bind (h.count _) fun _ => hrest

end PushRule

end Stack

end Cylindrical
