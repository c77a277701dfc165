import Mathlib
import Cylindrical.Projection.Operator
import Cylindrical.Proofs.Composition

/-!
# Projections as compositions

A projection is composed of calls of the algebra, of derived polynomials that are stored, and of
polynomials that are left for a level or taken from it.  The counts are never read.
-/

namespace Cylindrical

namespace Projection

/-- A property of computations of a projection, with the errors in `P`, that composition keeps and
that their steps have. -/
structure Rule (P : DecompositionError → Prop) (K : ∀ {α : Type}, RunM α → Prop) : Prop extends
    Composable P @K where
  /-- What is read of the state are the waiting and the derived polynomials. -/
  read : ∀ {α : Type} {f : Run → RunM α}, (∀ s, K (f s)) →
    (∀ s t, s.pending = t.pending → s.derived = t.derived → f s = f t) → K (get >>= f)
  call : ∀ {α : Type} (g : CallCounts → CallCounts) (y : Algebra α),
    K (Run.algebraically (AlgebraSystem.call g y))
  groebnerBasis : ∀ ranked block ps,
    K (Run.algebraically (AlgebraSystem.groebnerBasis ranked block ps))
  count : ∀ g, K (Run.count g)
  store : ∀ d, K (Run.store d)
  leave : ∀ p, K (Run.leave p)
  take : ∀ level, K (Run.take level)

namespace Rule

variable {P : DecompositionError → Prop} {K : ∀ {α : Type}, RunM α → Prop} (h : Rule P @K)
  {truncate : Bool} {f : ProjectionFactor} {v : ℕ}

include h

theorem request (p : Poly) (negated : Bool) : K (Run.request p negated) := by
  rw [Run.request]
  refine h.bind (h.count _) fun _ => ?_
  by_cases hp : p.isNumber = true
  · rw [if_pos hp]
    exact h.bind (h.pure _) fun _ => h.store _
  · rw [if_neg hp]
    exact h.bind (h.call _ _) fun g => h.bind (h.forM fun q => h.leave _) fun _ =>
      h.bind (h.pure _) fun _ => h.store _

theorem countTruncation (degree : ℕ) : K (Run.countTruncation degree) := by
  rw [Run.countTruncation]
  split_ifs
  · exact h.count _
  · exact h.pure _

theorem subresultants (p q : Poly) (n : ℕ) : K (Run.subresultants v p q n) :=
  h.mapM fun _ => h.bind (h.call _ _) fun _ => h.request _ _

/-! ## Operators -/

theorem scanCoeffs (cs : List (Poly × ℕ)) : K (Run.scanCoeffs truncate cs) := by
  induction cs with
  | nil => exact h.pure _
  | cons c cs ih =>
    obtain ⟨c, k⟩ := c
    rw [Run.scanCoeffs]
    split_ifs
    · exact h.bind (h.store _) fun _ => h.bind ih fun _ => h.pure _
    · exact h.bind (h.request _ _) fun _ => h.bind (h.countTruncation _) fun _ => h.pure _
    · exact h.bind (h.request _ _) fun _ => h.bind ih fun _ => h.pure _

theorem mcCallum (before : List ProjectionFactor) : K (Run.mcCallum truncate f before) := by
  have hnext : ∀ (cs : List (ℕ × Option ℕ)) (d : Option ℕ), K (do
      let pairLinks ← before.zipIdx.mapM fun e => do
        let r ← Run.algebraically (AlgebraSystem.resultant f.level f.poly e.1.poly)
        return (e.2, [← Run.request r false])
      return { f with coeffLinks := cs, discriminant := d, pairLinks } :
        RunM ProjectionFactor) := fun cs d =>
    h.bind (h.mapM fun q => h.bind (h.call _ _) fun r => h.bind (h.request _ _) fun _ =>
      h.pure _) fun _ => h.pure _
  rw [Run.mcCallum]
  refine h.bind (h.scanCoeffs _) fun cs => ?_
  simp only
  split_ifs
  · exact h.bind (h.pure _) (hnext cs)
  · exact h.bind (h.call _ _) fun d => h.bind (h.request _ _) fun _ =>
      h.bind (h.pure _) (hnext cs)

theorem reduce (ranked : List ℕ) (block : ℕ) (basis : List Poly) (p : Poly) :
    K (Run.algebraically (AlgebraSystem.reduce ranked block basis p)) := by
  rw [AlgebraSystem.reduce]
  exact h.call _ _

theorem reduceCoeff (vars : List ℕ) (higher : List Poly) (c : Poly) :
    K (Run.reduceCoeff vars higher c) := by
  rw [Run.reduceCoeff]
  split_ifs
  · exact h.pure _
  · refine h.bind (h.groebnerBasis ..) fun basis => ?_
    split_ifs
    · exact h.pure _
    · exact h.bind (h.count _) fun _ => h.bind (h.reduce ..) fun _ => h.pure _

theorem scanReducedCoeffs (vars : List ℕ) (higher : List Poly) (cs : List (Poly × ℕ)) :
    K (Run.scanReducedCoeffs truncate vars higher cs) := by
  induction cs generalizing higher with
  | nil => exact h.pure _
  | cons c cs ih =>
    obtain ⟨c, k⟩ := c
    have hnext : ∀ (r : Poly) (link? : Option ℕ), K
        (if truncate && r.isDefinitelyNonzero then do
          Run.countTruncation k
          return [(k, link?)]
        else return (k, link?) :: (← Run.scanReducedCoeffs truncate vars (higher ++ [c]) cs) :
          RunM (List (ℕ × Option ℕ))) := fun r link? => by
      split_ifs
      · exact h.bind (h.countTruncation _) fun _ => h.pure _
      · exact h.bind (ih _) fun _ => h.pure _
    rw [Run.scanReducedCoeffs]
    split_ifs
    · exact h.bind (h.store _) fun _ => h.bind (ih _) fun _ => h.pure _
    · refine h.bind (h.reduceCoeff _ _ _) fun r => ?_
      split
      · exact h.bind (h.count _) fun _ => h.pure _
      · rename_i r negated
        by_cases hr : r.isZero = true
        · rw [if_pos hr]
          exact h.bind (h.pure _) (hnext r)
        · rw [if_neg hr]
          exact h.bind (h.map (h.request _ _)) (hnext r)

theorem hong (before : List ProjectionFactor) : K (Run.hong truncate f before) := by
  rw [Run.hong]
  exact h.bind (h.scanReducedCoeffs _ _ _) fun cs =>
    h.bind (h.mapM fun r => h.subresultants _ _ _) fun ss =>
      h.bind (h.mapM fun q => h.bind (h.mapM fun r => h.subresultants _ _ _) fun _ =>
        h.pure _) fun _ => h.pure _

/-! ## Levels -/

theorem factorsOf (op : ProjectionOperator) (level : ℕ) (inputs : List Poly)
    (before : List ProjectionFactor) (ps : List Poly) :
    K (Run.factorsOf op truncate level inputs before ps) := by
  induction ps generalizing before with
  | nil => exact h.pure _
  | cons p ps ih =>
    rw [Run.factorsOf.eq_def]
    cases op with
    | mcCallum => exact h.bind (h.mcCallum _) fun _ => h.bind (h.count _) fun _ => ih _
    | hong => exact h.bind (h.hong _) fun _ => h.bind (h.count _) fun _ => ih _

variable (halgebra : ∀ e, P (.algebra e))

include halgebra

theorem levelsBelow (op : ProjectionOperator) (inputs : List (List Poly)) (n : ℕ) :
    K (Run.levelsBelow op truncate inputs n) := by
  induction n with
  | zero => exact h.pure _
  | succ n ih =>
    rw [Run.levelsBelow]
    exact h.bind (h.take n) fun ps =>
      h.bind (h.lift (Q := fun _ => True) (fun _ _ => trivial) fun e _ => halgebra e) fun basis =>
        h.bind (h.factorsOf ..) fun fs => h.bind ih fun _ => h.pure _

theorem ofAtoms (op : ProjectionOperator) (truncate : Bool) (atoms : List Poly) (n : ℕ) :
    K (ofAtoms op truncate atoms n) := by
  rw [Projection.ofAtoms]
  refine h.bind (h.count _) fun _ => h.bind (h.mapM fun a => h.request _ _) fun requests =>
    h.read (fun s => h.bind (h.levelsBelow halgebra op s.pending n) fun levels => ?_)
      fun s t hst _ => by rw [hst]
  refine h.read (fun t => h.bind (h.lift (Q := fun _ => True) (fun _ _ => trivial)
    fun e _ => halgebra e) fun r => h.pure _) fun s t _ hst => by rw [hst]

end Rule

end Projection

end Cylindrical
