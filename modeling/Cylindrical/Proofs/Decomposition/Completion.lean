import Mathlib
import Cylindrical.Proofs.Decomposition.Worklist
import Cylindrical.Proofs.Failure

/-!
# Completion of a decomposition

As long as all calls succeed, every open cell waits on the worklist.  Then the loop that lifts the
waiting cells comes to an end; it leaves no open cell behind unless it fails, and the matrix is
decided wherever all variables are fixed.
-/

namespace Cylindrical

open DecompositionError (Determinate)

namespace CellTree

theorem errors_addChildren (t : CellTree) (parent : ℕ) (stack : List StackCell) :
    Errors Determinate (t.addChildren parent stack) := fun e h => by
  rw [addChildren, addStack_eq] at h
  dsimp only at h
  split_ifs at h <;>
  · cases h
    intro path he
    cases he

theorem errors_followFrom (t : CellTree) (path : List ℕ) (step id : ℕ) (is : List ℕ) :
    Errors Determinate (t.followFrom path step id is) := fun e h => by
  induction is generalizing step id with
  | nil => cases h
  | cons i is ih =>
    rw [followFrom] at h
    split at h
    · cases h
      nofun
    · split at h
      · cases h
        nofun
      · exact ih _ _ h

end CellTree

namespace Decomposition

variable {d e f : Decomposition} {c : Cell} {op : ProjectionOperator} {err : DecompositionError}
  {cfg : Config} {p : Prenex}

/-! ## The matrix is never undetermined -/

theorem raises_buildStack (q : Projection) (c : Cell) : Raises Determinate (buildStack q c) := by
  rw [buildStack]
  exact raises_get.bind fun d => raises_focus
    ((Stack.raises_cells ..).bind fun _ => raises_get.bind fun _ => raises_pure _) fun _ he => he

theorem not_ends_error {x : DecompositionM Unit} {Q : Unit → Decomposition → Prop}
    (h : Ends x d Q fun _ => False) : x d ≠ .error err e := fun hx => h.of_error hx

theorem determinate_project (h : d.Consistent) (hrun : project op d = .error err e) :
    err.Determinate := by
  rw [project, run_get_bind] at hrun
  rcases run_bind_eq_error hrun with hrun | ⟨r, f, hproject, hrun⟩
  · exact raises_focus (Projection.raises_project ..) (fun _ he => he) hrun
  · obtain ⟨τ, hr, rfl⟩ := run_focus_eq_ok hproject
    exact absurd hrun (not_ends_error (ends_startAnew h hr ⟨rfl, rfl, rfl⟩))

theorem determinate_ensureProjected (h : d.Consistent) (hrun : ensureProjected d = .error err e) :
    err.Determinate := by
  rw [ensureProjected, run_get_bind] at hrun
  split_ifs at hrun
  · exact determinate_project h hrun
  · cases hrun

theorem determinate_liftCell (h : Sound cfg p d) (hc : d.tree.get? c.id = some c)
    (hleaf : c.children = none) (hrun : liftCell c d = .error err e) : err.Determinate := by
  rw [liftCell, run_get_bind] at hrun
  cases hp : d.projection with
  | none =>
    rw [hp] at hrun
    cases hrun
  | some q =>
    obtain ⟨q, links⟩ := q
    simp only [hp] at hrun
    rcases run_bind_eq_error hrun with hrun | ⟨⟨stack, changes⟩, d₁, hstack, hrun⟩
    · exact raises_buildStack q c hrun
    have hbuild : Ends (buildStack q c) d (fun r e => SameTruths d e ∧ r.1 ≠ [] ∧
        ∀ s ∈ r.1, ∃ signs : List Sign, s.signature = signs.map some ∧
          signs.length = (q.factors c.depth).length) fun _ => True :=
      ends_buildStack (fun _ _ _ h₁ hne hs => ⟨h₁, hne, hs⟩) fun _ _ => trivial
    obtain ⟨h₁, hne, hsigns⟩ := hbuild.of_ok hstack
    rw [run_modify_bind, run_get_bind] at hrun
    rcases run_bind_eq_error hrun with hrun | ⟨⟨ids, tree⟩, d₂, hadd, hrun⟩
    · exact raises_lift (CellTree.errors_addChildren ..) (fun _ he => he) hrun
    obtain ⟨hr, rfl⟩ := run_lift_eq_ok hadd
    exact absurd hrun (not_ends_error (ends_labelStack h.consistent h.labelled hp hc hleaf
      (sameTruths_replaceCoords h₁ c.id changes) hne hsigns hr))

theorem determinate_withFallback {x again : DecompositionM Unit}
    (hx : ∀ {err e}, x d = .error err e → err.Determinate ∧ Sound cfg p e)
    (hagain : ∀ {f g err}, Sound cfg p f → again f = .error err g → err.Determinate)
    (hrun : withFallback x again d = .error err e) : err.Determinate := by
  rw [withFallback] at hrun
  split at hrun
  · cases hrun
  · rename_i d' hd'
    obtain ⟨hdet, hs⟩ := hx hd'
    split_ifs at hrun
    · have hcount : Sound cfg p { d' with stats := { d'.stats with
          hongFallbacks := d'.stats.hongFallbacks + 1 } } :=
        (stepwise_sound cfg p).same hs (sameTruths_of_eq ⟨rfl, rfl, rfl⟩ rfl rfl)
      rw [count, run_modify_bind] at hrun
      rcases run_bind_eq_error hrun with hrun | ⟨u, f, hproject, hrun⟩
      · exact determinate_project hcount.consistent hrun
      · exact hagain (((kept_sound cfg p).ends_project hcount).of_ok hproject) hrun
    · cases hrun
      exact hdet

theorem determinate_liftNext (h : Sound cfg p d) (hrun : liftNext d = .error err e) :
    err.Determinate := by
  rw [liftNext, run_get_bind] at hrun
  cases hw : d.worklist with
  | nil =>
    rw [hw] at hrun
    cases hrun
  | cons i is =>
    have hs := h.pop is
    simp only [hw, run_modify_bind, run_get_bind] at hrun
    cases hc : d.tree.get? i with
    | none =>
      rw [hc] at hrun
      cases hrun
    | some c =>
      simp only [hc] at hrun
      split_ifs at hrun with hdone
      · cases hrun
      · rw [Bool.or_eq_true, not_or] at hdone
        have hleaf : c.children = none := Option.not_isSome_iff_eq_none.1 hdone.1
        have hid : d.tree.get? c.id = some c := by rw [h.consistent.tree.id_eq hc, hc]
        rcases run_bind_eq_error hrun with hrun | ⟨u, f, -, hrun⟩
        · exact determinate_withFallback (fun hlift => ⟨determinate_liftCell hs hid hleaf hlift,
            ((kept_sound cfg p).ends_liftCell hs hid hleaf).of_error hlift⟩)
            (fun _ hagain => by cases hagain) hrun
        · cases hrun

theorem determinate_liftUpTo (n : ℕ) (h : Sound cfg p d) (hp : d.projection.isSome = true)
    (hrun : liftUpTo n d = .error err e) : err.Determinate := by
  induction n generalizing d with
  | zero => cases hrun
  | succ n ih =>
    rw [liftUpTo] at hrun
    rcases run_bind_eq_error hrun with hrun | ⟨b, f, hnext, hrun⟩
    · exact determinate_liftNext h hrun
    · obtain ⟨hs, hp⟩ := ((kept_sound cfg p).ends_liftNext (fun h _ => h.pop _) h hp).of_ok hnext
      cases b with
      | false => cases hrun
      | true => exact ih hs hp hrun

theorem determinate_liftAll (h : Sound cfg p d) (hrun : liftAll d = .error err e) :
    err.Determinate := by
  rw [liftAll] at hrun
  rcases run_bind_eq_error hrun with hrun | ⟨u, f, hproject, hrun⟩
  · exact determinate_ensureProjected h.consistent hrun
  · obtain ⟨hs, hp⟩ := ((kept_sound cfg p).ends_ensureProjected h).of_ok hproject
    rw [run_get_bind] at hrun
    exact determinate_liftUpTo _ hs hp hrun

theorem determinate_liftAlong (path ks : List ℕ) (h : Sound cfg p d)
    (hrun : liftAlong path ks d = .error err e) : err.Determinate := by
  induction ks generalizing d with
  | nil => cases hrun
  | cons k ks ih =>
    rw [liftAlong, run_get_bind] at hrun
    rcases run_bind_eq_error hrun with hrun | ⟨i, f, hi, hrun⟩
    · exact raises_lift (CellTree.errors_followFrom ..) (fun _ he => he) hrun
    obtain ⟨-, rfl⟩ := run_lift_eq_ok hi
    cases hc : f.tree.get? i with
    | none =>
      simp only [hc] at hrun
      exact ih h hrun
    | some c =>
      have hid : f.tree.get? c.id = some c := by rw [h.consistent.tree.id_eq hc, hc]
      simp only [hc] at hrun
      cases hleaf : c.children with
      | none =>
        rw [if_pos (by rw [Cell.isLifted, hleaf]; rfl)] at hrun
        rcases run_bind_eq_error hrun with hrun | ⟨u, g, hlift, hrun⟩
        · exact determinate_liftCell h hid hleaf hrun
        · exact ih (((kept_sound cfg p).ends_liftCell h hid hleaf).of_ok hlift) hrun
      | some ids =>
        rw [if_neg (by rw [Cell.isLifted, hleaf]; exact Bool.false_ne_true)] at hrun
        exact ih h hrun

theorem determinate_liftPath (path : List ℕ) (h : Sound cfg p d)
    (hrun : liftPath path d = .error err e) : err.Determinate := by
  rw [liftPath] at hrun
  rcases run_bind_eq_error hrun with hrun | ⟨u, f, hproject, hrun⟩
  · exact determinate_ensureProjected h.consistent hrun
  · obtain ⟨hs, -⟩ := ((kept_sound cfg p).ends_ensureProjected h).of_ok hproject
    rw [run_get_bind] at hrun
    simp only at hrun
    split_ifs at hrun
    · cases hrun
      intro path he
      cases he
    · exact determinate_withFallback (fun hlift => ⟨determinate_liftAlong _ _ hs hlift,
        ((kept_sound cfg p).ends_liftAlong _ _ hs).of_error hlift⟩)
        (fun hf hagain => determinate_liftAlong _ _ hf hagain) hrun

/-- No call reports that the matrix is undetermined. -/
theorem Call.determinate_run (call : Call) (h : Sound cfg p d) (hrun : call.run d = .error err e) :
    err.Determinate := by
  cases call with
  | project op => exact determinate_project h.consistent hrun
  | lift => exact determinate_liftAll h hrun
  | liftPath path => exact determinate_liftPath path h hrun
  | solve =>
    have hsolve := run_discard_eq_error hrun
    rw [Decomposition.solve] at hsolve
    rcases run_bind_eq_error hsolve with hlift | ⟨u, f, -, hsolve⟩
    · exact determinate_liftAll h hlift
    · cases hsolve

/-! ## The loop ends -/

/-- Each step of the loop leaves fewer cells to come off the worklist. -/
theorem acc_liftNext (h : Sound cfg p d) (hp : d.projection.isSome = true) :
    Acc (fun f e => liftNext e = .ok true f) d := by
  induction hn : d.pending using Nat.strong_induction_on generalizing d with
  | _ n ih =>
    -- which cells wait does not matter here
    have hcov : d.Covered (List.range d.tree.size) := fun _ i ⟨c, hc, _⟩ =>
      .inr (List.mem_range.2 (CellTree.lt_size_iff.2 ⟨c, hc⟩))
    refine ⟨_, fun e he => ?_⟩
    obtain ⟨hs, -, hproj, hlt⟩ := (ends_liftNext_covered h hcov hp).of_ok he
    exact ih _ (hn ▸ hlt) hs hproj rfl

/-! ## Calls that succeed -/

/-- Calls lead from `d` to `e`, and all of them succeed. -/
inductive Succeeds (d : Decomposition) : Decomposition → Prop
  | refl : Succeeds d d
  | step {e f : Decomposition} (call : Call) : Succeeds d e → call.run e = .ok () f → Succeeds d f

theorem Succeeds.failedLifts (h : Succeeds d e) : FailedLifts d 0 e := by
  induction h with
  | refl => exact .refl
  | step call _ hrun ih => exact .ok call ih hrun

theorem Succeeds.covered {algebra : AlgebraSystem} {names : VariableTable} {φ : Formula}
    (h : ofFormula cfg algebra names φ = .ok d) (he : Succeeds d e) :
    Sound cfg d.formula e ∧ e.Covered [] := by
  obtain ⟨hs, lost, hlen, hcov⟩ := covered_of_failedLifts h he.failedLifts
  obtain rfl := List.length_eq_zero_iff.1 (Nat.le_zero.1 hlen)
  exact ⟨hs, hcov⟩

/-- After calls that all succeed, every open cell waits on the worklist.  So the loop that lifts the
waiting cells ends, no open cell is left when it has succeeded, no call finds the matrix
undetermined, and `solve` decides a sentence whenever it returns. -/
theorem open_cells_wait {algebra : AlgebraSystem} {names : VariableTable} {φ : Formula}
    (h : ofFormula cfg algebra names φ = .ok d) (he : Succeeds d e) :
    (e.projection.isSome = true → ∀ i, e.Open i → i ∈ e.worklist) ∧
    (∀ f, ensureProjected e = .ok () f → Acc (fun g f => liftNext f = .ok true g) f) ∧
    (∀ f, liftAll e = .ok () f → f.worklist = [] ∧ ∀ i, ¬f.Open i) ∧
    (∀ (call : Call) f path,
      call.run e ≠ .error (.inconclusive (.matrixUndetermined path)) f) ∧
    (e.IsSentence → ∀ b f, solve e = .ok b f → b.isSome = true) := by
  obtain ⟨hs, hcov⟩ := he.covered h
  refine ⟨fun hp i hi => ?_, fun f hf => ?_, fun f hf => ?_, fun call f path hrun => ?_,
    fun hsentence b f hrun => solve_isSome hs hcov hsentence hrun⟩
  · exact (hcov hp i hi).resolve_right List.not_mem_nil
  · obtain ⟨hf, hp⟩ := ((kept_sound cfg d.formula).ends_ensureProjected hs).of_ok hf
    exact acc_liftNext hf hp
  · obtain ⟨-, hcov, hp, hw⟩ := (ends_liftAll_covered hs hcov).of_ok hf
    refine ⟨hw, fun i hi => ?_⟩
    have hwait := (hcov hp i hi).resolve_right List.not_mem_nil
    rw [hw] at hwait
    cases hwait
  · exact call.determinate_run hs hrun path rfl

/-- After a projection for the question whether there is a positive number, the root is open and
waits, and `solve` decides the question. -/
theorem open_cells_wait_positive : ∃ (d e f : Decomposition) (b : Option Bool),
    ofFormula {} {} (.ofNames ["x"]) (.quantified .exists [0] (.atom (.var 0) .gt)) = .ok d ∧
    e.IsSentence ∧ Succeeds d e ∧ e.Open 0 ∧ 0 ∈ e.worklist ∧ solve e = .ok b f ∧
    b.isSome = true := by
  obtain ⟨d, hd, hproject, hroot, hsolve⟩ : ∃ d, ofFormula {} {} (.ofNames ["x"])
      (.quantified .exists [0] (.atom (.var 0) .gt)) = .ok d ∧
      returned? ((Call.project .hong).run d) = some () ∧
      (let e := stateAfter ((Call.project .hong).run d)
       e.projection.isSome = true ∧ e.IsSentence ∧ (e.tree.get? 0).any fun c =>
         c.children.isNone && c.depth < e.size && !e.tree.isSettled 0) ∧
      returned? (solve (stateAfter ((Call.project .hong).run d))) = some (some true) :=
    ⟨_, rfl, by decide +kernel, by decide +kernel, by decide +kernel⟩
  obtain ⟨e, hproject⟩ := exists_eq_ok hproject
  rw [hproject, stateAfter] at hroot hsolve
  obtain ⟨hprojected, hs, hroot⟩ := hroot
  obtain ⟨f, hsolve⟩ := exists_eq_ok hsolve
  obtain ⟨c, hc, hroot⟩ := (Option.any_eq_true _ _).1 hroot
  rw [Bool.and_eq_true, Bool.and_eq_true, Option.isNone_iff_eq_none, decide_eq_true_eq,
    Bool.not_eq_true'] at hroot
  obtain ⟨⟨hleaf, hdepth⟩, hunsettled⟩ := hroot
  have hopen : e.Open 0 := ⟨c, hc, hleaf, hdepth, hunsettled⟩
  have hcalls := Succeeds.step _ .refl hproject
  obtain ⟨hwait, -, -, -, hdecides⟩ := open_cells_wait hd hcalls
  exact ⟨d, e, f, some true, hd, hs, hcalls, hopen, hwait hprojected 0 hopen, hsolve,
    hdecides hs _ _ hsolve⟩

end Decomposition

end Cylindrical
