import Mathlib
import Cylindrical.Proofs.Focus
import Cylindrical.Proofs.Projection.Composition
import Cylindrical.Proofs.Stack.Composition

/-!
# Runs in lockstep

Runs of one computation from states that differ in counts end with the same result or the same
error, in states that again differ in counts only.  Of the counts only the number of replacements is
read, to see whether it grows; so it suffices that the difference of the two numbers stays.
-/

namespace Cylindrical

variable {ε δ σ τ κ α β : Type}

/-- Two runs end with the same result or the same error, in states that are related by `Q` or by
`E`. -/
inductive SameEnd (Q E : σ → σ → Prop) :
    EStateM.Result ε σ α → EStateM.Result ε σ α → Prop
  | ok {a : α} {s t : σ} : Q s t → SameEnd Q E (.ok a s) (.ok a t)
  | error {e : ε} {s t : σ} : E s t → SameEnd Q E (.error e s) (.error e t)

section SameEnd

variable {Q Q' E E' : σ → σ → Prop} {x y : EStateM ε σ α} {s t : σ}

theorem SameEnd.mono {u v : EStateM.Result ε σ α} (h : SameEnd Q E u v)
    (hQ : ∀ s t, Q s t → Q' s t) (hE : ∀ s t, E s t → E' s t) : SameEnd Q' E' u v := by
  cases h with
  | ok h => exact .ok (hQ _ _ h)
  | error h => exact .error (hE _ _ h)

theorem SameEnd.bind {f g : α → EStateM ε σ β} (h : SameEnd Q E (x s) (y t))
    (hf : ∀ a s' t', Q s' t' → SameEnd Q' E (f a s') (g a t')) :
    SameEnd Q' E ((x >>= f) s) ((y >>= g) t) := by
  rw [Bind.bind, Monad.toBind, EStateM.instMonad]
  simp only [EStateM.bind]
  revert h
  generalize x s = u, y t = v
  intro h
  cases h with
  | ok h => exact hf _ _ _ h
  | error h => exact .error h

theorem SameEnd.cases {u v : EStateM.Result ε σ α} (h : SameEnd Q E u v) :
    (∃ a s t, u = .ok a s ∧ v = .ok a t ∧ Q s t) ∨
      ∃ e s t, u = .error e s ∧ v = .error e t ∧ E s t := by
  cases h with
  | ok h => exact .inl ⟨_, _, _, rfl, rfl, h⟩
  | error h => exact .inr ⟨_, _, _, rfl, rfl, h⟩

theorem SameEnd.outcome_eq {u v : EStateM.Result ε σ α} (h : SameEnd Q E u v) :
    outcome u = outcome v := by
  cases h <;> rfl

theorem SameEnd.stateAfter {u v : EStateM.Result ε σ α} (h : SameEnd Q Q u v) :
    Q (stateAfter u) (stateAfter v) := by
  cases h with
  | ok h => exact h
  | error h => exact h

end SameEnd

/-! ## Rules -/

/-- The states `s'` and `t'` are related, and each has the key of the state it comes from. -/
structure Along (r : σ → σ → Prop) (key : σ → κ) (s t s' t' : σ) : Prop where
  rel : r s' t'
  left : key s' = key s
  right : key t' = key t

/-- From related states, both runs end with the same result or the same error, in related states;
neither changes the key. -/
def Lockstep (r : σ → σ → Prop) (key : σ → κ) (x : EStateM ε σ α) : Prop :=
  ∀ ⦃s t⦄, r s t → SameEnd (Along r key s t) (Along r key s t) (x s) (x t)

namespace Lockstep

variable {r : σ → σ → Prop} {key : σ → κ} {x : EStateM ε σ α}

theorem pure (a : α) : Lockstep r key (Pure.pure a : EStateM ε σ α) :=
  fun _ _ h => .ok ⟨h, rfl, rfl⟩

theorem throw (e : ε) : Lockstep r key (MonadExcept.throw e : EStateM ε σ α) :=
  fun _ _ h => .error ⟨h, rfl, rfl⟩

theorem bind {f : α → EStateM ε σ β} (hx : Lockstep r key x) (hf : ∀ a, Lockstep r key (f a)) :
    Lockstep r key (x >>= f) := fun s t h => by
  refine (hx h).bind fun a s' t' h' => (hf a h'.rel).mono (fun u v huv => ?_) fun u v huv => ?_ <;>
  exact ⟨huv.rel, huv.left.trans h'.left, huv.right.trans h'.right⟩

theorem composable (r : σ → σ → Prop) (key : σ → κ) (P : ε → Prop) :
    Composable P fun {_} (x : EStateM ε σ _) => Lockstep r key x where
  pure a := .pure a
  throw _ := .throw _
  bind hx hf := hx.bind hf

/-- What is read of the state is the same in related states. -/
theorem read {f : σ → EStateM ε σ β} (hf : ∀ s, Lockstep r key (f s))
    (heq : ∀ s t, r s t → f s = f t) : Lockstep r key (get >>= f) := fun s t h => by
  rw [run_get_bind, run_get_bind, heq s t h]
  exact hf t h

theorem update {g : σ → σ} (hg : ∀ s t, r s t → r (g s) (g t)) (hkey : ∀ s, key (g s) = key s) :
    Lockstep r key (modify g : EStateM ε σ PUnit) :=
  fun s t h => .ok ⟨hg s t h, hkey s, hkey t⟩

/-- A computation on a part of the state. -/
theorem focus {get : σ → τ} {set : τ → σ → σ} {cause : δ → ε} {y : EStateM δ τ α}
    {Q : σ → σ → τ → τ → Prop}
    (h : ∀ s t, r s t → SameEnd (Q s t) (Q s t) (y (get s)) (y (get t)))
    (hset : ∀ s t s' t', r s t → Q s t s' t' → Along r key s t (set s' s) (set t' t)) :
    Lockstep r key (Cylindrical.focus get set cause y) := fun s t hst => by
  have hy := h s t hst
  rw [Cylindrical.focus, Cylindrical.focus]
  revert hy
  generalize y (get s) = u, y (get t) = v
  intro hy
  cases hy with
  | ok h' => exact .ok (hset s t _ _ hst h')
  | error h' => exact .error (hset s t _ _ hst h')

/-- What a run does not change. -/
theorem keeps {s : σ} (h : Lockstep r key x) (hs : r s s) :
    Ends x s (fun _ t => key t = key s) fun t => key t = key s := by
  have hx := h hs
  rw [Ends]
  revert hx
  generalize x s = u
  intro hx
  cases hx with
  | ok h' => exact h'.left
  | error h' => exact h'.left

end Lockstep

/-! ## The algebra -/

/-- Both algebras have the same settings. -/
def SameSettings (s t : AlgebraSystem) : Prop := s.groebner = t.groebner

theorem AlgebraSystem.lockstep_call (g : CallCounts → CallCounts) (y : Algebra α) :
    Lockstep SameSettings groebner (call g y) := by
  rw [call.eq_def]
  refine .bind (.update (fun _ _ h => h) fun _ => rfl) fun _ => ?_
  cases y with
  | ok a => exact .pure a
  | error e => exact .throw e

namespace Groebner

variable {cfg : Config}

/-- The counts of completion are not read. -/
abbrev Uncounted (x : Completion α) : Prop := Lockstep (fun _ _ => True) (fun _ => ()) x

theorem uncounted_modify (g : Stats → Stats) : Uncounted (modify g) :=
  .update (fun _ _ _ => trivial) fun _ => rfl

theorem uncounted_complete (steps : ℕ) (basis : Array Poly) (pairs : List (ℕ × ℕ)) :
    Uncounted (complete cfg steps basis pairs) := by
  induction steps generalizing basis pairs with
  | zero => cases pairs <;> exact .pure _
  | succ steps ih =>
    cases pairs with
    | nil => exact .pure _
    | cons p pairs =>
      rw [complete]
      simp only
      split_ifs
      · exact .bind (uncounted_modify _) fun _ => ih _ _
      · exact .bind (uncounted_modify _) fun _ => .bind (uncounted_modify _) fun _ => ih _ _
      · exact .bind (uncounted_modify _) fun _ => .pure _
      · exact .bind (uncounted_modify _) fun _ => .throw _
      · exact .bind (uncounted_modify _) fun _ => .bind (uncounted_modify _) fun _ => ih _ _

theorem uncounted_basis (cfg : Config) (o : MonomialOrder) (ps : List Poly) :
    Uncounted (basis cfg o ps) := by
  rw [basis]
  split_ifs
  · exact .pure _
  · refine .bind (uncounted_complete _ _ _) fun b => ?_
    cases b <;> exact .pure _

end Groebner

theorem AlgebraSystem.lockstep_groebnerBasis (ranked : List ℕ) (block : ℕ) (ps : List Poly) :
    Lockstep SameSettings groebner (groebnerBasis ranked block ps) := fun s t h => by
  have hbasis := Groebner.uncounted_basis t.groebner (eliminationOrder ranked block)
    (ps.map ((VariableOrder.ofPolys ranked ps).apply (eliminationOrder ranked block)))
    (s := s.groebnerStats) (t := t.groebnerStats) trivial
  rw [groebnerBasis, groebnerBasis]
  simp only [show s.groebner = t.groebner from h]
  revert hbasis
  generalize Groebner.basis _ _ _ s.groebnerStats = u, Groebner.basis _ _ _ t.groebnerStats = v
  intro hbasis
  cases hbasis with
  | ok => exact .ok ⟨rfl, h.symm, rfl⟩
  | error => exact .error ⟨rfl, h.symm, rfl⟩

/-! ## Tests and stacks -/

/-- The states differ in counts, the numbers of replacements by `n`. -/
structure PointState.Apart (n : ℤ) (s t : PointState) : Prop where
  settings : SameSettings s.algebra t.algebra
  point : s.point = t.point
  replacements : (s.stats.replacements : ℤ) - t.stats.replacements = n

namespace ZeroTest

theorem rule_lockstep : Rule fun x =>
    ∀ n, Lockstep (PointState.Apart n) (·.algebra.groebner) x where
  pure a _ := .pure a
  throw _ _ := .throw _
  bind hx hf n := (hx n).bind fun a => hf a n
  point hf heq n := .read (fun s => hf s n) fun s t h => heq s t h.point
  call g y n := .focus (fun _ _ h => AlgebraSystem.lockstep_call g y h.settings)
    fun _ _ _ _ h h' => ⟨⟨h'.rel, h.point, h.replacements⟩, h'.left, h'.right⟩
  count hg n := .update (fun s t h => ⟨h.settings, h.point, by
    obtain ⟨k, hk⟩ := hg
    have := h.replacements
    rw [hk, hk]
    push_cast
    omega⟩) fun _ => rfl
  refineTo vars bits n := .update (fun s t h => ⟨h.settings, by rw [h.point], h.replacements⟩)
    fun _ => rfl
  replace v d n := by
    rw [replace]
    refine .read (fun s => ?_) fun s t h => by rw [h.point]
    split
    · refine .bind (.update (fun s t h => ⟨h.settings, h.point, ?_⟩) fun _ => rfl) fun _ =>
        .update (fun s t h => ⟨h.settings, by rw [h.point], h.replacements⟩) fun _ => rfl
      have := h.replacements
      push_cast
      omega
    · exact .pure _

end ZeroTest

/-- The states differ in counts, the numbers of replacements by `n`. -/
def StackState.Apart (n : ℤ) (s t : StackState) : Prop :=
  PointState.Apart n s.toPointState t.toPointState

namespace Stack

theorem pushRule_lockstep : PushRule (fun _ => True) fun x =>
    ∀ n, Lockstep (StackState.Apart n) (·.algebra.groebner) x where
  pure a _ := .pure a
  throw _ _ := .throw _
  bind hx hf n := (hx n).bind fun a => hf a n
  ofTest _ := trivial
  point hf heq n := .read (fun s => hf s n) fun s t h => heq s t h.point
  count g n := .update (fun _ _ h => h) fun _ => rfl
  test h n := .focus (fun _ _ hst => h _ ZeroTest.rule_lockstep n hst)
    fun _ _ _ _ _ h' => ⟨h'.rel, h'.left, h'.right⟩
  replaced {_ _ x y z} hx hy hz n := fun s t h => by
    rw [run_get_bind, run_get_bind]
    refine (hx n h).bind fun _ s' t' h' => ?_
    rw [run_get_bind, run_get_bind]
    -- both runs have added the same number of replacements
    have hgrown : s.stats.replacements < s'.stats.replacements ↔
        t.stats.replacements < t'.stats.replacements := by
      have := h.replacements
      have := h'.rel.replacements
      omega
    have hrest : SameEnd (Along (StackState.Apart n) (·.algebra.groebner) s' t')
        (Along (StackState.Apart n) (·.algebra.groebner) s' t')
        ((if s.stats.replacements < s'.stats.replacements then y else z) s')
        ((if t.stats.replacements < t'.stats.replacements then y else z) t') := by
      rw [if_congr hgrown rfl rfl]
      split_ifs
      · exact hy n h'.rel
      · exact hz n h'.rel
    refine hrest.mono (fun u v huv => ?_) fun u v huv => ?_ <;>
    exact ⟨huv.rel, huv.left.trans h'.left, huv.right.trans h'.right⟩
  push c n := .update (fun s t h => ⟨h.settings, by rw [h.point], h.replacements⟩) fun _ => rfl
  pop n := .update (fun s t h => ⟨h.settings, by rw [h.point], h.replacements⟩) fun _ => rfl

end Stack

/-! ## Projections -/

namespace Projection

/-- The runs differ in counts. -/
structure Run.Apart (s t : Run) : Prop where
  settings : SameSettings s.algebra t.algebra
  pending : s.pending = t.pending
  derived : s.derived = t.derived

theorem rule_lockstep : Rule (fun _ => True) fun x =>
    Lockstep Run.Apart (·.algebra.groebner) x where
  toComposable := Lockstep.composable ..
  read hf heq := .read hf fun s t h => heq s t h.pending h.derived
  call g y := .focus (fun _ _ h => AlgebraSystem.lockstep_call g y h.settings)
    fun _ _ _ _ h h' => ⟨⟨h'.rel, h.pending, h.derived⟩, h'.left, h'.right⟩
  groebnerBasis ranked block ps := .focus
    (fun _ _ h => AlgebraSystem.lockstep_groebnerBasis ranked block ps h.settings)
    fun _ _ _ _ h h' => ⟨⟨h'.rel, h.pending, h.derived⟩, h'.left, h'.right⟩
  count g := .update (fun _ _ h => ⟨h.settings, h.pending, h.derived⟩) fun _ => rfl
  store d := fun s t h => by
    have hsize : s.derived.size = t.derived.size := by rw [h.derived]
    have hrel : Run.Apart { s with derived := s.derived.push d }
        { t with derived := t.derived.push d } := ⟨h.settings, h.pending, by rw [h.derived]⟩
    change SameEnd _ _ (.ok s.derived.size { s with derived := s.derived.push d })
      (.ok t.derived.size { t with derived := t.derived.push d })
    rw [hsize]
    exact .ok ⟨hrel, rfl, rfl⟩
  leave p := by
    rw [Run.leave]
    refine .read (fun s => ?_) fun s t h => by simp only [h.pending]
    split
    · exact .throw _
    · split_ifs
      · exact .pure _
      · exact .update (fun s t h => ⟨h.settings, by rw [h.pending], h.derived⟩) fun _ => rfl
  take level := fun s t h => by
    have hrel : Run.Apart { s with pending := s.pending.set level [] }
        { t with pending := t.pending.set level [] } :=
      ⟨h.settings, by rw [h.pending], h.derived⟩
    change SameEnd _ _ (.ok (s.pending.getD level []) { s with pending := s.pending.set level [] })
      (.ok (t.pending.getD level []) { t with pending := t.pending.set level [] })
    rw [h.pending] at hrel ⊢
    exact .ok ⟨hrel, rfl, rfl⟩

/-- Projections with the same settings agree. -/
theorem lockstep_project (op : ProjectionOperator) (truncate : Bool) (atoms : List Poly) (n : ℕ) :
    Lockstep (fun s t => SameSettings s.algebra t.algebra) (·.algebra.groebner)
      (project op truncate atoms n) := fun s t h => by
  have hrun := rule_lockstep.ofAtoms (fun _ => trivial) op truncate atoms n
    (s := { s with pending := List.replicate n [] })
    (t := { t with pending := List.replicate n [] })
    ⟨h, rfl, rfl⟩
  rw [project, project]
  revert hrun
  generalize ofAtoms op truncate atoms n { s with pending := List.replicate n [] } = u,
    ofAtoms op truncate atoms n { t with pending := List.replicate n [] } = v
  intro hrun
  cases hrun with
  | ok h' => exact .ok ⟨h'.rel.settings, h'.left, h'.right⟩
  | error h' => exact .error ⟨h'.rel.settings, h'.left, h'.right⟩

end Projection

end Cylindrical
