import Mathlib
import Cylindrical.Proofs.Focus
import Cylindrical.Proofs.Projection.Composition
import Cylindrical.Proofs.Stack.Composition

/-!
# Errors of composed computations

The errors a composed computation may end with are those of its parts.  So neither a test at a point
nor the construction of a stack nor a projection reports an undetermined matrix.
-/

namespace Cylindrical

variable {ε δ σ τ α β : Type}

/-- Every run that fails does so with an error in `P`. -/
def Raises (P : ε → Prop) (x : EStateM ε σ α) : Prop := ∀ ⦃s e t⦄, x s = .error e t → P e

theorem run_bind_eq_error {x : EStateM ε σ α} {f : α → EStateM ε σ β} {s u : σ} {e : ε}
    (h : (x >>= f) s = .error e u) :
    x s = .error e u ∨ ∃ a t, x s = .ok a t ∧ f a t = .error e u := by
  rw [bind, Monad.toBind, EStateM.instMonad] at h
  simp only [EStateM.bind] at h
  split at h
  · rename_i a t hx
    exact .inr ⟨a, t, hx, h⟩
  · rename_i d t hx
    cases h
    exact .inl hx

theorem run_discard_eq_error {x : EStateM ε σ α} {s t : σ} {e : ε}
    (h : (discard x : EStateM ε σ Unit) s = .error e t) : x s = .error e t := by
  change (x >>= fun _ => pure ()) s = .error e t at h
  rcases run_bind_eq_error h with h | ⟨a, s₁, -, h⟩
  · exact h
  · cases h

section Raises

variable {P : ε → Prop} {x : EStateM ε σ α}

theorem Raises.bind {f : α → EStateM ε σ β} (hx : Raises P x) (hf : ∀ a, Raises P (f a)) :
    Raises P (x >>= f) := fun _ _ _ h => by
  rcases run_bind_eq_error h with h | ⟨a, t, -, h⟩
  · exact hx h
  · exact hf a h

theorem raises_pure (a : α) : Raises P (pure a : EStateM ε σ α) := nofun

theorem raises_throw {e : ε} (h : P e) : Raises P (throw e : EStateM ε σ α) := fun _ _ _ he => by
  cases he
  exact h

theorem raises_get : Raises P (get : EStateM ε σ σ) := nofun

theorem raises_modify (g : σ → σ) : Raises P (modify g : EStateM ε σ PUnit) := nofun

theorem raises_modifyGet (g : σ → α × σ) : Raises P (modifyGet g : EStateM ε σ α) := nofun

theorem raises_focus {get : σ → τ} {set : τ → σ → σ} {cause : δ → ε} {Q : δ → Prop}
    {y : EStateM δ τ α} (hy : Raises Q y) (h : ∀ e, Q e → P (cause e)) :
    Raises P (focus get set cause y) := fun _ _ _ he => by
  rw [focus] at he
  split at he
  · cases he
  · rename_i d u hrun
    cases he
    exact h d (hy hrun)

theorem composable_raises (P : ε → Prop) :
    Composable P fun {_} (x : EStateM ε σ _) => Raises P x where
  pure a := raises_pure a
  throw he := raises_throw he
  bind hx hf := hx.bind hf

theorem raises_lift {Q : δ → Prop} {cause : δ → ε} {y : Except δ α} (hy : Errors Q y)
    (h : ∀ e, Q e → P (cause e)) : Raises P (lift cause y : EStateM ε σ α) :=
  (composable_raises P).lift hy h

theorem raises_mapM {f : α → EStateM ε σ β} {xs : List α} (h : ∀ a, Raises P (f a)) :
    Raises P (xs.mapM f) := (composable_raises P).mapM h

end Raises

open DecompositionError (Determinate OfTest)

/-! ## Tests and stacks -/

theorem ZeroTest.rule_raises : ZeroTest.Rule fun x => Raises OfTest x where
  toComposable := composable_raises OfTest
  point h _ := raises_get.bind h
  call _ _ := raises_focus (Q := fun _ => True) (fun _ _ _ _ => trivial) fun _ _ => trivial
  count _ := raises_modify _
  refineTo _ _ := raises_modify _
  replace v d := by
    rw [replace]
    refine raises_get.bind fun s => ?_
    split
    · exact (raises_modify _).bind fun _ => raises_modify _
    · exact raises_pure _

namespace Stack

theorem pushRule_raises {P : DecompositionError → Prop} (hP : ∀ {e}, OfTest e → P e) :
    PushRule P fun x => Raises P x where
  toComposable := composable_raises P
  ofTest := hP
  point h _ := raises_get.bind h
  count _ := raises_modify _
  test h := raises_focus (h _ ZeroTest.rule_raises) fun _ he => hP he
  replaced hx hy hz := raises_get.bind fun _ => hx.bind fun _ => raises_get.bind fun _ => by
    split_ifs
    · exact hy
    · exact hz
  push _ := raises_modify _
  pop := raises_modify _

theorem raises_cells (cfg : Config) (zero : ZeroTest.Config) (c : Cylinder) :
    Raises Determinate (cells cfg zero c) :=
  (pushRule_raises OfTest.determinate).cells (fun _ _ => nofun) c

end Stack

/-! ## Projections -/

namespace Projection

theorem rule_raises {P : DecompositionError → Prop} (hbackend : ∀ e, P (.backend e))
    (hunknown : ∀ v, P (.unknownVariable v)) : Rule P fun x => Raises P x where
  toComposable := composable_raises P
  read h _ := raises_get.bind h
  call _ _ := raises_focus (Q := fun _ => True) (fun _ _ _ _ => trivial) fun e _ => hbackend e
  groebnerBasis _ _ _ :=
    raises_focus (Q := fun _ => True) (fun _ _ _ _ => trivial) fun e _ => hbackend e
  count _ := raises_modify _
  store _ := raises_modifyGet _
  leave p := by
    rw [Run.leave]
    refine raises_get.bind fun s => ?_
    split
    · exact raises_throw (hunknown _)
    · split_ifs
      · exact raises_pure _
      · exact raises_modify _
  take _ := raises_modifyGet _

/-- The error of a request: a call of the algebra failed, or there is no level for a factor. -/
def Run.OfRequest (e : DecompositionError) : Prop :=
  (∃ c, e = .backend c) ∨ ∃ v, e = .unknownVariable v

theorem rule_ofRequest : Rule Run.OfRequest fun x => Raises Run.OfRequest x :=
  rule_raises (fun e => .inl ⟨e, rfl⟩) fun v => .inr ⟨v, rfl⟩

theorem raises_project (op : ProjectionOperator) (truncate : Bool) (atoms : List Poly) (n : ℕ) :
    Raises Determinate (project op truncate atoms n) := fun s e t h => by
  rw [project] at h
  split at h
  · cases h
  · rename_i hrun
    cases h
    exact (rule_raises (fun _ => nofun) fun _ => nofun).ofAtoms (fun _ => nofun) op truncate atoms n
      hrun

end Projection

end Cylindrical
