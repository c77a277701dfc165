import Mathlib
import Cylindrical.Focus

/-!
# Properties that composition keeps

A property of computations that returned values and thrown errors have and that composition keeps
holds of everything composed from computations that have it.  Walks through a program need such a
property only for its basic steps.
-/

namespace Cylindrical

variable {ε δ σ α β : Type}

/-- A computation without state has only the errors in `P`. -/
def Errors (P : ε → Prop) (x : Except ε α) : Prop := ∀ ⦃e⦄, x = .error e → P e

/-- A property of computations with the errors in `P` that composition keeps. -/
structure Composable (P : ε → Prop) (K : ∀ {α : Type}, EStateM ε σ α → Prop) : Prop where
  pure : ∀ {α : Type} (a : α), K (pure a)
  throw : ∀ {α : Type} {e : ε}, P e → K (throw e : EStateM ε σ α)
  bind : ∀ {α β : Type} {x : EStateM ε σ α} {f : α → EStateM ε σ β},
    K x → (∀ a, K (f a)) → K (x >>= f)

namespace Composable

variable {P : ε → Prop} {K : ∀ {α : Type}, EStateM ε σ α → Prop} (h : Composable P K)
  {f : α → EStateM ε σ β} {xs : List α}

include h

theorem map {x : EStateM ε σ α} {f : α → β} (hx : K x) : K (f <$> x) := by
  rw [map_eq_pure_bind]
  exact h.bind hx fun a => h.pure _

theorem lift {Q : δ → Prop} {cause : δ → ε} {y : Except δ α} (hy : Errors Q y)
    (hQ : ∀ e, Q e → P (cause e)) : K (Cylindrical.lift cause y : EStateM ε σ α) := by
  cases y with
  | error e => exact h.throw (hQ e (hy rfl))
  | ok a => exact h.pure a

theorem mapM (hf : ∀ a, K (f a)) : K (xs.mapM f) := by
  induction xs with
  | nil => exact h.pure []
  | cons a xs ih =>
    rw [List.mapM_cons]
    exact h.bind (hf a) fun b => h.bind ih fun bs => h.pure _

theorem filterMapM {f : α → EStateM ε σ (Option β)} (hf : ∀ a, K (f a)) : K (xs.filterMapM f) := by
  induction xs with
  | nil => exact h.pure []
  | cons a xs ih =>
    rw [List.filterMapM_cons]
    refine h.bind (hf a) fun b => ?_
    cases b with
    | none => exact ih
    | some b => exact h.bind ih fun bs => h.pure _

theorem foldlM {f : β → α → EStateM ε σ β} (hf : ∀ b a, K (f b a)) (b : β) :
    K (xs.foldlM f b) := by
  induction xs generalizing b with
  | nil => exact h.pure b
  | cons a xs ih =>
    rw [List.foldlM_cons]
    exact h.bind (hf b a) ih

theorem forM {f : α → EStateM ε σ PUnit} (hf : ∀ a, K (f a)) : K (xs.forM f) := by
  induction xs with
  | nil => exact h.pure _
  | cons a xs ih =>
    rw [List.forM_eq_forM, List.forM_cons]
    exact h.bind (hf a) fun _ => ih

end Composable

end Cylindrical
