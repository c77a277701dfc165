/-!
# Computations on a part of a state

A computation with its own state and its own errors runs inside a larger one; what it leaves behind
is kept also when it fails.
-/

namespace Cylindrical

/-- Runs a computation on the part of a state that `get` reads and `set` writes. -/
def focus {ε δ σ τ α : Type} (get : σ → τ) (set : τ → σ → σ) (cause : ε → δ)
    (x : EStateM ε τ α) : EStateM δ σ α := fun s =>
  match x (get s) with
  | .ok a t => .ok a (set t s)
  | .error e t => .error (cause e) (set t s)

/-- The value of a computation without state. -/
def lift {ε δ σ α : Type} (cause : ε → δ) : Except ε α → EStateM δ σ α
  | .ok a => pure a
  | .error e => throw (cause e)

/-- A composed computation that returns has parts that return. -/
theorem bind_eq_ok {ε α β : Type} {x : Except ε α} {f : α → Except ε β} {b : β}
    (h : (x >>= f) = .ok b) : ∃ a, x = .ok a ∧ f a = .ok b := by
  cases x with
  | error e => cases h
  | ok a => exact ⟨a, rfl, h⟩

end Cylindrical
