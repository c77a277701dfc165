import Mathlib
import Cylindrical.AlgebraSystem
import Cylindrical.Focus

/-!
# Runs of composed computations

What a successful run of a composed computation says about its parts, for results with errors, for
optional results along a list, and for computations with a state; and what holds of the state that
a run leaves behind, whether it succeeds or fails.
-/

namespace Cylindrical

theorem bind_eq_error {ε α β : Type} {x : Except ε α} {f : α → Except ε β} {e : ε}
    (h : (x >>= f) = .error e) : x = .error e ∨ ∃ a, x = .ok a ∧ f a = .error e := by
  cases x with
  | error d => exact .inl (congrArg Except.error (Except.error.inj h))
  | ok a => exact .inr ⟨a, rfl, h⟩

theorem ok_of_toOption {ε α : Type} {x : Except ε α} {a : α} (h : x.toOption = some a) :
    x = .ok a := by
  cases x with
  | error e => cases h
  | ok b => rw [Option.some.inj h]

/-! ## Computations that return -/

/-- The computation succeeds, with a result in `Q`. -/
def Returns {ε α : Type} (x : Except ε α) (Q : α → Prop) : Prop := ∃ a, x = .ok a ∧ Q a

namespace Returns

variable {ε α β : Type} {x : Except ε α} {Q R : α → Prop}

theorem mono (h : Returns x Q) (hQ : ∀ a, Q a → R a) : Returns x R := by
  obtain ⟨a, ha, h⟩ := h
  exact ⟨a, ha, hQ a h⟩

theorem ok {a : α} (h : Q a) : Returns (.ok a : Except ε α) Q := ⟨a, rfl, h⟩

/-- What holds of every result holds of the one that is returned. -/
theorem and (h : Returns x Q) (hR : ∀ a, x = .ok a → R a) : Returns x fun a => Q a ∧ R a := by
  obtain ⟨a, ha, h⟩ := h
  exact ⟨a, ha, h, hR a ha⟩

theorem bind {f : α → Except ε β} {P : β → Prop} (h : Returns x Q)
    (hf : ∀ a, Q a → Returns (f a) P) : Returns (x >>= f) P := by
  obtain ⟨a, rfl, h⟩ := h
  exact hf a h

theorem of_ok {a : α} (h : Returns x Q) (ha : x = .ok a) : Q a := by
  obtain ⟨b, hb, h⟩ := h
  rw [ha] at hb
  rwa [Except.ok.inj hb]

end Returns

/-! ## Lists -/

theorem forall₂_of_mapM_eq_some {α β : Type} {f : α → Option β} {xs : List α} {ys : List β}
    (h : xs.mapM f = some ys) : List.Forall₂ (fun x y => f x = some y) xs ys := by
  induction xs generalizing ys with
  | nil =>
    obtain rfl := Option.some.inj h
    exact .nil
  | cons x xs ih =>
    rw [List.mapM_cons, Option.bind_eq_bind, Option.bind_eq_some_iff] at h
    obtain ⟨y, hy, h⟩ := h
    rw [Option.bind_eq_bind, Option.bind_eq_some_iff] at h
    obtain ⟨ys, hys, h⟩ := h
    obtain rfl := Option.some.inj h
    exact .cons hy (ih hys)

theorem forall₂_of_mapM_eq_ok {ε α β : Type} {f : α → Except ε β} {xs : List α} {ys : List β}
    (h : xs.mapM f = .ok ys) : List.Forall₂ (fun x y => f x = .ok y) xs ys := by
  induction xs generalizing ys with
  | nil =>
    obtain rfl := Except.ok.inj h
    exact .nil
  | cons x xs ih =>
    rw [List.mapM_cons] at h
    obtain ⟨y, hy, h⟩ := bind_eq_ok h
    obtain ⟨ys, hys, h⟩ := bind_eq_ok h
    obtain rfl := Except.ok.inj h
    exact .cons hy (ih hys)

theorem exists_mem_of_forall₂ {α β : Type} {r : α → β → Prop} {xs : List α} {ys : List β}
    (h : List.Forall₂ r xs ys) {y : β} (hy : y ∈ ys) : ∃ x ∈ xs, r x y := by
  induction h with
  | nil => cases hy
  | cons hr _ ih =>
    rcases List.mem_cons.1 hy with rfl | hy
    · exact ⟨_, .head _, hr⟩
    · obtain ⟨x, hx, hr⟩ := ih hy
      exact ⟨x, .tail _ hx, hr⟩

theorem exists_mem_of_forall₂' {α β : Type} {r : α → β → Prop} {xs : List α} {ys : List β}
    (h : List.Forall₂ r xs ys) {x : α} (hx : x ∈ xs) : ∃ y ∈ ys, r x y :=
  exists_mem_of_forall₂ h.flip hx

/-! ## Runs with a state -/

variable {ε δ σ τ α β : Type}

theorem run_bind_eq_ok {x : EStateM ε σ α} {f : α → EStateM ε σ β} {s u : σ} {b : β}
    (h : (x >>= f) s = .ok b u) : ∃ a t, x s = .ok a t ∧ f a t = .ok b u := by
  rw [bind, Monad.toBind, EStateM.instMonad] at h
  simp only [EStateM.bind] at h
  split at h
  · rename_i a t hx
    exact ⟨a, t, hx, h⟩
  · cases h

theorem run_bind_congr {x y : EStateM ε σ α} {f : α → EStateM ε σ β} {s t : σ} (h : x s = y t) :
    (x >>= f) s = (y >>= f) t := by
  rw [bind, Monad.toBind, EStateM.instMonad]
  simp only [EStateM.bind]
  rw [h]

theorem run_bind_of_ok {x : EStateM ε σ α} {f : α → EStateM ε σ β} {s t : σ} {a : α}
    (h : x s = .ok a t) : (x >>= f) s = f a t := by
  rw [bind, Monad.toBind, EStateM.instMonad]
  simp only [EStateM.bind]
  rw [h]

theorem run_bind_of_error {x : EStateM ε σ α} {f : α → EStateM ε σ β} {s t : σ} {e : ε}
    (h : x s = .error e t) : (x >>= f) s = .error e t := by
  rw [bind, Monad.toBind, EStateM.instMonad]
  simp only [EStateM.bind]
  rw [h]

@[simp] theorem run_get_bind (f : σ → EStateM ε σ β) (s : σ) :
    ((get : EStateM ε σ σ) >>= f) s = f s s := rfl

@[simp] theorem run_modify_bind (g : σ → σ) (f : PUnit → EStateM ε σ β) (s : σ) :
    ((modify g : EStateM ε σ PUnit) >>= f) s = f ⟨⟩ (g s) := rfl

theorem run_pure_eq_ok {a b : α} {s t : σ} (h : (pure a : EStateM ε σ α) s = .ok b t) :
    b = a ∧ t = s := by
  cases h
  exact ⟨rfl, rfl⟩

theorem run_lift_eq_ok {cause : ε → δ} {x : Except ε α} {s t : σ} {a : α}
    (h : lift cause x s = .ok a t) : x = .ok a ∧ t = s := by
  cases x with
  | error e => cases h
  | ok b =>
    cases h
    exact ⟨rfl, rfl⟩

theorem run_focus_eq_ok {get : σ → τ} {set : τ → σ → σ} {cause : ε → δ} {x : EStateM ε τ α}
    {s u : σ} {a : α} (h : focus get set cause x s = .ok a u) :
    ∃ t, x (get s) = .ok a t ∧ u = set t s := by
  rw [focus] at h
  split at h
  · rename_i b t hx
    cases h
    exact ⟨t, hx, rfl⟩
  · cases h

/-- A call of the algebra that returns has computed what it returns. -/
theorem AlgebraSystem.call_eq_ok {f : CallCounts → CallCounts} {y : Algebra α} {a : α}
    {s t : AlgebraSystem} (h : AlgebraSystem.call f y s = .ok a t) : y = .ok a := by
  cases y with
  | error e => cases h
  | ok b =>
    cases h
    rfl

/-! ## Runs that may fail -/

/-- The state that a run leaves behind. -/
def stateAfter : EStateM.Result ε σ α → σ
  | .ok _ t => t
  | .error _ t => t

/-- A run from `s` ends with a result and a state in `Q`, or fails and leaves a state in `E`. -/
def Ends (x : EStateM ε σ α) (s : σ) (Q : α → σ → Prop) (E : σ → Prop) : Prop :=
  match x s with
  | .ok a t => Q a t
  | .error _ t => E t

section Ends

variable {x : EStateM ε σ α} {f : α → EStateM ε σ β} {s : σ} {Q R : α → σ → Prop}
  {E F : σ → Prop}

theorem Ends.mono (h : Ends x s Q E) (hQ : ∀ a t, Q a t → R a t) (hE : ∀ t, E t → F t) :
    Ends x s R F := by
  rw [Ends] at h ⊢
  cases hx : x s <;> rw [hx] at h
  · exact hQ _ _ h
  · exact hE _ h

theorem Ends.and (h : Ends x s Q E) (h' : Ends x s R F) :
    Ends x s (fun a t => Q a t ∧ R a t) fun t => E t ∧ F t := by
  rw [Ends] at h h' ⊢
  cases hx : x s <;> rw [hx] at h h' <;> exact ⟨h, h'⟩

theorem Ends.bind {Q : β → σ → Prop} (h : Ends x s (fun a t => Ends (f a) t Q E) E) :
    Ends (x >>= f) s Q E := by
  rw [Ends] at h ⊢
  rw [Bind.bind, Monad.toBind, EStateM.instMonad]
  simp only [EStateM.bind]
  cases hx : x s <;> rw [hx] at h <;> exact h

theorem Ends.of_ok {a : α} {t : σ} (h : Ends x s Q E) (hx : x s = .ok a t) : Q a t := by
  rw [Ends, hx] at h
  exact h

theorem Ends.of_error {e : ε} {t : σ} (h : Ends x s Q E) (hx : x s = .error e t) : E t := by
  rw [Ends, hx] at h
  exact h

theorem Ends.stateAfter {P : σ → Prop} (h : Ends x s (fun _ => P) P) : P (stateAfter (x s)) := by
  rw [Ends] at h
  cases hx : x s <;> rw [hx] at h <;> exact h

theorem ends_pure {a : α} (h : Q a s) : Ends (pure a : EStateM ε σ α) s Q E := h

theorem ends_throw {e : ε} (h : E s) : Ends (throw e : EStateM ε σ α) s Q E := h

theorem ends_get {Q : σ → σ → Prop} (h : Q s s) : Ends (get : EStateM ε σ σ) s Q E := h

theorem ends_modify {g : σ → σ} {Q : PUnit → σ → Prop} (h : Q ⟨⟩ (g s)) :
    Ends (modify g : EStateM ε σ PUnit) s Q E := h

theorem ends_discard {Q : Unit → σ → Prop} (h : Ends x s (fun _ => Q ()) E) :
    Ends (discard x) s Q E := by
  have hrun : (discard x : EStateM ε σ Unit) s =
      match x s with
      | .ok _ t => .ok () t
      | .error e t => .error e t := rfl
  rw [Ends] at h ⊢
  rw [hrun]
  cases hx : x s <;> rw [hx] at h <;> exact h

theorem ends_lift {cause : ε → δ} {y : Except ε α} (hok : ∀ a, y = .ok a → Q a s)
    (herr : ∀ e, y = .error e → E s) : Ends (lift cause y) s Q E := by
  cases y with
  | error e => exact herr e rfl
  | ok a => exact hok a rfl

theorem ends_focus {get : σ → τ} {set : τ → σ → σ} {cause : ε → δ} {y : EStateM ε τ α}
    (hok : ∀ a t, y (get s) = .ok a t → Q a (set t s))
    (herr : ∀ e t, y (get s) = .error e t → E (set t s)) : Ends (focus get set cause y) s Q E := by
  rw [Ends, focus]
  cases hy : y (get s) with
  | ok a t => exact hok a t hy
  | error e t => exact herr e t hy

end Ends

/-- What a run returns, if it succeeds. -/
def returned? : EStateM.Result ε σ α → Option α
  | .ok a _ => some a
  | .error _ _ => none

/-- What a run returns, or the error with which it ends. -/
def outcome : EStateM.Result ε σ α → Except ε α
  | .ok a _ => .ok a
  | .error e _ => .error e

theorem exists_eq_ok {r : EStateM.Result ε σ α} {a : α} (h : returned? r = some a) :
    ∃ t, r = .ok a t := by
  cases r with
  | ok b t => exact ⟨t, by rw [Option.some.inj h]⟩
  | error e t => cases h

theorem exists_eq_error {r : EStateM.Result ε σ α} (h : (returned? r).isNone = true) :
    ∃ e, r = .error e (stateAfter r) := by
  cases r with
  | ok b t => cases h
  | error e t => exact ⟨e, rfl⟩

end Cylindrical
