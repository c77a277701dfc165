import Mathlib
import Cylindrical.Proofs.Sample.WorkingCopy
import Cylindrical.Proofs.Stack.Composition
import Cylindrical.Proofs.Stack.Order

/-!
# Enclosures shrink

Whatever is computed at a sample point, its rational coordinates stay, and the intervals of the
others become parts of the former ones that are not empty.  No assumption on the roots in these
intervals is needed.
-/

namespace Cylindrical

/-! ## Coordinates -/

namespace Coordinate

/-- The enclosure is not empty. -/
def Proper : Coordinate → Prop
  | rational _ => True
  | algebraic a => a.span.lo < a.span.hi

/-- A rational number stays, and an enclosure becomes a part of the former one that is not
empty. -/
structure Shrinks (d c : Coordinate) : Prop where
  rational : ∀ x, c = .rational x → d = .rational x
  proper : c.Proper → d.Proper
  narrows : d.Narrows c

variable {b c d : Coordinate}

theorem Shrinks.refl (c : Coordinate) : c.Shrinks c := ⟨fun _ => id, id, .refl c⟩

theorem Shrinks.trans (h₁ : d.Shrinks c) (h₂ : c.Shrinks b) : d.Shrinks b :=
  ⟨fun x hx => h₁.rational x (h₂.rational x hx), fun h => h₁.proper (h₂.proper h),
    h₁.narrows.trans h₂.narrows⟩

/-- Above each rational number below the upper end lies a number that is possible. -/
theorem Proper.exists_allows_gt (h : c.Proper) {r : ℚ} (hr : r < c.upper) :
    ∃ ξ, c.Allows ξ ∧ r < ξ := by
  cases c with
  | rational x => exact ⟨x, rfl, Rat.cast_lt.2 hr⟩
  | algebraic a =>
    obtain ⟨ξ, hlo, hhi⟩ := exists_between (max_lt h hr)
    rw [max_lt_iff] at hlo
    exact ⟨ξ, ⟨Rat.cast_lt.2 hlo.1, Rat.cast_lt.2 hhi⟩, Rat.cast_lt.2 hlo.2⟩

theorem Proper.exists_allows_lt (h : c.Proper) {r : ℚ} (hr : c.lower < r) :
    ∃ ξ, c.Allows ξ ∧ ξ < r := by
  cases c with
  | rational x => exact ⟨x, rfl, Rat.cast_lt.2 hr⟩
  | algebraic a =>
    obtain ⟨ξ, hlo, hhi⟩ := exists_between (lt_min h hr)
    rw [lt_min_iff] at hhi
    exact ⟨ξ, ⟨Rat.cast_lt.2 hlo, Rat.cast_lt.2 hhi.1⟩, Rat.cast_lt.2 hhi.2⟩

theorem Proper.exists_allows (h : c.Proper) : ∃ ξ, c.Allows ξ := by
  obtain ⟨ξ, hξ, -⟩ := h.exists_allows_gt (sub_one_lt c.upper)
  exact ⟨ξ, hξ⟩

/-- Enclosures that are not empty and hold increasing numbers meet in an end at most. -/
theorem Below.upper_le_lower (h : c.Below d) (hc : c.Proper) (hd : d.Proper) :
    c.upper ≤ d.lower := by
  by_contra hlt
  obtain ⟨m, hlo, hhi⟩ := exists_between (not_le.1 hlt)
  obtain ⟨ξ, hξ, hmξ⟩ := hc.exists_allows_gt hhi
  obtain ⟨η, hη, hηm⟩ := hd.exists_allows_lt hlo
  exact absurd (h ξ η hξ hη) (hηm.trans hmξ).not_gt

theorem refine_shrinks (c : Coordinate) : c.refine.Shrinks c := by
  refine ⟨?_, ?_, c.refine_narrows⟩
  · rintro x rfl
    rfl
  · cases c with
    | rational x => exact id
    | algebraic a =>
      intro h
      change a.refine.span.lo < a.refine.span.hi
      have hwidth : 0 < a.span.hi - a.span.lo := sub_pos.2 h
      obtain ⟨t, ht, ht', hspan | hspan⟩ := a.span_refine <;> rw [hspan] <;> dsimp only <;>
        nlinarith

theorem shrinks_refineWhileWider (width : ℚ) (steps : ℕ) (a : AlgebraicNumber) :
    (algebraic (a.refineWhileWider width steps)).Shrinks (algebraic a) := by
  induction steps generalizing a with
  | zero => exact .refl _
  | succ steps ih =>
    rw [AlgebraicNumber.refineWhileWider]
    split_ifs
    · exact (ih a.refine).trans (refine_shrinks (algebraic a))
    · exact .refl _

/-- Nothing but the interval matters. -/
theorem shrinks_of_span_eq {a b : AlgebraicNumber} (h : b.span = a.span) :
    (algebraic b).Shrinks (algebraic a) where
  rational := nofun
  proper hp := by
    rw [Proper, h]
    exact hp
  narrows ξ hξ := by
    rwa [Allows, h] at hξ

end Coordinate

/-! ## Points -/

namespace SamplePoint

variable {s t u : SamplePoint} {v : ℕ} {c d : Coordinate}

/-- No enclosure of the point is empty. -/
def Proper (s : SamplePoint) : Prop := ∀ v c, s.get? v = some c → c.Proper

/-- All coordinates shrink. -/
structure Shrinks (t s : SamplePoint) : Prop where
  size : t.size = s.size
  coord : ∀ v c, s.get? v = some c → ∃ d, t.get? v = some d ∧ d.Shrinks c

theorem Shrinks.refl (s : SamplePoint) : s.Shrinks s := ⟨rfl, fun _ c hc => ⟨c, hc, .refl c⟩⟩

theorem Shrinks.trans (h₁ : u.Shrinks t) (h₂ : t.Shrinks s) : u.Shrinks s where
  size := h₁.size.trans h₂.size
  coord v c hc := by
    obtain ⟨d, hd, hdc⟩ := h₂.coord v c hc
    obtain ⟨e, he, hed⟩ := h₁.coord v d hd
    exact ⟨e, he, hed.trans hdc⟩

theorem Shrinks.proper (h : t.Shrinks s) (hs : s.Proper) : t.Proper := fun v d hd => by
  obtain ⟨c, hc⟩ := exists_get? (h.size ▸ lt_size_of_get? hd)
  obtain ⟨d', hd', hdc⟩ := h.coord v c hc
  obtain rfl := Option.some.inj (hd.symm.trans hd')
  exact hdc.proper (hs v c hc)

theorem shrinks_set (hc : s.get? v = some c) (hd : d.Shrinks c) : (s.set v d).Shrinks s where
  size := size_set ..
  coord w b hb := by
    rw [get?_set]
    split_ifs with hw
    · obtain ⟨rfl, -⟩ := hw
      obtain rfl := Option.some.inj (hc.symm.trans hb)
      exact ⟨d, rfl, hd⟩
    · exact ⟨b, hb, .refl b⟩

theorem size_push (s : SamplePoint) (c : Coordinate) : (s.push c).size = s.size + 1 :=
  List.length_append

theorem size_pop (s : SamplePoint) : s.pop.size = s.size - 1 := List.length_dropLast

theorem get?_push (s : SamplePoint) (c : Coordinate) (w : ℕ) :
    (s.push c).get? w = if w = s.size then some c else s.get? w := by
  rw [get?, push, List.getElem?_append, get?, size]
  rcases lt_trichotomy w s.coords.length with h | rfl | h
  · rw [if_pos h, if_neg h.ne]
  · simp
  · rw [if_neg h.not_gt, if_neg h.ne', List.getElem?_eq_none h.le,
      List.getElem?_eq_none (by rw [List.length_singleton]; omega)]

theorem get?_pop {w : ℕ} (hw : w < s.pop.size) : s.pop.get? w = s.get? w := by
  rw [size_pop, size] at hw
  rw [get?, pop, List.getElem?_dropLast, if_pos hw, get?]

theorem Proper.push (hs : s.Proper) (hc : c.Proper) : (s.push c).Proper := fun w d hd => by
  rw [get?_push] at hd
  split_ifs at hd
  · obtain rfl := Option.some.inj hd
    exact hc
  · exact hs w d hd

/-- What is done to a point with one more coordinate is done to the point. -/
theorem Shrinks.pop (h : t.Shrinks (s.push c)) : t.pop.Shrinks s := by
  have hsize : t.pop.size = s.size := by
    rw [size_pop, h.size, size_push, Nat.add_sub_cancel]
  refine ⟨hsize, fun w b hb => ?_⟩
  have hw := lt_size_of_get? hb
  rw [get?_pop (hsize ▸ hw)]
  exact h.coord w b (by rw [get?_push, if_neg hw.ne, hb])

theorem shrinks_refineTo (s : SamplePoint) (v bits : ℕ) : (s.refineTo v bits).Shrinks s := by
  rw [refineTo]
  split
  · rename_i a ha
    obtain ⟨hsize, hcoord⟩ := shrinks_set ha (Coordinate.shrinks_refineWhileWider _ _ a)
    exact ⟨hsize, hcoord⟩
  · exact .refl s

theorem shrinks_foldl_refineTo (bits : ℕ) (vars : List ℕ) (s : SamplePoint) :
    (vars.foldl (fun x v => x.refineTo v bits) s).Shrinks s :=
  List.foldlRecOn (motive := fun t : SamplePoint => t.Shrinks s) vars _ (.refl s)
    fun t ht v _ => (t.shrinks_refineTo v bits).trans ht

end SamplePoint

/-! ## Computations at a point -/

section

variable {ε σ α β : Type} {point : σ → SamplePoint}

/-- From a point without empty enclosures, a successful run leads to one that has shrunk, and its
result is in `Q`. -/
def Shrinking (point : σ → SamplePoint) (x : EStateM ε σ α) (Q : α → Prop) : Prop :=
  ∀ s a t, (point s).Proper → x s = .ok a t → (point t).Shrinks (point s) ∧ Q a

namespace Shrinking

variable {x : EStateM ε σ α} {f : α → EStateM ε σ β} {Q Q' : α → Prop} {R : β → Prop}

theorem mono (h : Shrinking point x Q) (hQ : ∀ a, Q a → Q' a) : Shrinking point x Q' :=
  fun s a t hs hx => (h s a t hs hx).imp_right (hQ a)

theorem pure {a : α} (h : Q a) : Shrinking point (Pure.pure a : EStateM ε σ α) Q :=
  fun s b t _ hx => by
    obtain ⟨rfl, rfl⟩ := run_pure_eq_ok hx
    exact ⟨.refl _, h⟩

theorem throw {e : ε} : Shrinking point (MonadExcept.throw e : EStateM ε σ α) Q :=
  fun _ _ _ _ => nofun

theorem bind (hx : Shrinking point x Q) (hf : ∀ a, Q a → Shrinking point (f a) R) :
    Shrinking point (x >>= f) R := fun s b u hs hb => by
  obtain ⟨a, t, ha, hb⟩ := run_bind_eq_ok hb
  obtain ⟨hst, hqa⟩ := hx s a t hs ha
  obtain ⟨htu, hr⟩ := hf a hqa t b u (hst.proper hs) hb
  exact ⟨htu.trans hst, hr⟩

/-- What holds of every result holds of those in `Q`. -/
theorem and (h : Shrinking point x Q) (hQ : ∀ s a t, x s = .ok a t → Q' a) :
    Shrinking point x fun a => Q a ∧ Q' a := fun s a t hs hx =>
  (h s a t hs hx).imp_right fun ha => ⟨ha, hQ s a t hx⟩

/-- A step whose result does not matter. -/
theorem bind_any (hx : Shrinking point x fun _ => True) (hf : ∀ a, Shrinking point (f a) R) :
    Shrinking point (x >>= f) R := hx.bind fun a _ => hf a

theorem get : Shrinking point (MonadState.get : EStateM ε σ σ) fun s => (point s).Proper :=
  fun s a t hs hx => by
    cases hx
    exact ⟨.refl _, hs⟩

theorem update {g : σ → σ} (h : ∀ s, (point (g s)).Shrinks (point s)) :
    Shrinking point (modify g : EStateM ε σ PUnit) fun _ => True := fun s a t _ hx => by
  cases hx
  exact ⟨h s, trivial⟩

theorem lift {δ : Type} {cause : δ → ε} {y : Except δ α} :
    Shrinking point (Cylindrical.lift cause y : EStateM ε σ α) fun a => y = .ok a :=
  fun s a t _ hx => by
    obtain ⟨hy, rfl⟩ := run_lift_eq_ok hx
    exact ⟨.refl _, hy⟩

/-- A computation on a part of the state that has the point. -/
theorem focus {δ τ : Type} {get : σ → τ} {set : τ → σ → σ} {cause : δ → ε} {y : EStateM δ τ α}
    {inner : τ → SamplePoint} (hget : ∀ s, inner (get s) = point s)
    (hset : ∀ t s, point (set t s) = inner t) (h : Shrinking inner y Q) :
    Shrinking point (Cylindrical.focus get set cause y) Q := fun s a u hs hx => by
  obtain ⟨t, ht, rfl⟩ := run_focus_eq_ok hx
  rw [← hget s] at hs ⊢
  rw [hset]
  exact h _ a t hs ht

variable {xs : List α} {C : α → Prop}

theorem forall_mapM (hf : ∀ a ∈ xs, Shrinking point (f a) R) :
    Shrinking point (xs.mapM f) fun bs => ∀ b ∈ bs, R b := by
  induction xs with
  | nil => exact .pure nofun
  | cons a xs ih =>
    obtain ⟨ha, hxs⟩ := List.forall_mem_cons.1 hf
    rw [List.mapM_cons]
    exact ha.bind fun b hb => (ih hxs).bind fun bs hbs => .pure (List.forall_mem_cons.2 ⟨hb, hbs⟩)

theorem forall_filterMapM {f : α → EStateM ε σ (Option β)}
    (hf : ∀ a ∈ xs, Shrinking point (f a) fun b? => ∀ b ∈ b?, R b) :
    Shrinking point (xs.filterMapM f) fun bs => ∀ b ∈ bs, R b := by
  induction xs with
  | nil => exact .pure nofun
  | cons a xs ih =>
    obtain ⟨ha, hxs⟩ := List.forall_mem_cons.1 hf
    rw [List.filterMapM_cons]
    refine ha.bind fun b? hb => ?_
    cases b? with
    | none => exact ih hxs
    | some b => exact (ih hxs).bind fun bs hbs => .pure (List.forall_mem_cons.2 ⟨hb b rfl, hbs⟩)

theorem foldlM {f : β → α → EStateM ε σ β} {b : β} (hb : R b)
    (hf : ∀ b, R b → ∀ a ∈ xs, Shrinking point (f b a) R) : Shrinking point (xs.foldlM f b) R := by
  induction xs generalizing b with
  | nil => exact .pure hb
  | cons a xs ih =>
    rw [List.foldlM_cons]
    exact (hf b hb a (.head _)).bind fun b' hb' => ih hb' fun c hc a ha => hf c hc a (.tail _ ha)

end Shrinking

theorem composable_shrinking (point : σ → SamplePoint) (P : ε → Prop) :
    Composable P fun {_} (x : EStateM ε σ _) => Shrinking point x fun _ => True where
  pure _ := .pure trivial
  throw _ := .throw
  bind hx hf := hx.bind_any hf

end

namespace ZeroTest

theorem replace_shrinking (v : ℕ) (d : Poly) :
    Shrinking PointState.point (replace v d) fun _ => True := fun s a t _ h => by
  refine ⟨?_, trivial⟩
  rw [replace, run_get_bind] at h
  rcases hget : s.point.get? v with _ | r | b <;> rw [hget] at h
  · cases h
    exact .refl _
  · cases h
    exact .refl _
  · cases h
    exact SamplePoint.shrinks_set hget (Coordinate.shrinks_of_span_eq rfl)

theorem rule_shrinking : Rule fun x => Shrinking PointState.point x fun _ => True where
  toComposable := composable_shrinking _ _
  point h _ := Shrinking.get.bind fun s _ => h s
  call _ _ := fun _ _ _ _ h => by
    obtain ⟨t, -, rfl⟩ := run_focus_eq_ok h
    exact ⟨.refl _, trivial⟩
  count _ := .update fun s => .refl s.point
  refineTo vars bits := .update fun s => SamplePoint.shrinks_foldl_refineTo bits vars s.point
  replace := replace_shrinking

end ZeroTest

/-! ## Construction of a stack -/

namespace Stack

/-- From a point without empty enclosures, a successful run leads to one that has shrunk, and its
result is in `Q`. -/
abbrev Yields {α : Type} (x : StackM α) (Q : α → Prop) : Prop :=
  Shrinking (fun s : StackState => s.point) x Q

theorem rule_yields : Rule (fun _ => True) fun x => Yields x fun _ => True where
  toComposable := composable_shrinking _ _
  ofTest _ := trivial
  point h _ := Shrinking.get.bind fun s _ => h s
  count _ := .update fun s => .refl s.point
  test h := .focus (fun _ => rfl) (fun _ _ => rfl) (h _ ZeroTest.rule_shrinking)
  replaced hx hy hz := Shrinking.get.bind fun _ _ => hx.bind_any fun _ =>
    Shrinking.get.bind fun _ _ => by
      split_ifs
      · exact hy
      · exact hz

end Stack

end Cylindrical
