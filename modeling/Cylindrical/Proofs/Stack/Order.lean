import Mathlib
import Cylindrical.Proofs.Interval.Simplest
import Cylindrical.Proofs.Stack.Signature
import Cylindrical.Proofs.Univariate.SignChange

/-!
# Order of the cells of a stack

The number chosen for a sector lies between the enclosures of the sections next to it.  Enclosures
only become narrower afterwards, so the cells are in increasing order, whichever of the numbers that
their enclosures leave possible the sections stand for.
-/

namespace Cylindrical

/-! ## Enclosures of coordinates -/

namespace Coordinate

/-- The numbers that a coordinate leaves possible: inside the interval if it is not known
exactly. -/
def Allows : Coordinate → ℝ → Prop
  | rational x, ξ => ξ = x
  | algebraic a, ξ => a.span.lo < ξ ∧ ξ < a.span.hi

/-- No more numbers are possible. -/
def Narrows (d c : Coordinate) : Prop := ∀ ξ, d.Allows ξ → c.Allows ξ

/-- All numbers possible for one coordinate are less than those possible for the other. -/
def Below (c d : Coordinate) : Prop := ∀ ξ η, c.Allows ξ → d.Allows η → ξ < η

variable {b c d : Coordinate} {ξ : ℝ}

theorem Denotes.allows {v : ℕ} {x : ℕ → ℝ} (h : c.Denotes v x) : c.Allows (x v) := by
  cases c with
  | rational r => exact h
  | algebraic a => exact ⟨h.1.lo_lt, h.1.lt_hi⟩

theorem Allows.le_upper (h : c.Allows ξ) : ξ ≤ c.upper := by
  cases c with
  | rational x => exact h.le
  | algebraic a => exact h.2.le

theorem Allows.lower_le (h : c.Allows ξ) : c.lower ≤ ξ := by
  cases c with
  | rational x => exact h.ge
  | algebraic a => exact h.1.le

theorem Allows.lt_upper (h : c.Allows ξ) (hc : c.isRational = false) : ξ < c.upper := by
  cases c with
  | rational x => cases hc
  | algebraic a => exact h.2

theorem Allows.lower_lt (h : c.Allows ξ) (hc : c.isRational = false) : c.lower < ξ := by
  cases c with
  | rational x => cases hc
  | algebraic a => exact h.1

theorem Narrows.refl (c : Coordinate) : c.Narrows c := fun _ h => h

theorem Narrows.trans (h₁ : d.Narrows c) (h₂ : c.Narrows b) : d.Narrows b :=
  fun ξ h => h₂ ξ (h₁ ξ h)

/-- An interval that a refinement leaves nonempty is part of the former one. -/
theorem refine_narrows (c : Coordinate) : c.refine.Narrows c := by
  cases c with
  | rational x => exact .refl _
  | algebraic a =>
    rintro ξ ⟨hlo, hhi⟩
    obtain ⟨t, ht, ht', hspan⟩ := a.span_refine
    have hpos : (0 : ℝ) < t := by exact_mod_cast (by linarith : 0 < t)
    have hlt : (0 : ℝ) < 1 - t := by exact_mod_cast (by linarith : 0 < 1 - t)
    rcases hspan with hspan | hspan <;> rw [hspan] at hlo hhi <;> push_cast at hlo hhi
    · -- the part from the split point to the upper end
      have hwidth : (0 : ℝ) < a.span.hi - a.span.lo :=
        (mul_pos_iff_of_pos_left hlt).1 (by linarith)
      have hpart := mul_pos hpos hwidth
      exact ⟨by linarith, hhi⟩
    · have hwidth : (0 : ℝ) < a.span.hi - a.span.lo :=
        (mul_pos_iff_of_pos_left hpos).1 (by linarith)
      have hrest := mul_pos hlt hwidth
      exact ⟨hlo, by linarith⟩

theorem Below.mono {b' c' : Coordinate} (h : b.Below c) (hb : b'.Narrows b) (hc : c'.Narrows c) :
    b'.Below c' := fun ξ η hξ hη => h ξ η (hb ξ hξ) (hc η hη)

theorem below_rational {x : ℚ} (h : ∀ ξ, c.Allows ξ → ξ < x) : c.Below (.rational x) :=
  fun ξ _ hξ hη => hη ▸ h ξ hξ

theorem rational_below {x : ℚ} (h : ∀ ξ, c.Allows ξ → x < ξ) : (rational x).Below c :=
  fun _ η hξ hη => hξ ▸ h η hη

/-- Numbers that the coordinates of increasing cells leave possible increase. -/
theorem isChain_of_allows {cs : List Coordinate} {ξs : List ℝ} (h : cs.IsChain Below)
    (hξs : List.Forall₂ Allows cs ξs) : ξs.IsChain (· < ·) := by
  induction hξs with
  | nil => exact .nil
  | cons hc hcs ih =>
    cases hcs with
    | nil => exact .singleton _
    | cons hd _ =>
      obtain ⟨hlt, h⟩ := List.isChain_cons_cons.1 h
      exact List.isChain_cons_cons.2 ⟨hlt _ _ hc hd, ih h⟩

end Coordinate

/-! ## Sectors -/

namespace Stack

open Coordinate

variable {cfg : Config} {zero : ZeroTest.Config} {σ τ : StackState}

/-- A number between two sections, with the sections narrowed. -/
theorem between_spec {n : ℕ} {c d : Coordinate} {r : ℚ × Coordinate × Coordinate}
    (h : between n c d σ = .ok r τ) :
    r.2.1.Narrows c ∧ r.2.2.Narrows d ∧ r.2.1.Below (.rational r.1) ∧
      (Coordinate.rational r.1).Below r.2.2 := by
  induction n generalizing c d σ with
  | zero => cases h
  | succ n ih =>
    rw [between] at h
    split_ifs at h with hgap htouch
    · obtain ⟨rfl, rfl⟩ := run_pure_eq_ok h
      obtain ⟨hlo, hhi⟩ := simplestBetween_spec hgap
      exact ⟨.refl c, .refl d, below_rational fun ξ hξ => hξ.le_upper.trans_lt (Rat.cast_lt.2 hlo),
        rational_below fun ξ hξ => (Rat.cast_lt.2 hhi).trans_le hξ.lower_le⟩
    · obtain ⟨rfl, rfl⟩ := run_pure_eq_ok h
      simp only [Bool.and_eq_true, Bool.not_eq_true', decide_eq_true_eq] at htouch
      obtain ⟨⟨hc, hd⟩, heq⟩ := htouch
      exact ⟨.refl c, .refl d, below_rational fun ξ hξ => hξ.lt_upper hc,
        rational_below fun ξ hξ => heq ▸ hξ.lower_lt hd⟩
    · obtain ⟨_, σ₁, -, h⟩ := run_bind_eq_ok h
      obtain ⟨hc, hd, hbelow⟩ := ih h
      exact ⟨hc.trans c.refine_narrows, hd.trans d.refine_narrows, hbelow⟩

/-- The sections with the sectors above them, from the lowest section on. -/
theorem sectorsAbove_spec {s : Section} {ss : List Section} {r : List (Section × ℚ)}
    (h : sectorsAbove cfg s ss σ = .ok r τ) :
    ∃ p ps, r = p :: ps ∧ p.1.coord.Narrows s.coord ∧ ps.length = ss.length ∧
      (r.flatMap fun p => [p.1.coord, .rational p.2]).IsChain Below := by
  induction ss generalizing s r σ with
  | nil =>
    obtain ⟨rfl, rfl⟩ := run_pure_eq_ok h
    refine ⟨_, [], rfl, .refl _, rfl, List.isChain_pair.2 (below_rational fun ξ hξ => ?_)⟩
    have hceil : (s.coord.upper : ℝ) ≤ s.coord.upper.ceil := by exact_mod_cast Rat.le_ceil
    have hupper := hξ.le_upper
    push_cast
    linarith
  | cons t ts ih =>
    rw [sectorsAbove] at h
    obtain ⟨⟨x, c, d⟩, σ₁, hbetween, h⟩ := run_bind_eq_ok h
    obtain ⟨later, σ₂, hlater, h⟩ := run_bind_eq_ok h
    obtain ⟨rfl, rfl⟩ := run_pure_eq_ok h
    obtain ⟨hc, hd, hcx, hxd⟩ := between_spec hbetween
    obtain ⟨p, ps, rfl, hp, hlen, hchain⟩ := ih hlater
    exact ⟨_, _, rfl, hc, congrArg (· + 1) hlen, List.isChain_cons_cons.2 ⟨hcx,
      List.isChain_cons_cons.2 ⟨hxd.mono (.refl _) hp, hchain⟩⟩⟩

/-- The coordinates of the cells: a sector, then sections with the sectors above them. -/
theorem cellCoords_spec {ss : List Section} {cells : List (Coordinate × Option Section)}
    (h : cellCoords cfg ss σ = .ok cells τ) : ∃ (x : ℚ) (ps : List (Coordinate × ℚ)),
      ps.length = ss.length ∧
      cells.map (·.1) = .rational x :: ps.flatMap (fun p => [p.1, .rational p.2]) ∧
      (cells.map (·.1)).IsChain Below := by
  cases ss with
  | nil =>
    obtain ⟨rfl, rfl⟩ := run_pure_eq_ok h
    exact ⟨0, [], rfl, rfl, List.isChain_singleton _⟩
  | cons s ss =>
    rw [cellCoords] at h
    obtain ⟨r, σ₁, hr, h⟩ := run_bind_eq_ok h
    obtain ⟨rfl, rfl⟩ := run_pure_eq_ok h
    obtain ⟨p, ps, rfl, hp, hlen, hchain⟩ := sectorsAbove_spec hr
    have hcoords : (((p :: ps).map fun p => [(p.1.coord, some p.1),
        (Coordinate.rational p.2, none)]).flatten.map (·.1)) =
        (p :: ps).flatMap fun p => [p.1.coord, .rational p.2] := by
      rw [List.map_flatten, List.map_map]
      rfl
    have hbelow : (Coordinate.rational (s.coord.lower.floor - 1)).Below p.1.coord := by
      refine Below.mono (rational_below fun ξ hξ => ?_) (.refl _) hp
      have hfloor : (s.coord.lower.floor : ℝ) ≤ s.coord.lower := by exact_mod_cast Rat.floor_le _
      have hlower := hξ.lower_le
      push_cast
      linarith
    refine ⟨(s.coord.lower.floor : ℚ) - 1, (p :: ps).map fun p => (p.1.coord, p.2), ?_, ?_, ?_⟩
    · rw [List.length_map, List.length_cons, hlen, List.length_cons]
    · rw [List.flatMap_map]
      exact congrArg (_ :: ·) hcoords
    · rw [List.map_cons]
      refine List.isChain_cons.2 ⟨fun c hc => ?_,
        (congrArg (List.IsChain Below) hcoords).mpr hchain⟩
      cases hc
      exact hbelow

/-! ## Stacks -/

theorem map_coord_assemble (cells : List (Coordinate × Option Section)) (shapes : List Shape) :
    (assemble cells shapes).map (·.coord) = cells.map (·.1) := by
  obtain ⟨hlen, -⟩ := assemble_spec cells shapes
  refine List.ext_getElem (by rw [List.length_map, List.length_map, hlen]) fun k hk hk' => ?_
  rw [List.getElem_map, List.getElem_map]
  simp only [assemble, List.getElem_zipWith]

end Stack

end Cylindrical
