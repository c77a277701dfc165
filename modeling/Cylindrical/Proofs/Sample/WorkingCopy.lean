import Mathlib
import Cylindrical.Proofs.Sample.Denotation

/-!
# Working copies of points

A working copy starts with the coordinates of a point.  These are replaced and refined, and the copy
is lengthened by coordinates that are dropped again.  Whatever is done to it, its flags cover all
coordinates that are not those of the point any more, so that the point gets the coordinates of the
copy by adopting its changes (`SamplePoint.coords_apply_changes`).
-/

namespace Cylindrical

/-! ## Refinements that leave the width -/

namespace AlgebraicNumber

variable {a : AlgebraicNumber}

theorem width_refine_lt (h : 0 < a.span.width) : a.refine.span.width < a.span.width := by
  obtain ⟨t, ht₁, ht₂, hspan⟩ := a.span_refine
  rw [Interval.width] at h
  have hleft : 0 < t * (a.span.hi - a.span.lo) := mul_pos (by linarith) h
  have hright : 0 < (1 - t) * (a.span.hi - a.span.lo) := mul_pos (by linarith) h
  rcases hspan with hspan | hspan <;> rw [hspan, Interval.width, Interval.width] <;> linarith

/-- Either the interval becomes narrower, or the number stays as it is. -/
theorem refineWhileWider_eq_or_lt {width : ℚ} (hwidth : 0 ≤ width) (steps : ℕ)
    (a : AlgebraicNumber) : refineWhileWider width steps a = a ∨
      (refineWhileWider width steps a).span.width < a.span.width := by
  induction steps generalizing a with
  | zero => exact .inl rfl
  | succ steps ih =>
    rw [refineWhileWider]
    split_ifs with h
    · have hlt := width_refine_lt (hwidth.trans_lt h)
      refine .inr ?_
      rcases ih a.refine with heq | hlt'
      · rwa [heq]
      · exact hlt'.trans hlt
    · exact .inl rfl

theorem refineTo_eq_self {bits : ℕ} (h : (a.refineTo bits).span.width = a.span.width) :
    a.refineTo bits = a := by
  have hwidth : (0 : ℚ) ≤ 1 / twoPow bits := one_div_nonneg.2 (twoPow_pos bits).le
  exact (refineWhileWider_eq_or_lt hwidth _ a).resolve_right h.not_lt

end AlgebraicNumber

/-! ## Steps -/

/-- A step of the work on a copy. -/
inductive PointEdit where
  | set (v : ℕ) (c : Coordinate)
  | refine (v : ℕ)
  | refineTo (v bits : ℕ)
  | refineAllTo (bits : ℕ)
  | push (c : Coordinate)
  | pop
deriving DecidableEq

namespace PointEdit

/-- The point after a step. -/
def run (y : SamplePoint) : PointEdit → SamplePoint
  | set v c => y.set v c
  | refine v => y.refine v
  | refineTo v bits => y.refineTo v bits
  | refineAllTo bits => y.refineAllTo bits
  | push c => y.push c
  | pop => y.pop

/-- What a step does to the coordinates. -/
def onCoords (cs : List Coordinate) : PointEdit → List Coordinate
  | set v c => cs.set v c
  | refine v => cs.modify v Coordinate.refine
  | refineTo v bits => cs.modify v (Coordinate.refineTo bits)
  | refineAllTo bits => cs.map (Coordinate.refineTo bits)
  | push c => cs ++ [c]
  | pop => cs.dropLast

/-- How many coordinates have been added and not dropped, unless there is none to drop. -/
def added? : ℕ → PointEdit → Option ℕ
  | n, push _ => some (n + 1)
  | 0, pop => none
  | n + 1, pop => some n
  | n, _ => some n

/-- Every coordinate that is added is dropped again, and no other one. -/
def Matched (es : List PointEdit) : Prop := es.foldlM added? 0 = some 0

instance (es : List PointEdit) : Decidable (Matched es) :=
  inferInstanceAs (Decidable (es.foldlM added? 0 = some 0))

end PointEdit

namespace SamplePoint

variable {x y z : SamplePoint} {v bits : ℕ} {c : Coordinate} {cs : List Coordinate} {n m : ℕ}

/-! ## Coordinates after a step -/

theorem set_eq_modify {f : Coordinate → Coordinate} (h : cs[v]? = some c) :
    cs.set v (f c) = cs.modify v f :=
  List.ext_getElem? fun w => by
    obtain ⟨hv, -⟩ := List.getElem?_eq_some_iff.1 h
    rw [List.getElem?_set]
    split_ifs with hw
    · rw [← hw, List.getElem?_modify_eq, h]
      rfl
    · rw [List.getElem?_modify_ne f cs hw]

/-- A function that leaves rational coordinates alone. -/
theorem modify_of_rational {f : Coordinate → Coordinate} {r : ℚ} (h : cs[v]? = some (.rational r))
    (hf : f (.rational r) = .rational r) : cs.modify v f = cs := by
  obtain ⟨hlt, hget⟩ := List.getElem?_eq_some_iff.1 h
  rw [← set_eq_modify h, hf, ← hget, List.set_getElem_self]

theorem coords_refine (y : SamplePoint) (v : ℕ) :
    (y.refine v).coords = y.coords.modify v Coordinate.refine := by
  rw [refine]
  cases hv : y.get? v with
  | none => exact (List.modify_eq_self (List.getElem?_eq_none_iff.1 hv)).symm
  | some c =>
    cases c with
    | rational r => exact (modify_of_rational hv rfl).symm
    | algebraic a => exact set_eq_modify (f := Coordinate.refine) hv

theorem coords_refineTo (y : SamplePoint) (v bits : ℕ) :
    (y.refineTo v bits).coords = y.coords.modify v (Coordinate.refineTo bits) := by
  rw [refineTo]
  cases hv : y.get? v with
  | none => exact (List.modify_eq_self (List.getElem?_eq_none_iff.1 hv)).symm
  | some c =>
    cases c with
    | rational r => exact (modify_of_rational hv rfl).symm
    | algebraic a => exact set_eq_modify (f := Coordinate.refineTo bits) hv

/-- The coordinates of the first `n` variables are refined, the other ones left alone. -/
theorem getElem?_foldl_refineTo (y : SamplePoint) (bits n v : ℕ) :
    ((List.range n).foldl (fun y v => y.refineTo v bits) y).coords[v]? =
      if v < n then (y.coords[v]?).map (Coordinate.refineTo bits) else y.coords[v]? := by
  induction n with
  | zero => rfl
  | succ n ih =>
    rw [List.range_succ, List.foldl_append, List.foldl_cons, List.foldl_nil, coords_refineTo]
    rcases lt_trichotomy v n with h | rfl | h
    · rw [List.getElem?_modify_ne _ _ h.ne', ih, if_pos h, if_pos (by omega)]
    · rw [List.getElem?_modify_eq, ih, if_neg (Nat.lt_irrefl v), if_pos (Nat.lt_succ_self v)]
      rfl
    · rw [List.getElem?_modify_ne _ _ h.ne, ih, if_neg h.not_gt, if_neg (by omega)]

theorem coords_refineAllTo (y : SamplePoint) (bits : ℕ) :
    (y.refineAllTo bits).coords = y.coords.map (Coordinate.refineTo bits) :=
  List.ext_getElem? fun v => by
    rw [refineAllTo, getElem?_foldl_refineTo, List.getElem?_map]
    split_ifs with h
    · rfl
    · rw [List.getElem?_eq_none (not_lt.1 h)]
      rfl

theorem coords_run (y : SamplePoint) (e : PointEdit) : (e.run y).coords = e.onCoords y.coords := by
  cases e with
  | refine v => exact coords_refine y v
  | refineTo v bits => exact coords_refineTo y v bits
  | refineAllTo bits => exact coords_refineAllTo y bits
  | _ => rfl

theorem coords_foldl_run (y : SamplePoint) (es : List PointEdit) :
    (es.foldl PointEdit.run y).coords = es.foldl PointEdit.onCoords y.coords := by
  induction es generalizing y with
  | nil => rfl
  | cons e es ih => rw [List.foldl_cons, ih, coords_run, List.foldl_cons]

/-! ## Flags after a step -/

/-- Where no flag is set after a step, there was none before, and the coordinate is still there. -/
structure Flags (y z : SamplePoint) : Prop where
  size : z.size = y.size
  kept : ∀ v, z.touched[v]? = some false → y.touched[v]? = some false ∧ z.get? v = y.get? v

theorem Flags.refl (y : SamplePoint) : y.Flags y := ⟨rfl, fun _ h => ⟨h, rfl⟩⟩

theorem Flags.trans {w : SamplePoint} (h₁ : y.Flags z) (h₂ : z.Flags w) : y.Flags w where
  size := h₂.size.trans h₁.size
  kept v hv := by
    obtain ⟨hz, hget⟩ := h₂.kept v hv
    obtain ⟨hy, hget'⟩ := h₁.kept v hz
    exact ⟨hy, hget.trans hget'⟩

theorem flags_set (y : SamplePoint) (v : ℕ) (c : Coordinate) : y.Flags (y.set v c) where
  size := size_set v c y
  kept w hw := by
    rcases eq_or_ne v w with rfl | hvw
    · rw [set, List.getElem?_set_self'] at hw
      cases htouched : y.touched[v]? <;> simp [htouched] at hw
    · rw [set, List.getElem?_set_ne hvw] at hw
      exact ⟨hw, by rw [get?_set, if_neg fun h => hvw h.1]⟩

theorem flags_refine (y : SamplePoint) (v : ℕ) : y.Flags (y.refine v) := by
  rw [refine]
  split
  · exact flags_set ..
  · exact .refl y

theorem flags_refineTo (y : SamplePoint) (v bits : ℕ) : y.Flags (y.refineTo v bits) := by
  rw [refineTo]
  split
  · rename_i a ha
    dsimp only
    by_cases hwidth : (a.refineTo bits).span.width = a.span.width
    · -- the number is the same as before, so that no flag is needed
      obtain ⟨hlt, hget⟩ := List.getElem?_eq_some_iff.1 ha
      simp only [AlgebraicNumber.refineTo_eq_self hwidth, ← hget, List.set_getElem_self]
      exact .refl y
    · simp only [if_neg hwidth]
      exact flags_set y v _
  · exact .refl y

theorem flags_refineAllTo (y : SamplePoint) (bits : ℕ) : y.Flags (y.refineAllTo bits) :=
  List.foldlRecOn (motive := fun z : SamplePoint => y.Flags z) (List.range y.size) _ (.refl y)
    fun z hz v _ => hz.trans (z.flags_refineTo v bits)

/-! ## The whole work -/

/-- The copy has `n` coordinates more than the list, and all coordinates of the list where it has no
flag. -/
structure CopyOf (cs : List Coordinate) (n : ℕ) (y : SamplePoint) : Prop where
  size : y.size = cs.length + n
  kept : ∀ v < cs.length, y.touched[v]? = some false → y.get? v = cs[v]?

theorem CopyOf.flags (h : CopyOf cs n y) (hz : y.Flags z) : CopyOf cs n z where
  size := hz.size.trans h.size
  kept v hv hz' := by
    obtain ⟨hy, hget⟩ := hz.kept v hz'
    exact hget.trans (h.kept v hv hy)

theorem CopyOf.push (h : CopyOf cs n y) (c : Coordinate) : CopyOf cs (n + 1) (y.push c) where
  size := by
    rw [SamplePoint.size, SamplePoint.push, List.length_append, ← SamplePoint.size, h.size]
    rfl
  kept v hv hy := by
    have hlt : v < y.coords.length := hv.trans_le ((Nat.le_add_right ..).trans_eq h.size.symm)
    rw [SamplePoint.push, List.getElem?_append_left (y.aligned.symm ▸ hlt)] at hy
    rw [get?, SamplePoint.push, List.getElem?_append_left hlt]
    exact h.kept v hv hy

theorem CopyOf.pop (h : CopyOf cs (n + 1) y) : CopyOf cs n y.pop where
  size := by
    rw [SamplePoint.size, SamplePoint.pop, List.length_dropLast, ← SamplePoint.size, h.size]
    rfl
  kept v hv hy := by
    have hlt : v < y.coords.length - 1 := by
      have := h.size
      rw [SamplePoint.size] at this
      omega
    rw [SamplePoint.pop, List.getElem?_dropLast, if_pos (y.aligned.symm ▸ hlt)] at hy
    rw [get?, SamplePoint.pop, List.getElem?_dropLast, if_pos hlt]
    exact h.kept v hv hy

/-- A step keeps the copy a copy. -/
theorem CopyOf.run {e : PointEdit} (h : CopyOf cs n y) (he : e.added? n = some m) :
    CopyOf cs m (e.run y) := by
  cases e with
  | push c =>
    obtain rfl := Option.some.inj he
    exact h.push c
  | pop =>
    cases n with
    | zero => cases he
    | succ n =>
      obtain rfl := Option.some.inj he
      exact h.pop
  | set v c =>
    obtain rfl : n = m := by simpa [PointEdit.added?] using he
    exact h.flags (flags_set y v c)
  | refine v =>
    obtain rfl : n = m := by simpa [PointEdit.added?] using he
    exact h.flags (flags_refine y v)
  | refineTo v bits =>
    obtain rfl : n = m := by simpa [PointEdit.added?] using he
    exact h.flags (flags_refineTo y v bits)
  | refineAllTo bits =>
    obtain rfl : n = m := by simpa [PointEdit.added?] using he
    exact h.flags (flags_refineAllTo y bits)

theorem CopyOf.foldl_run {es : List PointEdit} (h : CopyOf cs n y)
    (hes : es.foldlM PointEdit.added? n = some m) : CopyOf cs m (es.foldl PointEdit.run y) := by
  induction es generalizing n y with
  | nil =>
    obtain rfl := Option.some.inj hes
    exact h
  | cons e es ih =>
    rw [List.foldlM_cons] at hes
    obtain ⟨k, hk, hes⟩ := Option.bind_eq_some_iff.1 hes
    exact ih (h.run hk) hes

/-! ## Adoption -/

theorem size_apply (x : SamplePoint) (changes : List (ℕ × Coordinate)) :
    (x.apply changes).size = x.size := by
  induction changes generalizing x with
  | nil => rfl
  | cons e es ih => exact (ih _).trans (size_set ..)

/-- Flags do not matter for the coordinates after changes. -/
theorem coords_apply_congr (h : x.coords = y.coords) (changes : List (ℕ × Coordinate)) :
    (x.apply changes).coords = (y.apply changes).coords := by
  induction changes generalizing x y with
  | nil => exact h
  | cons e es ih => exact ih (congrArg (·.set e.1 e.2) h)

/-- Coordinates of `y` that are adopted. -/
theorem get?_apply {changes : List (ℕ × Coordinate)} (hsize : y.size = x.size)
    (h : ∀ e ∈ changes, y.get? e.1 = some e.2) (v : ℕ) : (x.apply changes).get? v =
      if v ∈ changes.map (·.1) then y.get? v else x.get? v := by
  induction changes generalizing x with
  | nil => rfl
  | cons e es ih =>
    have he := h e (.head _)
    have hlt : e.1 < x.size := hsize ▸ lt_size_of_get? he
    rw [apply, List.foldl_cons, ← apply,
      ih (hsize.trans (size_set ..).symm) fun d hd => h d (.tail _ hd), get?_set]
    simp only [List.map_cons, List.mem_cons]
    rcases eq_or_ne v e.1 with rfl | hv
    · simp only [true_or, if_true, true_and, if_pos hlt, he, ite_self]
    · simp only [hv, hv.symm, false_or, false_and, if_false]

theorem get?_of_mem_changes {e : ℕ × Coordinate} (h : e ∈ y.changes) : y.get? e.1 = some e.2 := by
  obtain ⟨p, -, he⟩ := List.mem_filterMap.1 h
  obtain ⟨-, he⟩ := Option.ite_none_right_eq_some.1 he
  obtain ⟨c, hc, rfl⟩ := Option.map_eq_some_iff.1 he
  exact hc

/-- Every flag stands for a change. -/
theorem mem_changes_of_touched (hc : y.get? v = some c) (hv : y.touched[v]? = some true) :
    v ∈ y.changes.map (·.1) :=
  List.mem_map.2 ⟨(v, c), List.mem_filterMap.2 ⟨(true, v), List.mem_zipIdx_iff_getElem?.2 hv,
    by simp [hc]⟩, rfl⟩

theorem CopyOf.coords_apply (h : CopyOf x.coords 0 y) : (x.apply y.changes).coords = y.coords :=
  List.ext_getElem? fun v => by
    have hget := get?_apply h.size (fun e he => get?_of_mem_changes he) v
    refine hget.trans ?_
    split_ifs with hmem
    · rfl
    · have hsize : y.size = x.size := h.size
      rcases lt_or_ge v x.size with hlt | hge
      · obtain ⟨c, hc⟩ := exists_get? (hlt.trans_eq hsize.symm)
        obtain ⟨flag, hflag⟩ : ∃ flag, y.touched[v]? = some flag :=
          ⟨_, List.getElem?_eq_getElem (y.aligned.symm ▸ lt_size_of_get? hc)⟩
        cases flag with
        | true => exact absurd (mem_changes_of_touched hc hflag) hmem
        | false => exact (h.kept v hlt hflag).symm
      · rw [get?, List.getElem?_eq_none hge]
        exact (List.getElem?_eq_none (hsize.trans_le hge)).symm

end SamplePoint

end Cylindrical
