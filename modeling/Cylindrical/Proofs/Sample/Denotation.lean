import Mathlib
import Cylindrical.Sample.Point
import Cylindrical.Proofs.Interval
import Cylindrical.Proofs.Univariate.SignChange

/-!
# Points that stand for real numbers

A coordinate is valid for a real number if it is this rational number, or if its isolator is
square-free with this number as the only root between the ends, and its defining polynomial at the
lower coordinates has the root and divides the isolator.  Refinement keeps valid coordinates valid.
-/

noncomputable section

open Polynomial

namespace Cylindrical

/-! ## Coordinates -/

namespace AlgebraicNumber

/-- The number is the only root of the square-free isolator between the ends of the interval, which are
no roots. -/
structure Isolates (a : AlgebraicNumber) (ξ : ℝ) : Prop where
  squarefree : Squarefree (Univariate.toPolynomial a.isolator)
  lo_lt : (a.span.lo : ℝ) < ξ
  lt_hi : ξ < a.span.hi
  isRoot : (Univariate.toReal a.isolator).IsRoot ξ
  unique : ∀ y : ℝ, a.span.lo ≤ y → y ≤ a.span.hi → (Univariate.toReal a.isolator).IsRoot y → y = ξ
  leftSign : a.leftSign = .ofOrdering (Univariate.signAt a.isolator a.span.lo)

end AlgebraicNumber

/-- A polynomial in `v` and lower variables that vanishes at a point and whose fiber there divides the
isolator `cs`. -/
structure Poly.Defines (d : Poly) (v : ℕ) (cs : List ℚ) (x : ℕ → ℝ) : Prop where
  vars_le : ∀ w ∈ d.toMv.vars, w ≤ v
  value_eq_zero : d.value x = 0
  fiber_dvd : d.fiber v x ∣ Univariate.toReal cs

/-- The coordinate of `v` is valid for the coordinate of a real point. -/
def Coordinate.Denotes (v : ℕ) (x : ℕ → ℝ) : Coordinate → Prop
  | rational r => x v = r
  | algebraic a => a.Isolates (x v) ∧ a.defining.Defines v a.isolator x

/-- The coordinates are valid for those of a real point. -/
def SamplePoint.Denotes (s : SamplePoint) (x : ℕ → ℝ) : Prop :=
  ∀ v c, s.get? v = some c → c.Denotes v x

namespace AlgebraicNumber

theorem ofOrdering_injective : Function.Injective Sign.ofOrdering := by
  intro a b h
  cases a <;> cases b <;> simp_all [Sign.ofOrdering]

@[simp] theorem defining_refine (a : AlgebraicNumber) : a.refine.defining = a.defining := by
  simp only [refine]
  split_ifs <;> rfl

@[simp] theorem isolator_refine (a : AlgebraicNumber) : a.refine.isolator = a.isolator := by
  simp only [refine]
  split_ifs <;> rfl

/-- A refinement keeps a part of the interval on one side of a point in its third quarter. -/
theorem span_refine (a : AlgebraicNumber) : ∃ t : ℚ, 1 / 2 ≤ t ∧ t ≤ 3 / 4 ∧
    (a.refine.span = ⟨a.span.lo + t * (a.span.hi - a.span.lo), a.span.hi⟩ ∨
      a.refine.span = ⟨a.span.lo, a.span.lo + t * (a.span.hi - a.span.lo)⟩) := by
  obtain ⟨t, ht, ht', hsplit⟩ := Univariate.splitPoint_eq a.isolator a.span.lo a.span.hi
  refine ⟨t, ht, ht', ?_⟩
  simp only [refine, hsplit]
  split_ifs
  · exact .inl rfl
  · exact .inr rfl

namespace Isolates

variable {a : AlgebraicNumber} {ξ : ℝ}

theorem toPolynomial_ne_zero (h : a.Isolates ξ) : Univariate.toPolynomial a.isolator ≠ 0 :=
  h.squarefree.ne_zero

theorem lo_lt_hi (h : a.Isolates ξ) : a.span.lo < a.span.hi := by
  have := h.lo_lt.trans h.lt_hi
  exact_mod_cast this

theorem encloses (h : a.Isolates ξ) : a.span.Encloses ξ := ⟨h.lo_lt.le, h.lt_hi.le⟩

/-- On the side of the root that a point without a root lies. -/
theorem signAt_eq_iff (h : a.Isolates ξ) {m : ℚ} (hlo : a.span.lo ≤ m) (hhi : m ≤ a.span.hi)
    (hm : ¬(Univariate.toReal a.isolator).IsRoot m) :
    Sign.ofOrdering (Univariate.signAt a.isolator m) = a.leftSign ↔ (m : ℝ) < ξ := by
  rw [h.leftSign, ofOrdering_injective.eq_iff]
  have hlo' : (a.span.lo : ℝ) ≤ m := Rat.cast_le.2 hlo
  have hhi' : (m : ℝ) ≤ a.span.hi := Rat.cast_le.2 hhi
  have hne : (m : ℝ) ≠ ξ := by
    rintro he
    exact hm (he ▸ h.isRoot)
  constructor
  · intro heq
    by_contra hlt
    have hgt := lt_of_le_of_ne (not_lt.1 hlt) hne.symm
    exact Univariate.signAt_ne_of_isRoot (Univariate.squarefree_toReal h.squarefree) h.lo_lt hgt
      h.isRoot (fun x hx hr => h.unique x hx.1 (hx.2.trans hhi') hr) heq.symm
  · intro hlt
    refine (Univariate.signAt_eq_of_forall_not_isRoot hlo fun x hx hr => ?_).symm
    rw [h.unique x hx.1 (hx.2.trans hhi') hr] at hx
    exact hx.2.not_gt hlt

theorem refine (h : a.Isolates ξ) : a.refine.Isolates ξ := by
  obtain ⟨hlo, hhi, hroot⟩ := Univariate.splitPoint_spec h.toPolynomial_ne_zero h.lo_lt_hi
  simp only [AlgebraicNumber.refine]
  generalize Univariate.splitPoint a.isolator a.span.lo a.span.hi = m at hlo hhi hroot
  have hroot' : ¬(Univariate.toReal a.isolator).IsRoot m := fun hr =>
    hroot (Univariate.isRoot_toReal_iff.1 hr)
  have hside := h.signAt_eq_iff hlo.le hhi.le hroot'
  have hlo' : (a.span.lo : ℝ) < m := Rat.cast_lt.2 hlo
  have hhi' : (m : ℝ) < a.span.hi := Rat.cast_lt.2 hhi
  split_ifs with hsign
  · exact ⟨h.squarefree, hside.1 hsign, h.lt_hi, h.isRoot,
      fun y h₁ h₂ hr => h.unique y (hlo'.le.trans h₁) h₂ hr, hsign.symm⟩
  · have hlt : ξ < m := by
      refine lt_of_le_of_ne (not_lt.1 fun hlt => hsign (hside.2 hlt)) ?_
      rintro rfl
      exact hroot' h.isRoot
    exact ⟨h.squarefree, h.lo_lt, hlt, h.isRoot,
      fun y h₁ h₂ hr => h.unique y h₁ (h₂.trans hhi'.le) hr, h.leftSign⟩

theorem span_refine (h : a.Isolates ξ) :
    a.span.lo ≤ a.refine.span.lo ∧ a.refine.span.hi ≤ a.span.hi := by
  obtain ⟨t, ht, ht', hspan⟩ := a.span_refine
  have hwidth : 0 < a.span.hi - a.span.lo := sub_pos.2 h.lo_lt_hi
  rcases hspan with hspan | hspan <;> rw [hspan] <;> constructor <;> dsimp only <;> nlinarith

theorem width_refine (h : a.Isolates ξ) : a.refine.span.width ≤ 3 / 4 * a.span.width := by
  obtain ⟨t, ht, ht', hspan⟩ := a.span_refine
  have hwidth : 0 < a.span.hi - a.span.lo := sub_pos.2 h.lo_lt_hi
  rcases hspan with hspan | hspan <;> rw [hspan, Interval.width, Interval.width] <;> nlinarith

end Isolates

/-- The isolator stays, and what the interval of `a` isolates, an interval inside it isolates for
`b`. -/
structure Narrows (b a : AlgebraicNumber) : Prop where
  isolator : b.isolator = a.isolator
  isolates : ∀ ξ, a.Isolates ξ → b.Isolates ξ
  span : ∀ ξ, a.Isolates ξ → a.span.lo ≤ b.span.lo ∧ b.span.hi ≤ a.span.hi

theorem narrows_refl (a : AlgebraicNumber) : a.Narrows a :=
  ⟨rfl, fun _ h => h, fun _ _ => ⟨le_rfl, le_rfl⟩⟩

theorem Narrows.trans {a b c : AlgebraicNumber} (h : c.Narrows b) (h' : b.Narrows a) :
    c.Narrows a where
  isolator := h.isolator.trans h'.isolator
  isolates ξ hξ := h.isolates ξ (h'.isolates ξ hξ)
  span ξ hξ := by
    have hb := h'.span ξ hξ
    have hc := h.span ξ (h'.isolates ξ hξ)
    exact ⟨hb.1.trans hc.1, hc.2.trans hb.2⟩

/-- A refinement changes the interval only. -/
def Refines (b a : AlgebraicNumber) : Prop := b.defining = a.defining ∧ b.Narrows a

theorem Refines.trans {a b c : AlgebraicNumber} (h : c.Refines b) (h' : b.Refines a) :
    c.Refines a :=
  ⟨h.1.trans h'.1, h.2.trans h'.2⟩

theorem refines_refl (a : AlgebraicNumber) : a.Refines a := ⟨rfl, narrows_refl a⟩

theorem refines_refine (a : AlgebraicNumber) : a.refine.Refines a :=
  ⟨defining_refine a, isolator_refine a, fun _ h => h.refine, fun _ h => h.span_refine⟩

theorem refines_refineWhileWider (width : ℚ) (steps : ℕ) (a : AlgebraicNumber) :
    (refineWhileWider width steps a).Refines a := by
  induction steps generalizing a with
  | zero => exact refines_refl a
  | succ steps ih =>
    rw [refineWhileWider]
    split_ifs
    · exact (ih a.refine).trans (refines_refine a)
    · exact refines_refl a

theorem refines_refineTo (bits : ℕ) (a : AlgebraicNumber) : (a.refineTo bits).Refines a :=
  refines_refineWhileWider _ _ a

end AlgebraicNumber

namespace Coordinate

variable {v : ℕ} {x : ℕ → ℝ}

/-- What a coordinate is given by apart from its enclosure: its value, or its defining polynomial. -/
def relation : Coordinate → ℚ ⊕ Poly
  | rational r => .inl r
  | algebraic a => .inr a.defining

theorem Denotes.encloses {c : Coordinate} (h : c.Denotes v x) : c.span.Encloses (x v) := by
  cases c with
  | rational r =>
    rw [show x v = r from h]
    exact .point r
  | algebraic a => exact h.1.encloses

theorem Denotes.of_refines {a b : AlgebraicNumber} (hb : b.Refines a)
    (h : (algebraic a).Denotes v x) : (algebraic b).Denotes v x :=
  ⟨hb.2.isolates _ h.1, by rw [hb.1, hb.2.isolator]; exact h.2⟩

end Coordinate

/-! ## Points -/

namespace SamplePoint

theorem get?_set {v w : ℕ} {c : Coordinate} {s : SamplePoint} :
    (s.set v c).get? w = if v = w ∧ v < s.size then some c else s.get? w := by
  rw [get?, set, List.getElem?_set, get?]
  by_cases hv : v = w
  · subst hv
    by_cases hlt : v < s.coords.length
    · simp [size, hlt]
    · simp [size, hlt]
  · simp [hv]

@[simp] theorem size_set (v : ℕ) (c : Coordinate) (s : SamplePoint) : (s.set v c).size = s.size :=
  List.length_set

theorem lt_size_of_get? {v : ℕ} {c : Coordinate} {s : SamplePoint} (h : s.get? v = some c) :
    v < s.size :=
  (List.getElem?_eq_some_iff.1 h).1

theorem exists_get? {v : ℕ} {s : SamplePoint} (h : v < s.size) : ∃ c, s.get? v = some c :=
  ⟨_, List.getElem?_eq_getElem h⟩

/-- The relations of the coordinates. -/
def relations (s : SamplePoint) : List (ℚ ⊕ Poly) := s.coords.map (·.relation)

theorem getElem?_relations (s : SamplePoint) (v : ℕ) :
    s.relations[v]? = (s.get? v).map (·.relation) := by
  rw [relations, List.getElem?_map, get?]

variable {s t u : SamplePoint}

theorem size_of_relations (h : t.relations = s.relations) : t.size = s.size := by
  simpa [relations, size] using congrArg List.length h

theorem exists_of_relations (h : t.relations = s.relations) {v : ℕ} {c : Coordinate}
    (hc : t.get? v = some c) : ∃ d, s.get? v = some d ∧ c.relation = d.relation := by
  have hget := congrArg (·[v]?) h
  simp only [getElem?_relations, hc] at hget
  obtain ⟨d, hd, hcd⟩ := Option.map_eq_some_iff.1 hget.symm
  exact ⟨d, hd, hcd.symm⟩

/-- One point refines another: the relations are the same, and the intervals narrow. -/
def Refines (t s : SamplePoint) : Prop :=
  t.relations = s.relations ∧ ∀ v a, s.get? v = some (.algebraic a) →
    ∃ b, t.get? v = some (.algebraic b) ∧ b.Narrows a

theorem refines_refl (s : SamplePoint) : s.Refines s :=
  ⟨rfl, fun _ a ha => ⟨a, ha, AlgebraicNumber.narrows_refl a⟩⟩

theorem Refines.trans (h : u.Refines t) (h' : t.Refines s) : u.Refines s := by
  refine ⟨h.1.trans h'.1, fun v a ha => ?_⟩
  obtain ⟨b, hb, hba⟩ := h'.2 v a ha
  obtain ⟨c, hc, hcb⟩ := h.2 v b hb
  exact ⟨c, hc, hcb.trans hba⟩

/-- A number of the refined point, with the one it refines. -/
theorem Refines.exists_algebraic (h : t.Refines s) {v : ℕ} {a : AlgebraicNumber}
    (ha : s.get? v = some (.algebraic a)) : ∃ b, t.get? v = some (.algebraic b) ∧ b.Refines a := by
  obtain ⟨b, hb, hba⟩ := h.2 v a ha
  obtain ⟨c, hc, hcb⟩ := exists_of_relations h.1 hb
  obtain rfl := Option.some.inj (hc.symm.trans ha)
  exact ⟨b, hb, Sum.inr.inj hcb, hba⟩

/-- A refined point is valid wherever the other one is. -/
theorem Denotes.of_refines {x : ℕ → ℝ} (hs : s.Denotes x) (h : t.Refines s) : t.Denotes x := by
  intro v c hc
  obtain ⟨d, hd, hcd⟩ := exists_of_relations h.1 hc
  have hdx := hs v d hd
  cases d with
  | rational q =>
    cases c with
    | rational r =>
      obtain rfl := Sum.inl.inj hcd
      exact hdx
    | algebraic b => cases hcd
  | algebraic a =>
    obtain ⟨b, hb, hba⟩ := h.exists_algebraic hd
    obtain rfl := Option.some.inj (hc.symm.trans hb)
    exact hdx.of_refines hba

theorem Denotes.set {v : ℕ} {c : Coordinate} {s : SamplePoint} {x : ℕ → ℝ} (h : s.Denotes x)
    (hc : c.Denotes v x) : (s.set v c).Denotes x := by
  intro w d hd
  rw [get?_set] at hd
  split_ifs at hd with hw
  · rw [← hw.1, ← Option.some.inj hd]
    exact hc
  · exact h w d hd

theorem refines_set {v : ℕ} {a b : AlgebraicNumber} {s : SamplePoint}
    (h : s.get? v = some (.algebraic a)) (hb : b.Refines a) :
    (s.set v (.algebraic b)).Refines s := by
  refine ⟨List.ext_getElem? fun w => ?_, fun w c hc => ?_⟩
  · rw [getElem?_relations, getElem?_relations, get?_set]
    split_ifs with hw
    · rw [← hw.1, h, Option.map_some, Option.map_some, Coordinate.relation, Coordinate.relation, hb.1]
    · rfl
  · rw [get?_set]
    split_ifs with hw
    · obtain rfl : a = c := by simpa [← hw.1, h] using hc
      exact ⟨b, rfl, hb.2⟩
    · exact ⟨c, hc, AlgebraicNumber.narrows_refl c⟩

theorem refines_refineTo (v bits : ℕ) (s : SamplePoint) : (s.refineTo v bits).Refines s := by
  rw [refineTo]
  split
  · rename_i a h
    exact refines_set h (AlgebraicNumber.refines_refineTo bits a)
  · exact refines_refl s

theorem refines_foldl_refineTo (bits : ℕ) (vs : List ℕ) (s : SamplePoint) :
    (vs.foldl (fun s v => s.refineTo v bits) s).Refines s := by
  induction vs generalizing s with
  | nil => exact refines_refl s
  | cons v vs ih => exact (ih _).trans (refines_refineTo v bits s)

theorem Denotes.encloses {s : SamplePoint} {x : ℕ → ℝ} (h : s.Denotes x) (v : ℕ) (i : Interval)
    (hi : s.span? v = some i) : i.Encloses (x v) := by
  obtain ⟨c, hc, rfl⟩ := Option.map_eq_some_iff.1 hi
  exact (h v c hc).encloses

@[simp] theorem get?_ofCoords (cs : List Coordinate) (v : ℕ) : (ofCoords cs).get? v = cs[v]? := rfl

@[simp] theorem get?_ofCoords_coords (s : SamplePoint) (v : ℕ) :
    (ofCoords s.coords).get? v = s.get? v := rfl

end SamplePoint

end Cylindrical

end
