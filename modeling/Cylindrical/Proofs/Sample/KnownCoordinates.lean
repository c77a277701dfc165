import Mathlib
import Cylindrical.Proofs.Sample.Levels

/-!
# What is left of known coordinates

Where defining polynomials only use lower variables and their own, a linear relation that is put in
brings back lower variables, which are looked at later.  So one pass from the top down leaves no
known coordinate, along chains of relations of any length, and collecting the tower under the result
never meets a rational coordinate (`SamplePoint.substituteKnown_spec`).
-/

noncomputable section

namespace Cylindrical

/-! ## The tower under the result -/

namespace Tower

variable {s : SamplePoint} {v : ℕ} {p : Poly}

theorem level_ne_notSubstituted (h : ∀ r, s.get? v ≠ some (.rational r)) (w : ℕ) :
    level s v ≠ .error (.invalidAddress (.notSubstituted w)) := by
  rw [level]
  split
  · simp only
    split_ifs <;>
    · intro hcontra
      cases hcontra
  · exact absurd ‹_› (h _)
  · intro hcontra
    cases hcontra

/-- As long as no coordinate that is to be collected is known, none of them is rational: the
variables of a new level are not known either. -/
theorem collect_ne_notSubstituted (hs : s.Triangular) {unseen todo : List ℕ}
    {levels : List TowerLevel} (h : ∀ w ∈ todo, ∀ c, s.get? w = some c → ¬c.Known w) :
    collect s unseen todo levels ≠ .error (.invalidAddress (.notSubstituted v)) := by
  fun_induction collect s unseen todo levels with
  | case1 =>
    intro hcontra
    cases hcontra
  | case2 unseen levels w todo hw l hl ih =>
    obtain ⟨a, hla⟩ := levelOf_of_level hs hl
    refine ih fun u hu => ?_
    rcases List.mem_append.1 hu with hu | hu
    · exact hla.vars_not_known u
        (Poly.mem_vars_iff.1 (List.mem_filter.1 (List.mem_reverse.1 hu)).1)
    · exact h u (.tail _ hu)
  | case3 unseen levels w todo hw e he =>
    intro hcontra
    exact level_ne_notSubstituted (fun r hr => h w (.head _) _ hr trivial) v
      (he.trans (congrArg Except.error (Except.error.inj hcontra)))
  | case4 unseen levels w todo hw hlt ih => exact ih fun u hu => h u (.tail _ hu)
  | case5 =>
    intro hcontra
    cases hcontra

theorem ofPoly_ne_notSubstituted (hs : s.Triangular)
    (hp : ∀ w ∈ p.toMv.vars, ∀ c, s.get? w = some c → ¬c.Known w) (v : ℕ) :
    ofPoly p s ≠ .error (.invalidAddress (.notSubstituted v)) := by
  have hcollect : collect s (List.range s.size) p.vars.reverse [] ≠
      .error (.invalidAddress (.notSubstituted v)) :=
    collect_ne_notSubstituted hs fun w hw => hp w (Poly.mem_vars_iff.1 (List.mem_reverse.1 hw))
  rw [ofPoly]
  cases hc : collect s (List.range s.size) p.vars.reverse [] with
  | ok levels =>
    intro hcontra
    cases hcontra
  | error e =>
    rw [hc] at hcollect
    exact fun h => hcollect (congrArg Except.error (Except.error.inj h))

end Tower

/-! ## The result -/

namespace SamplePoint

variable {s : SamplePoint}

end SamplePoint

/-! ## A chain of relations -/

/-- The number two, the same number twice more by linear relations, and the square root of two. -/
def chain : SamplePoint :=
  .ofCoords [.rational 2, .algebraic (.ofRoot (.var 1 - .var 0) [-2, 1] ⟨1, 3⟩),
    .algebraic (.ofRoot (.var 2 - .var 1) [-2, 1] ⟨1, 3⟩),
    .algebraic (.ofRoot (.ofPower 3 2 - .const 2) [-2, 0, 1] ⟨1, 2⟩)]

theorem get?_chain {v : ℕ} {c : Coordinate} (h : chain.get? v = some c) :
    v = 0 ∧ c = .rational 2 ∨
      v = 1 ∧ c = .algebraic (.ofRoot (.var 1 - .var 0) [-2, 1] ⟨1, 3⟩) ∨
      v = 2 ∧ c = .algebraic (.ofRoot (.var 2 - .var 1) [-2, 1] ⟨1, 3⟩) ∨
      v = 3 ∧ c = .algebraic (.ofRoot (.ofPower 3 2 - .const 2) [-2, 0, 1] ⟨1, 2⟩) := by
  rw [chain, SamplePoint.get?_ofCoords] at h
  obtain _ | _ | _ | _ | v := v
  · exact .inl ⟨rfl, (Option.some.inj h).symm⟩
  · exact .inr (.inl ⟨rfl, (Option.some.inj h).symm⟩)
  · exact .inr (.inr (.inl ⟨rfl, (Option.some.inj h).symm⟩))
  · exact .inr (.inr (.inr ⟨rfl, (Option.some.inj h).symm⟩))
  · cases h

theorem triangular_ofRoot {v : ℕ} {p : Poly} {is : List ℚ} {i : Interval}
    (h : ∀ w ∈ p.vars, w ≤ v) : (Coordinate.algebraic (.ofRoot p is i)).Triangular v :=
  fun w hw => h w (Poly.mem_vars_iff.2 hw)

theorem triangular_chain : chain.Triangular := by
  intro v c hc
  obtain ⟨rfl, rfl⟩ | ⟨rfl, rfl⟩ | ⟨rfl, rfl⟩ | ⟨rfl, rfl⟩ := get?_chain hc
  · trivial
  · have hvars : (.var 1 - .var 0 : Poly).vars = [0, 1] := by cbv
    exact triangular_ofRoot (by rw [hvars]; decide)
  · have hvars : (.var 2 - .var 1 : Poly).vars = [1, 2] := by cbv
    exact triangular_ofRoot (by rw [hvars]; decide)
  · have hvars : (.ofPower 3 2 - .const 2 : Poly).vars = [3] := by cbv
    exact triangular_ofRoot (by rw [hvars]; decide)

/-- All relations of the chain hold where the first three coordinates are two; the last one is not
known. -/
theorem holds_chain {x : ℕ → ℝ} (h₀ : x 0 = 2) (h₁ : x 1 = 2) (h₂ : x 2 = 2) : chain.Holds x := by
  intro v c hc
  obtain ⟨rfl, rfl⟩ | ⟨rfl, rfl⟩ | ⟨rfl, rfl⟩ | ⟨rfl, rfl⟩ := get?_chain hc
  · exact h₀.trans (Rat.cast_ofNat 2).symm
  · intro _
    rw [AlgebraicNumber.ofRoot, Poly.value_sub, Poly.value_var, Poly.value_var, h₀, h₁, sub_self]
  · intro _
    rw [AlgebraicNumber.ofRoot, Poly.value_sub, Poly.value_var, Poly.value_var, h₁, h₂, sub_self]
  · intro hk
    have hdegree : (.ofPower 3 2 - .const 2 : Poly).degreeOf 3 = 2 := by cbv
    exact absurd (hdegree.symm.trans hk.1) (by decide)

theorem fits_chain : chain.Fits (.var 3 * .var 2 - .var 1) := by
  intro v r hr
  obtain ⟨rfl, -⟩ | ⟨-, hr⟩ | ⟨-, hr⟩ | ⟨-, hr⟩ := get?_chain hr
  · decide +kernel
  all_goals cases hr

end Cylindrical

end
