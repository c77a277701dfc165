import Mathlib
import Cylindrical.Projection.Operator
import Cylindrical.Stack.Lifting
import Cylindrical.Proofs.Focus
import Cylindrical.Proofs.Sample.Denotation

/-!
# Signatures of stacks

A stack has at least one cell, and on each of its cells the signs of all factors are known.
-/

namespace Cylindrical

namespace Stack

theorem length_signsOver (lead : Sign) (orders : List ℕ) :
    (signsOver lead orders).1.length = orders.length := by
  rw [signsOver]
  induction orders with
  | nil => rfl
  | cons m orders ih =>
    rw [List.foldr_cons]
    split_ifs <;> simp only [List.length_cons, ih]

theorem length_factorSigns (cells : List (Coordinate × Option Section)) (i : ℕ) (sh : Shape) :
    (factorSigns cells i sh).length = cells.length := by
  cases sh with
  | constant s => rw [factorSigns, List.length_map]
  | roots degree lead => rw [factorSigns, length_signsOver, List.length_map]

/-- Columns of one length, read as rows. -/
theorem foldr_zipWith_cons {α : Type} {n : ℕ} {columns : List (List α)}
    (h : ∀ c ∈ columns, c.length = n) {start : List (List α)} (hstart : start.length = n)
    (hnil : ∀ row ∈ start, row = []) :
    (columns.foldr (List.zipWith (· :: ·)) start).length = n ∧
      ∀ row ∈ columns.foldr (List.zipWith (· :: ·)) start, row.length = columns.length := by
  induction columns with
  | nil => exact ⟨hstart, fun row hrow => by rw [hnil row hrow]; rfl⟩
  | cons c columns ih =>
    obtain ⟨hlen, hrows⟩ := ih fun d hd => h d (.tail _ hd)
    rw [List.foldr_cons]
    refine ⟨by rw [List.length_zipWith, hlen, h c (.head _), Nat.min_self], fun row hrow => ?_⟩
    obtain ⟨k, hk, rfl⟩ := List.getElem_of_mem hrow
    rw [List.getElem_zipWith, List.length_cons, List.length_cons, hrows _ (List.getElem_mem _)]

theorem assemble_spec (cells : List (Coordinate × Option Section)) (shapes : List Shape) :
    (assemble cells shapes).length = cells.length ∧ ∀ s ∈ assemble cells shapes,
      ∃ signs : List Sign, s.signature = signs.map some ∧ signs.length = shapes.length := by
  rw [assemble]
  generalize hmap : shapes.zipIdx.map _ = columns
  have hcolumns : ∀ column ∈ columns, column.length = cells.length := fun column hc => by
    rw [← hmap] at hc
    obtain ⟨⟨sh, i⟩, -, rfl⟩ := List.mem_map.1 hc
    exact length_factorSigns cells i sh
  have hstart : (cells.map fun _ => ([] : List Sign)).length = cells.length := List.length_map _
  obtain ⟨hlen, hrows⟩ := foldr_zipWith_cons hcolumns hstart (by simp)
  refine ⟨by rw [List.length_zipWith, hlen, Nat.min_self], fun s hs => ?_⟩
  obtain ⟨k, hk, rfl⟩ := List.getElem_of_mem hs
  rw [List.getElem_zipWith]
  refine ⟨_, rfl, (hrows _ (List.getElem_mem _)).trans ?_⟩
  rw [← hmap, List.length_map, List.length_zipIdx]

variable {cfg : Config} {zero : ZeroTest.Config} {c : Cylinder} {σ τ : StackState}

theorem length_addFactors {i : ℕ} {fs : List ProjectionFactor} {ss : List Section}
    {r : List Shape × List Section} (h : addFactors cfg zero c i fs ss σ = .ok r τ) :
    r.1.length = fs.length := by
  induction fs generalizing i ss r σ τ with
  | nil =>
    obtain ⟨rfl, -⟩ := run_pure_eq_ok h
    rfl
  | cons f fs ih =>
    rw [addFactors] at h
    obtain ⟨sh, σ₁, -, h⟩ := run_bind_eq_ok h
    -- whatever the shape, the later factors are added to some sections
    cases sh <;>
    · obtain ⟨rs, σ₂, -, h⟩ := run_bind_eq_ok h
      obtain ⟨ss', σ₃, -, h⟩ := run_bind_eq_ok h
      obtain ⟨later, σ₄, hlater, h⟩ := run_bind_eq_ok h
      obtain ⟨rfl, -⟩ := run_pure_eq_ok h
      exact congrArg (· + 1) (ih hlater)

theorem ne_nil_of_cellCoords {ss : List Section} {cells : List (Coordinate × Option Section)}
    (h : cellCoords cfg ss σ = .ok cells τ) : cells ≠ [] := by
  cases ss with
  | nil =>
    obtain ⟨rfl, -⟩ := run_pure_eq_ok h
    exact List.cons_ne_nil _ _
  | cons s ss =>
    rw [cellCoords] at h
    obtain ⟨sectors, σ₁, -, h⟩ := run_bind_eq_ok h
    obtain ⟨rfl, -⟩ := run_pure_eq_ok h
    exact List.cons_ne_nil _ _

/-- The steps of a run that returns a stack. -/
theorem cells_eq_ok {stack : List StackCell} (h : cells cfg zero c σ = .ok stack τ) :
    ∃ (shapes : List Shape) (ss : List Section) (coords : List (Coordinate × Option Section))
      (σ₁ σ₂ : StackState), addFactors cfg zero c 0 c.factors [] σ₁ = .ok (shapes, ss) σ₂ ∧
      cellCoords cfg ss σ₂ = .ok coords τ ∧ stack = assemble coords shapes := by
  rw [cells] at h
  obtain ⟨_, σ₁, -, h⟩ := run_bind_eq_ok h
  rw [run_get_bind] at h
  -- the point is counted first if it is not rational
  obtain ⟨σ₂, h⟩ : ∃ σ₂, (do
      let r ← addFactors cfg zero c 0 c.factors []
      return assemble (← cellCoords cfg r.2) r.1) σ₂ = .ok stack τ := by
    split_ifs at h with hpoint
    · obtain ⟨_, σ₂, -, h⟩ := run_bind_eq_ok h
      exact ⟨σ₂, h⟩
    · exact ⟨σ₁, h⟩
  obtain ⟨⟨shapes, ss⟩, σ₃, hshapes, h⟩ := run_bind_eq_ok h
  obtain ⟨coords, σ₄, hcoords, h⟩ := run_bind_eq_ok h
  obtain ⟨rfl, rfl⟩ := run_pure_eq_ok h
  exact ⟨shapes, ss, coords, σ₂, σ₃, hshapes, hcoords, rfl⟩

/-- On each cell of a stack all factors have known signs, and there is at least one cell. -/
theorem cells_spec {stack : List StackCell} (h : cells cfg zero c σ = .ok stack τ) :
    stack ≠ [] ∧ ∀ s ∈ stack, ∃ signs : List Sign,
      s.signature = signs.map some ∧ signs.length = c.factors.length := by
  obtain ⟨shapes, ss, coords, σ₁, σ₂, hshapes, hcoords, rfl⟩ := cells_eq_ok h
  obtain ⟨hlen, hsigns⟩ := assemble_spec coords shapes
  rw [← length_addFactors hshapes]
  refine ⟨fun hnil => ne_nil_of_cellCoords hcoords ?_, hsigns⟩
  rw [hnil] at hlen
  exact List.length_eq_zero_iff.1 hlen.symm

end Stack

end Cylindrical
