import Mathlib
import Cylindrical.Residue.Reconstruction
import Cylindrical.Proofs.Focus
import Cylindrical.Proofs.Poly.Denotation

/-!
# Exponents of reconstructions

A reconstruction has no other monomials than the images it comes from, so what holds of all
monomials of the images holds of its own, and bounds on their exponents are bounds on its
degrees.
-/

namespace Cylindrical

namespace Poly

theorem degreeOf_ofTerms_lt {o : MonomialOrder} {ts : List Term} {v n : ℕ} (hn : 0 < n)
    (h : ∀ t ∈ ts, t.monomial.degreeOf v < n) : (ofTerms o ts).degreeOf v < n := by
  rw [degreeOf_eq, toMv_ofTerms, MvPolynomial.degreeOf_lt_iff hn]
  intro m hm
  by_contra hle
  refine MvPolynomial.mem_support_iff.1 hm (coeff_sumOf fun t ht he => hle ?_)
  rw [← he, Monomial.toFinsupp_apply]
  exact h t ht

end Poly

namespace Residue

theorem mem_of_mem_lastEntries {e : Monomial × ℕ} {es : List (Monomial × ℕ)}
    (h : e ∈ lastEntries es) : e ∈ es := by
  induction es with
  | nil => exact h
  | cons d es ih =>
    rw [lastEntries] at h
    split_ifs at h
    · exact .tail _ (ih h)
    · rcases List.mem_cons.1 h with rfl | h
      · exact .head _
      · exact .tail _ (ih h)

end Residue

namespace Reconstruction

variable {Q : Monomial → Prop}

/-- All monomials met so far have a property. -/
def MonomialsSatisfy (Q : Monomial → Prop) (r : Reconstruction) : Prop :=
  ∀ e ∈ r.residues, Q e.1

theorem monomialsSatisfy_empty : ({} : Reconstruction).MonomialsSatisfy Q := by
  intro e he
  cases he

theorem monomialsSatisfy_addImage {p : ℕ} {image : List (Monomial × ℕ)} {r : Reconstruction}
    (hr : r.MonomialsSatisfy Q) (h : ∀ e ∈ image, Q e.1) :
    (r.addImage p image).MonomialsSatisfy Q := by
  intro e he
  obtain ⟨he, -⟩ := List.mem_filter.1 he
  rcases List.mem_append.1 he with he | he
  · obtain ⟨d, hd, rfl⟩ := List.mem_map.1 he
    exact hr d hd
  · obtain ⟨d, hd, rfl⟩ := List.mem_map.1 he
    exact h d (Residue.mem_of_mem_lastEntries (List.mem_filter.1 hd).1)

theorem exists_terms_of_poly? {r : Reconstruction} {q : Poly} (hr : r.MonomialsSatisfy Q)
    (h : r.poly? = some q) : ∃ ts, q = .ofTerms .grLex ts ∧ ∀ t ∈ ts, Q t.monomial := by
  obtain ⟨ts, hts, rfl⟩ := Option.map_eq_some_iff.1 h
  refine ⟨ts, rfl, fun t ht => ?_⟩
  obtain ⟨e, he, het⟩ := exists_mem_of_forall₂ (forall₂_of_mapM_eq_some hts) ht
  obtain ⟨c, -, rfl⟩ := Option.map_eq_some_iff.1 het
  exact hr e he

/-- A reconstruction that is returned has the monomials of the images. -/
theorem add_spec {p : ℕ} {image : List (Monomial × ℕ)} {r : Reconstruction}
    (hr : r.MonomialsSatisfy Q) (h : ∀ e ∈ image, Q e.1) :
    (r.add p image).2.MonomialsSatisfy Q ∧ ∀ q, (r.add p image).1 = some q →
      ∃ ts, q = .ofTerms .grLex ts ∧ ∀ t ∈ ts, Q t.monomial := by
  have hnext := monomialsSatisfy_addImage (p := p) hr h
  rw [add]
  generalize r.addImage p image = next at hnext
  split
  · rename_i q q' hq _
    split_ifs
    · refine ⟨hnext, fun q'' he => ?_⟩
      obtain rfl := Option.some.inj he
      exact exists_terms_of_poly? hnext hq
    · exact ⟨hnext, fun q'' he => by cases he⟩
  · exact ⟨hnext, fun q'' he => by cases he⟩

end Reconstruction

end Cylindrical
