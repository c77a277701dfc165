import Mathlib
import Cylindrical.Proofs.Poly.ExactDivision

/-!
# Multiples with bounded leading exponents

Every monomial order is a well-order of the exponents that goes up along divisibility.  For a set `G`
of polynomials, `multiples o G S` are the sums of terms times members of `G` whose leading exponents
lie in `S`.  Without a bound they are the ideal of `G` (`mem_multiples_univ`); an exponent that occurs
in such a sum is bounded by the leading exponents of one of its multiples (`exists_of_mem_support`).
-/

noncomputable section

open MvPolynomial

namespace Cylindrical

/-! ## The order of exponents -/

namespace MonomialOrder

variable {o : MonomialOrder} {k l m n : ℕ →₀ ℕ}

theorem wellFounded_exponentLT (o : MonomialOrder) : WellFounded o.ExponentLT :=
  (Monomial.toFinsupp_surjective.wellFounded_iff compare_eq_lt_iff).1 o.wellFounded

theorem exponentLT_trichotomy (o : MonomialOrder) (m n : ℕ →₀ ℕ) :
    o.ExponentLT m n ∨ m = n ∨ o.ExponentLT n m := by
  obtain ⟨a, rfl⟩ := Monomial.toFinsupp_surjective m
  obtain ⟨b, rfl⟩ := Monomial.toFinsupp_surjective n
  cases h : o.compare a b with
  | lt => exact .inl (compare_eq_lt_iff.1 h)
  | eq => exact .inr (.inl (congrArg Monomial.toFinsupp (compare_eq_iff.1 h)))
  | gt => exact .inr (.inr (compare_eq_lt_iff.1 (compare_eq_gt_iff.1 h)))

theorem exponentLT_zero (o : MonomialOrder) (hm : m ≠ 0) : o.ExponentLT 0 m := by
  have hdegree : (0 : ℕ →₀ ℕ).degree < m.degree := by
    rw [map_zero]
    exact Nat.pos_of_ne_zero fun h => hm (m.degree_eq_zero_iff.1 h)
  cases o with
  | lex =>
    have hne : m.support.Nonempty := Finsupp.support_nonempty_iff.2 hm
    refine ⟨m.support.max' hne, ?_, fun w hw => ?_⟩
    · exact Nat.pos_of_ne_zero (Finsupp.mem_support_iff.1 (m.support.max'_mem hne))
    · exact (Finsupp.notMem_support_iff.1 fun h => (m.support.le_max' w h).not_gt hw).symm
  | grLex => exact .inl hdegree
  | gRevLex => exact .inl hdegree

/-- The exponents below `m`. -/
def below (o : MonomialOrder) (m : ℕ →₀ ℕ) : Set (ℕ →₀ ℕ) := {n | o.ExponentLT n m}

/-- The exponents up to `m`. -/
def upTo (o : MonomialOrder) (m : ℕ →₀ ℕ) : Set (ℕ →₀ ℕ) := {n | n = m ∨ o.ExponentLT n m}

theorem self_mem_upTo (o : MonomialOrder) (m : ℕ →₀ ℕ) : m ∈ o.upTo m := .inl rfl

theorem mem_upTo_of_le (h : l ≤ m) : l ∈ o.upTo m := by
  obtain ⟨k, rfl⟩ := exists_add_of_le h
  by_cases hk : k = 0
  · exact .inl (by rw [hk, add_zero])
  · have hlt := (o.exponentLT_zero hk).add_right l
    rw [zero_add, add_comm] at hlt
    exact .inr hlt

theorem upTo_trans (hk : k ∈ o.upTo l) (hl : l ∈ o.upTo m) : k ∈ o.upTo m := by
  rcases hk with rfl | hk
  · exact hl
  · rcases hl with rfl | hl
    · exact .inr hk
    · exact .inr (hk.trans hl)

theorem below_of_upTo (hk : k ∈ o.upTo l) (hl : l ∈ o.below m) : k ∈ o.below m := by
  rcases hk with rfl | hk
  · exact hl
  · exact hk.trans hl

theorem eq_of_upTo (hm : m ∈ o.upTo n) (hn : n ∈ o.upTo m) : m = n := by
  rcases hm with rfl | hm
  · rfl
  · rcases hn with rfl | hn
    · rfl
    · exact absurd (hm.trans hn) (ExponentLT.irrefl o m)

theorem add_mem_below (k : ℕ →₀ ℕ) (h : l ∈ o.below m) : k + l ∈ o.below (k + m) := by
  rw [add_comm k l, add_comm k m]
  exact ExponentLT.add_right h k

theorem add_mem_upTo (k : ℕ →₀ ℕ) (h : l ∈ o.upTo m) : k + l ∈ o.upTo (k + m) := by
  rcases h with rfl | h
  · exact .inl rfl
  · exact .inr (add_mem_below k h)

theorem below_subset_upTo (o : MonomialOrder) (m : ℕ →₀ ℕ) : o.below m ⊆ o.upTo m := fun _ => .inr

theorem upTo_total (o : MonomialOrder) (m n : ℕ →₀ ℕ) : m ∈ o.upTo n ∨ n ∈ o.upTo m := by
  rcases o.exponentLT_trichotomy m n with h | h | h
  · exact .inl (.inr h)
  · exact .inl (.inl h)
  · exact .inr (.inr h)

end MonomialOrder

namespace Leads

variable {o : MonomialOrder} {P Q : MvPolynomial ℕ ℚ} {m : ℕ →₀ ℕ} {c : ℚ}

theorem monomial (m : ℕ →₀ ℕ) (hc : c ≠ 0) : Leads o (MvPolynomial.monomial m c) m c where
  coeff := by rw [coeff_monomial, if_pos rfl]
  ne_zero := hc
  below n hn := .inl (Finset.mem_singleton.1 (support_monomial_subset hn))

/-- Equal leading terms cancel. -/
theorem sub_below (hP : Leads o P m c) (hQ : Leads o Q m c) :
    ∀ n ∈ (P - Q).support, n ∈ o.below m := fun n hn => by
  have hne : n ≠ m := fun he => by
    rw [he, mem_support_iff, coeff_sub, hP.coeff, hQ.coeff, sub_self] at hn
    exact hn rfl
  rcases Finset.mem_union.1 (support_sub _ P Q hn) with hn | hn
  · exact (hP.below n hn).resolve_left hne
  · exact (hQ.below n hn).resolve_left hne

end Leads

open Cylindrical.MonomialOrder

/-! ## Sums of multiples -/

variable {o : MonomialOrder} {G G' : Set (MvPolynomial ℕ ℚ)} {S T : Set (ℕ →₀ ℕ)}
  {P f g : MvPolynomial ℕ ℚ} {k l m n : ℕ →₀ ℕ} {c d : ℚ}

/-- Sums of terms times members of `G` whose leading exponents lie in `S`. -/
def multiples (o : MonomialOrder) (G : Set (MvPolynomial ℕ ℚ)) (S : Set (ℕ →₀ ℕ)) :
    Submodule ℚ (MvPolynomial ℕ ℚ) :=
  .span ℚ {P | ∃ g ∈ G, ∃ k l d, Leads o g l d ∧ k + l ∈ S ∧ P = monomial k 1 * g}

theorem monomial_mul_eq_smul (k : ℕ →₀ ℕ) (c : ℚ) (P : MvPolynomial ℕ ℚ) :
    monomial k c * P = c • (monomial k 1 * P) := by
  rw [← smul_mul_assoc, smul_monomial, smul_eq_mul, mul_one]

theorem multiples_mono (hG : G ⊆ G') (hS : S ⊆ T) : multiples o G S ≤ multiples o G' T := by
  refine Submodule.span_mono ?_
  rintro P ⟨g, hg, k, l, d, hl, hS', rfl⟩
  exact ⟨g, hG hg, k, l, d, hl, hS hS', rfl⟩

theorem monomial_mul_mem_multiples (hg : g ∈ G) (hl : Leads o g l d) (hS : k + l ∈ S) (c : ℚ) :
    monomial k c * g ∈ multiples o G S := by
  rw [monomial_mul_eq_smul]
  exact (multiples o G S).smul_mem c (Submodule.subset_span ⟨g, hg, k, l, d, hl, hS, rfl⟩)

/-- Multiples of one member, term by term. -/
theorem mul_mem_multiples (hg : g ∈ G) (hl : Leads o g l d) (hS : ∀ n ∈ P.support, n + l ∈ S) :
    P * g ∈ multiples o G S := by
  rw [← P.support_sum_monomial_coeff, Finset.sum_mul]
  exact Submodule.sum_mem _ fun n hn => monomial_mul_mem_multiples hg hl (hS n hn) _

/-- A term times a sum of multiples. -/
theorem monomial_mul_mem_of_mem (hST : ∀ s ∈ S, n + s ∈ T) (c : ℚ) (h : P ∈ multiples o G S) :
    monomial n c * P ∈ multiples o G T := by
  refine Submodule.span_induction (p := fun P _ => monomial n c * P ∈ multiples o G T)
    ?_ ?_ (fun P Q _ _ hP hQ => ?_) (fun a P _ hP => ?_) h
  · rintro P ⟨g, hg, k, l, d, hl, hS, rfl⟩
    rw [← mul_assoc, monomial_mul, mul_one]
    exact monomial_mul_mem_multiples hg hl (by rw [add_assoc]; exact hST _ hS) c
  · rw [mul_zero]
    exact Submodule.zero_mem _
  · rw [mul_add]
    exact Submodule.add_mem _ hP hQ
  · rw [mul_smul_comm]
    exact Submodule.smul_mem _ a hP

/-- Exponents that occur are bounded by the leading exponents of one of the multiples. -/
theorem exists_of_mem_support (h : P ∈ multiples o G S) (hn : n ∈ P.support) :
    ∃ g ∈ G, ∃ k l d, Leads o g l d ∧ k + l ∈ S ∧ n ∈ o.upTo (k + l) := by
  rw [mem_support_iff] at hn
  refine Submodule.span_induction (p := fun P _ => P.coeff n ≠ 0 →
      ∃ g ∈ G, ∃ k l d, Leads o g l d ∧ k + l ∈ S ∧ n ∈ o.upTo (k + l))
    ?_ ?_ (fun P Q _ _ hP hQ => ?_) (fun a P _ hP => ?_) h hn
  · rintro P ⟨g, hg, k, l, d, hl, hS, rfl⟩ hn
    refine ⟨g, hg, k, l, d, hl, hS, ?_⟩
    rw [coeff_monomial_mul', one_mul] at hn
    split_ifs at hn with hk
    · obtain ⟨e, rfl⟩ := exists_add_of_le hk
      rw [add_tsub_cancel_left, ← mem_support_iff] at hn
      exact add_mem_upTo k (hl.below e hn)
    · exact absurd rfl hn
  · intro h0
    exact absurd (coeff_zero n) h0
  · intro hPQ
    rw [coeff_add] at hPQ
    by_cases hP0 : P.coeff n = 0
    · exact hQ fun hQ0 => hPQ (by rw [hP0, hQ0, add_zero])
    · exact hP hP0
  · intro hP0
    rw [coeff_smul] at hP0
    exact hP (right_ne_zero_of_mul hP0)

theorem mem_upTo_of_mem_support (h : P ∈ multiples o G (o.upTo m)) (hn : n ∈ P.support) :
    n ∈ o.upTo m := by
  obtain ⟨-, -, k, l, -, -, hS, hn⟩ := exists_of_mem_support h hn
  exact upTo_trans hn hS

/-- The ideal of `G` consists of the sums of multiples. -/
theorem mem_multiples_univ (hG : ∀ g ∈ G, g ≠ 0) (h : P ∈ Ideal.span G) :
    P ∈ multiples o G Set.univ := by
  refine Submodule.span_induction (p := fun P _ => P ∈ multiples o G Set.univ)
    (fun g hg => ?_) (Submodule.zero_mem _) (fun _ _ _ _ => Submodule.add_mem _)
    (fun Q P _ hP => ?_) h
  · obtain ⟨m, d, hm⟩ := exists_leads o (hG g hg)
    have := monomial_mul_mem_multiples (k := 0) hg hm (Set.mem_univ _) 1
    rwa [monomial_zero', C_1, one_mul] at this
  · rw [smul_eq_mul, ← Q.support_sum_monomial_coeff, Finset.sum_mul]
    exact Submodule.sum_mem _ fun n _ =>
      monomial_mul_mem_of_mem (fun _ _ => Set.mem_univ _) _ hP

/-- The leading exponents of finitely many multiples have a largest one. -/
theorem exists_mem_multiples_upTo (h : P ∈ multiples o G S) :
    P = 0 ∨ ∃ n ∈ S, P ∈ multiples o G (o.upTo n) := by
  refine Submodule.span_induction (p := fun P _ => P = 0 ∨ ∃ n ∈ S, P ∈ multiples o G (o.upTo n))
    ?_ (.inl rfl) (fun P Q _ _ hP hQ => ?_) (fun a P _ hP => ?_) h
  · rintro P ⟨g, hg, k, l, d, hl, hS, rfl⟩
    exact .inr ⟨k + l, hS, monomial_mul_mem_multiples hg hl (self_mem_upTo o _) 1⟩
  · rcases hP with rfl | ⟨m, hm, hP⟩
    · rwa [zero_add]
    rcases hQ with rfl | ⟨n, hn, hQ⟩
    · rw [add_zero]
      exact .inr ⟨m, hm, hP⟩
    have hmono : ∀ {k l}, k ∈ o.upTo l → multiples o G (o.upTo k) ≤ multiples o G (o.upTo l) :=
      fun hkl => multiples_mono subset_rfl fun _ h => upTo_trans h hkl
    rcases o.upTo_total m n with hmn | hnm
    · exact .inr ⟨n, hn, Submodule.add_mem _ (hmono hmn hP) hQ⟩
    · exact .inr ⟨m, hm, Submodule.add_mem _ hP (hmono hnm hQ)⟩
  · rcases hP with rfl | ⟨n, hn, hP⟩
    · exact .inl (smul_zero a)
    · exact .inr ⟨n, hn, Submodule.smul_mem _ a hP⟩

end Cylindrical

end
