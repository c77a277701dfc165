import Mathlib
import Cylindrical.Proofs.Poly.LinearFactors
import Cylindrical.Proofs.Poly.Parts

/-!
# Square-free decomposition in full

The decomposition of a polynomial that has content in the other variables is that of its primitive part:
the content divides the derivative too, so it is in the greatest common divisor and nowhere else
(`LevelSet.start_of_content`).  The multiplicities only grow from step to step, and as products of normal
forms are normal forms, the powers of the factors give back the primitive part
(`squareFreeFactors_decomposition`).
-/

noncomputable section

open MvPolynomial

namespace Cylindrical

/-! ## Content -/

theorem pderiv_mul_of_notMem {v : ℕ} {k Q : MvPolynomial ℕ ℚ} (hk : v ∉ k.vars) :
    pderiv v (k * Q) = k * pderiv v Q := by
  rw [pderiv_mul, pderiv_eq_zero_of_notMem_vars hk, zero_mul, zero_add]

/-- The first level of a polynomial with the content `k`: what is left of the greatest common divisor
with the derivative is that of the primitive part. -/
theorem LevelSet.start_of_content {v : ℕ} {k P g b c : MvPolynomial ℕ ℚ} (hP : PrimitiveIn v P)
    (hP0 : P ≠ 0) (hk0 : k ≠ 0) (hk : v ∉ k.vars)
    (hg : ∀ e, e ∣ g ↔ e ∣ k * P ∧ e ∣ pderiv v (k * P)) (hb : k * P = b * g)
    (hc : pderiv v (k * P) = c * g) :
    ∃ s, g = k * s ∧ P = b * s ∧ LevelSet v b (c - pderiv v b) s := by
  rw [pderiv_mul_of_notMem hk] at hg hc
  obtain ⟨s, rfl⟩ := (hg k).2 ⟨dvd_mul_right k P, dvd_mul_right k _⟩
  have hPb : P = b * s := mul_left_cancel₀ hk0 (by rw [hb]; ring)
  have hPc : pderiv v P = c * s := mul_left_cancel₀ hk0 (by rw [hc]; ring)
  refine ⟨s, rfl, hPb, .start hP hP0 (fun e => ?_) hPb hPc⟩
  have hke := hg (k * e)
  rwa [mul_dvd_mul_iff_left hk0, mul_dvd_mul_iff_left hk0, mul_dvd_mul_iff_left hk0] at hke

namespace Poly

variable {v : ℕ} {p q : Poly} {k P Q : MvPolynomial ℕ ℚ} {fs : List (Poly × ℕ)}

/-! ## Lists with a square-free product -/

/-- Factors of a kind `K` whose product is square-free and divides a polynomial. -/
structure DistinctFactors (K : Poly → Prop) (P : MvPolynomial ℕ ℚ) (fs : List (Poly × ℕ)) :
    Prop where
  forall_mem : ∀ f ∈ fs, K f.1
  squarefree : Squarefree (product (fs.map Prod.fst))
  dvd : product (fs.map Prod.fst) ∣ P

theorem DistinctFactors.nil (K : Poly → Prop) (P : MvPolynomial ℕ ℚ) : DistinctFactors K P [] :=
  ⟨List.forall_mem_nil _, squarefree_one, one_dvd P⟩

/-- Factors of a square-free product are coprime. -/
theorem pairwise_isRelPrime_of_squarefree {fs : List Poly} (h : Squarefree (product fs)) :
    fs.Pairwise fun f g => IsRelPrime f.toMv g.toMv := by
  induction fs with
  | nil => exact .nil
  | cons f fs ih =>
    rw [product_cons] at h
    obtain ⟨hrel, -, hfs⟩ := squarefree_mul_iff.1 h
    exact .cons (fun g hg => hrel.of_dvd_right (dvd_product_of_mem hg)) (ih hfs)

/-! ## The steps -/

/-- The steps always end, and what they find are divisors of `b` whose product divides it too. -/
theorem returns_squareFreeSteps {steps i : ℕ} {b d : Poly} (hb : b.order = .grLex)
    (hb0 : b.toMv ≠ 0) (hd : d.order = .grLex) : Returns (squareFreeSteps v steps i b d) fun fs =>
      (∀ f ∈ fs, Splittable f.1) ∧ product (fs.map Prod.fst) ∣ b.toMv := by
  induction steps generalizing i b d with
  | zero => exact .ok ⟨List.forall_mem_nil _, one_dvd _⟩
  | succ steps ih =>
    rw [squareFreeSteps]
    split_ifs with hv
    · refine (returns_gcd hb hd).bind fun a hgcd => ?_
      obtain ⟨hao, ha⟩ := hgcd
      have ha0 := ha.ne_zero_of_left hb0
      obtain ⟨b', hb', hbo'⟩ := exists_exactQuotient hb ha0 ha.dvd_left
      obtain ⟨c, hc, hco⟩ := exists_exactQuotient hd ha0 ha.dvd_right
      have hbb := (toMv_of_exactQuotient hb').2
      rw [hb', hc]
      refine (ih hbo' (left_ne_zero_of_mul (hbb ▸ hb0)) (order_sub hco _)).bind fun later h => ?_
      obtain ⟨hlater, hdvd⟩ := h
      split_ifs with hav
      · have has := splittable_canonical hao ha0 (containsVar_iff.1 hav)
        refine .ok ⟨List.forall_mem_cons.2 ⟨has, hlater⟩, ?_⟩
        rw [List.map_cons, product_cons, hbb, mul_comm b'.toMv]
        exact mul_dvd_mul (associated_canonical a).dvd hdvd
      · exact .ok ⟨hlater, hdvd.trans ⟨_, hbb⟩⟩
    · exact .ok ⟨List.forall_mem_nil _, one_dvd _⟩

/-- The multiplicities that are listed start at the one of the first step and increase. -/
theorem increasing_squareFreeSteps {steps i : ℕ} {b d : Poly}
    (h : squareFreeSteps v steps i b d = .ok fs) :
    (∀ f ∈ fs, i ≤ f.2) ∧ fs.Pairwise fun f g => f.2 < g.2 := by
  induction steps generalizing i b d fs with
  | zero =>
    cases h
    exact ⟨List.forall_mem_nil _, .nil⟩
  | succ steps ih =>
    rw [squareFreeSteps] at h
    split_ifs at h
    · obtain ⟨a, -, h⟩ := bind_eq_ok h
      obtain ⟨b', -, h⟩ := bind_eq_ok h
      obtain ⟨c, -, h⟩ := bind_eq_ok h
      obtain ⟨later, hlater, h⟩ := bind_eq_ok h
      obtain ⟨hle, hpair⟩ := ih hlater
      split_ifs at h
      · cases h
        exact ⟨List.forall_mem_cons.2 ⟨le_rfl, fun f hf => Nat.le_of_succ_le (hle f hf)⟩,
          .cons hle hpair⟩
      · cases h
        exact ⟨fun f hf => Nat.le_of_succ_le (hle f hf), hpair⟩
    · cases h
      exact ⟨List.forall_mem_nil _, .nil⟩

/-- What the decomposition finds of a polynomial `P`. -/
structure IsDecomposition (s : Finset ℕ) (P : MvPolynomial ℕ ℚ) (fs : List (Poly × ℕ)) : Prop where
  isFactorization : IsFactorization s P fs
  distinct : DistinctFactors Splittable P fs
  increasing : fs.Pairwise fun f g => f.2 < g.2

/-- A polynomial that is square-free up to a constant is its only factor. -/
theorem isDecomposition_canonical (ho : p.order = .grLex) (hp0 : p.toMv ≠ 0)
    (hv : v ∈ p.toMv.vars) (hassoc : Associated p.toMv Q) (hQ : Squarefree Q) :
    IsDecomposition p.toMv.vars Q [(p.canonical, 1)] := by
  have hcanonical : CanonicalIn p.toMv.vars p.canonical :=
    GradedIn.canonicalIn ⟨ho, subset_rfl⟩ hp0
  have hcQ : Associated p.canonical.toMv Q := (associated_canonical p).trans hassoc
  have hproduct : product [p.canonical] = p.canonical.toMv := by
    rw [product_cons, product_nil, mul_one]
  refine ⟨⟨List.forall_mem_singleton.2 hcanonical, List.forall_mem_singleton.2 one_ne_zero, ?_⟩,
    ⟨List.forall_mem_singleton.2 (splittable_canonical ho hp0 hv), ?_, ?_⟩,
    List.pairwise_singleton _ _⟩
  · rw [powerProduct_cons, powerProduct_nil, pow_one, mul_one]
    exact hcQ.symm
  · exact hproduct ▸ hQ.squarefree_of_dvd hcQ.dvd
  · exact hproduct ▸ hcQ.dvd

/-- The steps from the first level on find the decomposition of what is at this level. -/
theorem returns_squareFreeSteps_of_levelSet {s : Finset ℕ} {steps : ℕ} {b d : Poly}
    (hb : GradedIn s b) (hd : d.order = .grLex) (hl : LevelSet v b.toMv d.toMv P)
    (hsteps : v ∈ b.toMv.vars → MvPolynomial.degreeOf v P < steps) :
    Returns (squareFreeSteps v steps 1 b d) (IsDecomposition s (b.toMv * P)) := by
  obtain ⟨fs, hfs, hsplit, hdvd⟩ : Returns (squareFreeSteps v steps 1 b d) _ :=
    returns_squareFreeSteps hb.order hl.base_ne_zero hd
  have hfact := isFactorization_squareFreeSteps one_ne_zero hb hd hl hsteps hfs
  rw [pow_one] at hfact
  exact ⟨fs, hfs, hfact, ⟨hsplit, hl.squarefree.squarefree_of_dvd hdvd, hdvd.mul_right P⟩,
    (increasing_squareFreeSteps hfs).2⟩

/-- The decomposition of a multiple of a primitive polynomial by a polynomial without the variable is
that of the primitive one. -/
theorem returns_squareFreeFactors_of_content (ho : p.order = .grLex) (hp0 : p.toMv ≠ 0)
    (hv : v ∈ p.toMv.vars) (hQ : PrimitiveIn v Q) (hk : v ∉ k.vars) (hpk : p.toMv = k * Q) :
    Returns (squareFreeFactors v p) (IsDecomposition p.toMv.vars Q) := by
  have hk0 : k ≠ 0 := left_ne_zero_of_mul (hpk ▸ hp0)
  have hQ0 : Q ≠ 0 := right_ne_zero_of_mul (hpk ▸ hp0)
  rw [squareFreeFactors, if_pos (containsVar_iff.2 hv)]
  refine (returns_gcd ho (order_derivative ho)).bind fun g hgcd => ?_
  have hg := hgcd.2
  have hg0 := hg.ne_zero_of_left hp0
  obtain ⟨b, hb, hbo⟩ := exists_exactQuotient ho hg0 hg.dvd_left
  obtain ⟨c, hc, hco⟩ := exists_exactQuotient (order_derivative ho) hg0 hg.dvd_right
  have hpb := (toMv_of_exactQuotient hb).2
  have hpc := (toMv_of_exactQuotient hc).2
  rw [IsGcd, toMv_derivative] at hg
  rw [toMv_derivative] at hpc
  rw [hpk] at hg hpb hpc
  obtain ⟨t, hgt, hQb, hl⟩ := LevelSet.start_of_content hQ hQ0 hk0 hk hg hpb hpc
  split_ifs with hn
  · have hgu := (isUnit_iff_isNumber hg0).2 hn
    rw [hgt] at hgu
    obtain ⟨hku, htu⟩ := IsUnit.mul_iff.1 hgu
    refine .ok (isDecomposition_canonical ho hp0 hv (hpk ▸ associated_unit_mul_left _ _ hku) ?_)
    rw [hQb]
    exact hl.squarefree.squarefree_of_dvd (associated_mul_unit_left _ _ htu).dvd
  · rw [hb, hc]
    have hbp : b.toMv ∣ p.toMv := ⟨g.toMv, hpk.trans hpb⟩
    have hsteps : v ∈ b.toMv.vars → t.degreeOf v < p.degreeOf v := fun hbv => by
      have := mem_vars_iff_degreeOf_ne_zero.1 hbv
      rw [degreeOf_eq, hpk, degreeOf_mul_eq hk0 hQ0, hQb,
        degreeOf_mul_eq hl.base_ne_zero hl.ne_zero]
      omega
    rw [hQb]
    exact returns_squareFreeSteps_of_levelSet ⟨hbo, vars_subset_of_dvd hp0 hbp⟩ (order_sub hco _)
      (by rwa [toMv_sub, toMv_derivative]) hsteps

theorem returns_squareFreeFactors (ho : p.order = .grLex) (hp0 : p.toMv ≠ 0)
    (hprim : PrimitiveIn v p.toMv) :
    Returns (squareFreeFactors v p) (DistinctFactors Splittable p.toMv) := by
  by_cases hv : v ∈ p.toMv.vars
  · have hone : v ∉ (1 : MvPolynomial ℕ ℚ).vars := by simp
    exact (returns_squareFreeFactors_of_content ho hp0 hv hprim hone (one_mul _).symm).mono
      fun _ h => h.distinct
  · rw [squareFreeFactors, if_neg (mt containsVar_iff.1 hv)]
    exact .ok (.nil _ _)

/-! ## Products of powers -/

theorem toMv_expand (F : Factorization) :
    F.expand.toMv = C F.constant * powerProduct F.factors := by
  have hfold : ∀ (fs : List (Poly × ℕ)) (acc : Poly),
      (fs.foldl (fun acc g => acc * g.1.pow g.2) acc).toMv = acc.toMv * powerProduct fs := by
    intro fs
    induction fs with
    | nil => simp
    | cons g fs ih =>
      intro acc
      rw [List.foldl_cons, ih, toMv_mul, toMv_pow, powerProduct_cons, mul_assoc]
  rw [Factorization.expand, hfold, toMv_const]

theorem order_expand (F : Factorization) : F.expand.order = .grLex :=
  List.foldlRecOn (motive := fun acc : Poly => acc.order = .grLex) F.factors _ rfl
    fun _ hacc _ _ => order_mul hacc _

/-- Products of powers of normal forms have coprime integer coefficients. -/
theorem coprimeCoefficients_powerProduct {fs : List (Poly × ℕ)} (h : ∀ f ∈ fs, IsCanonical f.1) :
    CoprimeCoefficients (powerProduct fs) := by
  induction fs with
  | nil => exact .one
  | cons f fs ih =>
    obtain ⟨hf, hfs⟩ := List.forall_mem_cons.1 h
    rw [powerProduct_cons]
    exact (hf.coprimeCoefficients.pow f.2).mul (ih hfs)

/-! ## The decomposition -/

/-- A factor of a polynomial that is primitive in a variable contains it. -/
theorem IsDecomposition.degreeOf_pos {s : Finset ℕ} {P : MvPolynomial ℕ ℚ}
    (h : IsDecomposition s P fs) (hP : PrimitiveIn v P) {f : Poly × ℕ} (hf : f ∈ fs) :
    0 < f.1.degreeOf v := by
  have hsplit := h.distinct.forall_mem f hf
  have hdvd : f.1.toMv ∣ P :=
    (dvd_product_of_mem (List.mem_map_of_mem hf)).trans h.distinct.dvd
  rw [degreeOf_eq, Nat.pos_iff_ne_zero]
  refine mem_vars_iff_degreeOf_ne_zero.1 (by_contra fun hv => hsplit.not_isUnit ?_)
  exact (hP.of_dvd hdvd).isUnit_of_notMem hsplit.ne_zero hv

/-- The powers of the factors give back a primitive part: both are in normal form. -/
theorem IsDecomposition.expand_eq {s : Finset ℕ} (h : IsDecomposition s q.toMv fs)
    (hq : IsCanonical q) : (⟨1, fs⟩ : Factorization).expand = q := by
  refine eq_of_toMv_eq ((order_expand _).trans hq.order.symm) ?_
  rw [toMv_expand, C_1, one_mul]
  exact (eq_of_associated hq.coprimeCoefficients
    (coprimeCoefficients_powerProduct fun f hf => (h.distinct.forall_mem f hf).toIsCanonical)
    hq.leadsPositive (leadsPositive_powerProduct h.isFactorization.canonical)
    h.isFactorization.associated).symm

end Poly

end Cylindrical

end
