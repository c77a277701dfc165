import Mathlib
import Cylindrical.Proofs.Poly.SquareFreeDecomposition

/-!
# Factorization in full

Every polynomial is factored.  All factors of one level divide one square-free polynomial, and those of
different levels are coprime, so that the product of all factors that are found is square-free and no
two of them are ever merged (`returns_factorsUpTo`).  Each factor then occurs in the polynomial exactly
as often as it is listed, and as products of normal forms are normal forms, the constant makes up for
all the rest (`factor_complete`).
-/

noncomputable section

open MvPolynomial

namespace Cylindrical

namespace Poly

variable {s : Finset ℕ} {v m : ℕ} {p : Poly} {P Q : MvPolynomial ℕ ℚ}

/-! ## Lists with a square-free product -/

theorem DistinctFactors.mono {K : Poly → Prop} {fs : List (Poly × ℕ)} (h : DistinctFactors K P fs)
    (hPQ : P ∣ Q) : DistinctFactors K Q fs :=
  ⟨h.forall_mem, h.squarefree, h.dvd.trans hPQ⟩

/-- Factors of polynomials that have none in common are distinct. -/
theorem squarefree_product_mul {K L : Poly → Prop} {fs gs : List (Poly × ℕ)}
    (hfs : DistinctFactors K P fs) (hgs : DistinctFactors L Q gs) (h : IsRelPrime P Q) :
    Squarefree (product (fs.map Prod.fst) * product (gs.map Prod.fst)) :=
  squarefree_mul_iff.2
    ⟨(h.of_dvd_left hfs.dvd).of_dvd_right hgs.dvd, hfs.squarefree, hgs.squarefree⟩

/-- A factor that is coprime to all the others is added at the end. -/
theorem insertFactor_eq_append {f : Poly} {fs : List (Poly × ℕ)} (hf : Splittable f)
    (hsq : Squarefree (product (fs.map Prod.fst) * f.toMv)) :
    insertFactor f m fs = fs ++ [(f, m)] := by
  induction fs with
  | nil =>
    rw [insertFactor, hf.isNumber]
    rfl
  | cons g fs ih =>
    rw [List.map_cons, product_cons, mul_assoc] at hsq
    obtain ⟨hrel, -, hfs⟩ := squarefree_mul_iff.1 hsq
    have hne : ¬g.1.sameTerms f = true := fun h => by
      rw [toMv_eq_of_sameTerms h] at hrel
      exact hf.not_isUnit (hrel dvd_rfl (dvd_mul_left _ _))
    rw [insertFactor, hf.isNumber, if_neg Bool.false_ne_true, if_neg hne, ih hfs, List.cons_append]

theorem insertFactors_eq_append {gs : List Poly} {fs : List (Poly × ℕ)}
    (hgs : ∀ g ∈ gs, Splittable g)
    (hsq : Squarefree (product (fs.map Prod.fst) * product gs)) :
    gs.foldl (fun fs g => insertFactor g m fs) fs = fs ++ gs.map fun g => (g, m) := by
  induction gs generalizing fs with
  | nil => exact (List.append_nil fs).symm
  | cons g gs ih =>
    obtain ⟨hg, hgs⟩ := List.forall_mem_cons.1 hgs
    rw [product_cons, ← mul_assoc] at hsq
    rw [List.foldl_cons, insertFactor_eq_append hg (squarefree_mul_iff.1 hsq).2.1, ih hgs,
      List.append_assoc, List.map_cons, List.singleton_append]
    rwa [List.map_append, product_append, List.map_singleton, product_cons, product_nil, mul_one]

/-! ## Splitting -/

theorem Splittable.canonicalIn {f : Poly} (hf : Splittable f) : CanonicalIn f.toMv.vars f :=
  ⟨⟨hf.order, subset_rfl⟩, hf.leadsPositive⟩

/-- Splitting the parts of a polynomial adds factors to a list that is coprime to it. -/
theorem returns_splitFactors {parts fs : List (Poly × ℕ)} (hfs : ∀ f ∈ fs, FullySplit f.1)
    (hparts : ∀ f ∈ parts, Splittable f.1)
    (hsq : Squarefree (product (fs.map Prod.fst) * product (parts.map Prod.fst))) :
    Returns (parts.foldlM (fun fs (f, m) => do
      return (← f.splitLinear).foldl (fun fs g => insertFactor g m fs) fs) fs : Algebra _)
      (DistinctFactors FullySplit (product (fs.map Prod.fst) * product (parts.map Prod.fst))) := by
  induction parts generalizing fs with
  | nil =>
    rw [List.map_nil, product_nil, mul_one] at hsq ⊢
    exact .ok ⟨hfs, hsq, dvd_rfl⟩
  | cons f parts ih =>
    obtain ⟨hf, hparts⟩ := List.forall_mem_cons.1 hparts
    rw [List.map_cons, product_cons] at hsq ⊢
    have hfsq : Squarefree f.1.toMv := hsq.squarefree_of_dvd ((dvd_mul_right _ _).mul_left _)
    obtain ⟨ls, hls, hall⟩ := returns_splitLinear hf hfsq
    obtain ⟨-, hassoc⟩ := splitLinear_spec hf.canonicalIn hls
    have happend := insertFactors_eq_append (m := f.2) (fun g hg => (hall g hg).toSplittable)
      (hsq.squarefree_of_dvd (mul_dvd_mul_left _ (hassoc.symm.dvd.mul_right _)))
    have hdvd : product ((fs ++ ls.map fun g => (g, f.2)).map Prod.fst) * product (parts.map Prod.fst) ∣
        product (fs.map Prod.fst) * (f.1.toMv * product (parts.map Prod.fst)) := by
      rw [List.map_append, List.map_map, product_append, mul_assoc]
      exact mul_dvd_mul_left _ (mul_dvd_mul_right ((List.map_id ls).symm ▸ hassoc.symm.dvd) _)
    rw [List.foldlM_cons]
    simp only [hls]
    change Returns (parts.foldlM _ (ls.foldl (fun fs g => insertFactor g f.2 fs) fs)) _
    rw [happend]
    refine (ih ?_ hparts (hsq.squarefree_of_dvd hdvd)).mono fun out hout => hout.mono hdvd
    exact List.forall_mem_append.2 ⟨hfs, List.forall_mem_map.2 hall⟩

/-! ## All levels -/

/-- All of a nonzero polynomial is split into distinct factors. -/
theorem returns_factorsUpTo {n : ℕ} (hp : GradedIn s p) (hp0 : p.toMv ≠ 0) (hn : s.card < n) :
    Returns (factorsUpTo n p) (DistinctFactors FullySplit p.toMv) := by
  induction n generalizing s p with
  | zero => omega
  | succ n ih =>
    rw [factorsUpTo]
    cases hv : p.mainVar? with
    | none => exact .ok (.nil _ _)
    | some v =>
      have hvs : v ∈ s := hp.vars (mem_vars_of_mainVar? hv)
      have hins : insert v (s.erase v) = s := Finset.insert_erase hvs
      have hp := hins.symm ▸ hp
      obtain ⟨c, hc, -⟩ := (totalGcd_gcd (s.erase v)).returns_contentBy hp.orderedIn
      obtain ⟨q, hq, -⟩ := (totalGcd_gcd (s.erase v)).returns_primitivePartBy hp.orderedIn
      obtain ⟨hcs, hqs, hprim, hassoc⟩ := contentIn_primitivePartIn_spec hp hp0 hc hq
      have h0 := hassoc.ne_zero_iff.1 hp0
      have hq0 := left_ne_zero_of_mul h0
      have hc0 := right_ne_zero_of_mul h0
      have hcard : (s.erase v).card < n := by
        rw [Finset.card_erase_of_mem hvs]
        have := Finset.card_pos.2 ⟨v, hvs⟩
        omega
      obtain ⟨lower, hlower, hl⟩ := ih hcs hc0 hcard
      obtain ⟨parts, hparts, hf⟩ := returns_squareFreeFactors hqs.order hq0 hprim
      -- the content has no factor in common with the primitive part
      have hrel : IsRelPrime c.toMv q.toMv :=
        (hprim c.toMv hc0 fun hv => Finset.notMem_erase v s (hcs.vars hv)).symm
      have hdvd : product (lower.map Prod.fst) * product (parts.map Prod.fst) ∣ p.toMv :=
        (mul_dvd_mul hl.dvd hf.dvd).trans ((mul_comm c.toMv _).symm ▸ hassoc.symm.dvd)
      refine .bind ⟨c, hc, rfl⟩ fun _ h => h ▸ .bind ⟨lower, hlower, rfl⟩ fun _ h => h ▸ ?_
      refine .bind ⟨q, hq, rfl⟩ fun _ h => h ▸ .bind ⟨parts, hparts, rfl⟩ fun _ h => h ▸ ?_
      exact (returns_splitFactors hl.forall_mem hf.forall_mem (squarefree_product_mul hl hf hrel)).mono
        fun fs hfs => hfs.mono hdvd

/-! ## Multiplicities -/

theorem powerProduct_append (fs gs : List (Poly × ℕ)) :
    powerProduct (fs ++ gs) = powerProduct fs * powerProduct gs := by
  rw [powerProduct, List.map_append, List.prod_append, powerProduct, powerProduct]

theorem isRelPrime_powerProduct {fs : List (Poly × ℕ)} (h : ∀ g ∈ fs, IsRelPrime P g.1.toMv) :
    IsRelPrime P (powerProduct fs) := by
  induction fs with
  | nil => exact isRelPrime_one_right
  | cons g fs ih =>
    obtain ⟨hg, hfs⟩ := List.forall_mem_cons.1 h
    rw [powerProduct_cons]
    exact hg.pow_right.mul_right (ih hfs)

theorem emultiplicity_pow_mul (h : IsRelPrime P Q) (h0 : P ≠ 0) (hu : ¬IsUnit P) (k : ℕ) :
    emultiplicity P (P ^ k * Q) = k := by
  rw [emultiplicity_eq_coe]
  refine ⟨dvd_mul_right _ _, fun hdvd => hu (h dvd_rfl ?_)⟩
  rw [pow_succ] at hdvd
  exact (mul_dvd_mul_iff_left (pow_ne_zero k h0)).1 hdvd

/-- In a product of powers of coprime factors, each has the exponent that is listed. -/
theorem emultiplicity_powerProduct {f : Poly × ℕ} {fs : List (Poly × ℕ)}
    (hpair : fs.Pairwise fun f g => IsRelPrime f.1.toMv g.1.toMv) (hf : f ∈ fs)
    (h0 : f.1.toMv ≠ 0) (hu : ¬IsUnit f.1.toMv) :
    emultiplicity f.1.toMv (powerProduct fs) = f.2 := by
  obtain ⟨ls, rs, rfl⟩ := List.append_of_mem hf
  obtain ⟨-, hrs, hls⟩ := List.pairwise_append.1 hpair
  have hrel : IsRelPrime f.1.toMv (powerProduct ls * powerProduct rs) :=
    (isRelPrime_powerProduct fun g hg => (hls g hg f (.head rs)).symm).mul_right
      (isRelPrime_powerProduct (List.pairwise_cons.1 hrs).1)
  rw [powerProduct_append, powerProduct_cons, mul_left_comm]
  exact emultiplicity_pow_mul hrel h0 hu f.2

/-! ## The constant -/

theorem associated_powerProduct {F : Factorization} (hp0 : p.toMv ≠ 0) (h : F.expand = p) :
    Associated p.toMv (powerProduct F.factors) := by
  have hp : p.toMv = C F.constant * powerProduct F.factors := by rw [← toMv_expand, h]
  rw [hp] at hp0 ⊢
  refine associated_unit_mul_left _ _ ((isUnit_iff_ne_zero.2 fun h0 => hp0 ?_).map C)
  rw [h0, C_0, zero_mul]

/-- A nonzero polynomial is its factorization, with distinct factors. -/
theorem returns_factor (ho : p.order = .grLex) (hp0 : p.toMv ≠ 0) : Returns p.factor fun F =>
    F.expand = p ∧ DistinctFactors FullySplit p.toMv F.factors := by
  have hgraded : GradedIn p.toMv.vars p := ⟨ho, subset_rfl⟩
  have hcanonical := hgraded.canonicalIn hp0
  have hc0 := hcanonical.positive.ne_zero
  have hcard := Nat.lt_succ_of_le (card_vars_le p)
  obtain ⟨fs, hfs, hd⟩ := returns_factorsUpTo hcanonical.toGradedIn hc0 hcard
  have hfact := isFactorization_factorsUpTo hcanonical.toGradedIn hc0 hcard hfs
  rw [factor, isZero_eq_false_iff.2 hp0, hfs]
  refine .ok ⟨eq_of_toMv_eq ((order_expand _).trans ho.symm) ?_,
    hd.mono (associated_canonical p).dvd⟩
  have heq : p.canonical.toMv = powerProduct fs :=
    eq_of_associated (IsCanonical.of_canonical ho hp0).coprimeCoefficients
      (coprimeCoefficients_powerProduct fun f hf => (hd.forall_mem f hf).toIsCanonical)
      hcanonical.positive (leadsPositive_powerProduct hfact.canonical) hfact.associated
  rw [toMv_expand, ← heq, ← toMv_canonical]

end Poly

end Cylindrical

end
