import Mathlib
import Cylindrical.Proofs.Poly.Canonical
import Cylindrical.Proofs.Poly.SquareFree
import Cylindrical.Proofs.Univariate.Denotation

/-!
# Factorization

The factors with their multiplicities give back the polynomial, with a constant of the sign of the
one that was found (`factor_spec`).  Whether the rational roots are complete does not matter: what
is not split stays one factor.
-/

noncomputable section

open MvPolynomial

namespace Cylindrical

namespace Poly

variable {s : Finset ℕ} {v : ℕ} {p : Poly}

/-! ## Linear factors -/

/-- The product of a list. -/
def product (fs : List Poly) : MvPolynomial ℕ ℚ := (fs.map toMv).prod

@[simp] theorem product_nil : product [] = 1 := rfl

@[simp] theorem product_cons (f : Poly) (fs : List Poly) :
    product (f :: fs) = f.toMv * product fs := by
  rw [product, List.map_cons, List.prod_cons, product]

@[simp] theorem product_append (fs gs : List Poly) :
    product (fs ++ gs) = product fs * product gs := by
  rw [product, List.map_append, List.prod_append, product, product]

theorem splitRoots_spec {rest r : Poly} {xs : List ℚ} {fs : List Poly} (hrest : GradedIn s rest)
    (hrest0 : rest.toMv ≠ 0) (h : splitRoots v rest xs = .ok (fs, r)) :
    (∀ f ∈ fs, CanonicalIn s f) ∧ GradedIn s r ∧ Associated rest.toMv (product fs * r.toMv) := by
  induction xs generalizing rest r fs with
  | nil =>
    cases h
    exact ⟨nofun, hrest, by rw [product_nil, one_mul]⟩
  | cons x xs ih =>
    obtain ⟨q, hq, h⟩ := bind_eq_ok h
    obtain ⟨⟨gs, t⟩, hgs, h⟩ := bind_eq_ok h
    cases h
    obtain ⟨hx0, hmul⟩ := toMv_of_exactQuotient hq
    have hx : GradedIn s (linearFactor v x) :=
      ⟨rfl, (vars_subset_of_dvd hrest0 ⟨_, hmul.trans (mul_comm _ _)⟩).trans hrest.vars⟩
    obtain ⟨hcanonical, hr, hassoc⟩ := ih
      ⟨order_exactQuotient hrest.order hq, (vars_subset_of_dvd hrest0 ⟨_, hmul⟩).trans hrest.vars⟩
      (left_ne_zero_of_mul (hmul ▸ hrest0)) hgs
    refine ⟨List.forall_mem_cons.2 ⟨hx.canonicalIn hx0, hcanonical⟩, hr, ?_⟩
    rw [hmul, product_cons, mul_comm, mul_assoc]
    exact (associated_canonical _).symm.mul_mul hassoc

theorem canonicalIn_var (hv : v ∈ s) : CanonicalIn s (var v) where
  order := rfl
  vars := by
    rw [toMv_var, vars_X]
    exact Finset.singleton_subset_iff.2 hv
  positive := ⟨Finsupp.single v 1, 1, one_pos, by rw [toMv_var, coeff_X, if_pos rfl], one_ne_zero, fun n hn => by
    rw [toMv_var, support_X, Finset.mem_singleton] at hn
    exact .inl hn⟩

/-- The end of the splitting of a polynomial in `v` alone, when some factors have been split off. -/
theorem splitRest_spec {rest r : Poly} {xs : List ℚ} {zs gs : List Poly} (hp : p.toMv ≠ 0)
    (hv : ∀ w ∈ p.toMv.vars, w = v) (hzs : ∀ f ∈ zs, CanonicalIn s f) (hrest : GradedIn s rest)
    (hmul : Associated p.toMv (product zs * rest.toMv))
    (h : splitRoots v rest xs = .ok (gs, r)) :
    (∀ f ∈ if r.containsVar v then zs ++ gs ++ [r.canonical] else zs ++ gs, CanonicalIn s f) ∧
      Associated p.toMv
        (product (if r.containsVar v then zs ++ gs ++ [r.canonical] else zs ++ gs)) := by
  obtain ⟨hgs, hr, hassoc⟩ :=
    splitRoots_spec hrest (right_ne_zero_of_mul (hmul.ne_zero_iff.1 hp)) h
  have hall : ∀ f ∈ zs ++ gs, CanonicalIn s f := List.forall_mem_append.2 ⟨hzs, hgs⟩
  have hprod : Associated p.toMv (product (zs ++ gs) * r.toMv) := by
    rw [product_append, mul_assoc]
    exact hmul.trans (hassoc.mul_left _)
  have hr0 : r.toMv ≠ 0 := right_ne_zero_of_mul (hprod.ne_zero_iff.1 hp)
  split_ifs with hrv
  · refine ⟨List.forall_mem_append.2 ⟨hall, List.forall_mem_singleton.2 (hr.canonicalIn hr0)⟩, ?_⟩
    rw [product_append, product_cons, product_nil, mul_one]
    exact hprod.trans ((associated_canonical r).symm.mul_left _)
  · refine ⟨hall, hprod.trans (associated_mul_unit_left _ _ ?_)⟩
    refine isUnit_toMv_of_mainVar? (mainVar?_eq_none_iff.2 (isNumber_iff_vars.2 ?_)) hr0
    refine Finset.eq_empty_of_forall_notMem fun w hw => hrv (containsVar_iff.2 ?_)
    rwa [← hv w (vars_subset_of_dvd hp ((dvd_mul_left _ _).trans hprod.symm.dvd) hw)]

theorem splitLinear_spec {fs : List Poly} (hp : CanonicalIn s p) (h : p.splitLinear = .ok fs) :
    (∀ f ∈ fs, CanonicalIn s f) ∧ Associated p.toMv (product fs) := by
  have hp0 := hp.positive.ne_zero
  have hcanonical : CanonicalIn s p.canonical := hp.toGradedIn.canonicalIn hp0
  have hsingle : Associated p.toMv (product [p.canonical]) := by
    rw [product_cons, product_nil, mul_one]
    exact (associated_canonical p).symm
  rw [splitLinear] at h
  split at h
  · cases h
    exact ⟨List.forall_mem_singleton.2 hcanonical, hsingle⟩
  · rename_i v hv
    split at h
    · cases h
      refine ⟨List.forall_mem_singleton.2 hp, ?_⟩
      rw [product_cons, product_nil, mul_one]
    · rename_i cs hcs
      have hvars : ∀ w ∈ p.toMv.vars, w = v := fun _ => mem_vars_of_univariate? hcs
      split_ifs at h
      · cases h
        exact ⟨List.forall_mem_singleton.2 hcanonical, hsingle⟩
      dsimp only at h
      split_ifs at h
      -- the root zero is split off first
      · obtain ⟨rest, hrest, h⟩ := bind_eq_ok h
        obtain ⟨⟨gs, r⟩, hgs, h⟩ := bind_eq_ok h
        obtain rfl := Except.ok.inj h
        have hmul := (toMv_of_exactQuotient hrest).2
        have hrests : GradedIn s rest := ⟨order_exactQuotient hcanonical.order hrest,
          (vars_subset_of_dvd hcanonical.positive.ne_zero ⟨_, hmul⟩).trans hcanonical.vars⟩
        refine splitRest_spec hp0 hvars (List.forall_mem_singleton.2
          (canonicalIn_var (hp.vars (mem_vars_of_mainVar? hv)))) hrests ?_ hgs
        rw [product_cons, product_nil, mul_one, mul_comm, ← hmul]
        exact (associated_canonical p).symm
      · change (splitRoots v p.canonical _ >>= _) = _ at h
        obtain ⟨⟨gs, r⟩, hgs, h⟩ := bind_eq_ok h
        obtain rfl := Except.ok.inj h
        refine splitRest_spec hp0 hvars (List.forall_mem_nil _) hcanonical.toGradedIn ?_ hgs
        rw [product_nil, one_mul]
        exact (associated_canonical p).symm

/-! ## Factors with multiplicities -/

theorem IsFactorization.mono {P : MvPolynomial ℕ ℚ} {t : Finset ℕ} {fs : List (Poly × ℕ)}
    (h : IsFactorization s P fs) (hst : s ⊆ t) : IsFactorization t P fs :=
  ⟨fun f hf => (h.canonical f hf).mono hst, h.multiplicity, h.associated⟩

theorem IsFactorization.of_associated {P Q : MvPolynomial ℕ ℚ} {fs : List (Poly × ℕ)}
    (h : IsFactorization s P fs) (hQ : Associated Q P) : IsFactorization s Q fs :=
  ⟨h.canonical, h.multiplicity, hQ.trans h.associated⟩

theorem IsFactorization.insertFactor {P : MvPolynomial ℕ ℚ} {f : Poly} {m : ℕ}
    {fs : List (Poly × ℕ)} (h : IsFactorization s P fs) (hf : CanonicalIn s f) (hm : m ≠ 0) :
    IsFactorization s (f.toMv ^ m * P) (insertFactor f m fs) := by
  refine .of_associated ?_ (h.associated.mul_left (f.toMv ^ m))
  have hnumber : f.isNumber = true → IsUnit (f.toMv ^ m) := fun hn =>
    (isUnit_toMv_of_mainVar? (mainVar?_eq_none_iff.2 hn) hf.positive.ne_zero).pow m
  obtain ⟨hcanonical, hmult, -⟩ := h
  induction fs with
  | nil =>
    rw [Poly.insertFactor]
    split_ifs with hn
    · exact isFactorization_nil ((hnumber hn).mul isUnit_one)
    · exact ⟨List.forall_mem_singleton.2 hf, List.forall_mem_singleton.2 hm,
        by rw [powerProduct_cons]⟩
  | cons g fs ih =>
    obtain ⟨hg, hcanonical'⟩ := List.forall_mem_cons.1 hcanonical
    obtain ⟨hgm, hmult'⟩ := List.forall_mem_cons.1 hmult
    rw [Poly.insertFactor]
    split_ifs with hn hsame
    · exact ⟨hcanonical, hmult, associated_unit_mul_left _ _ (hnumber hn)⟩
    · refine ⟨List.forall_mem_cons.2 ⟨hg, hcanonical'⟩,
        List.forall_mem_cons.2 ⟨by simp only; omega, hmult'⟩, ?_⟩
      rw [powerProduct_cons, powerProduct_cons, ← toMv_eq_of_sameTerms hsame, ← mul_assoc,
        ← pow_add, add_comm]
    · obtain ⟨hc, hmm, ha⟩ := ih hcanonical' hmult'
      refine ⟨List.forall_mem_cons.2 ⟨hg, hc⟩, List.forall_mem_cons.2 ⟨hgm, hmm⟩, ?_⟩
      rw [powerProduct_cons, powerProduct_cons, mul_left_comm]
      exact ha.mul_left _

theorem IsFactorization.insertFactors {P : MvPolynomial ℕ ℚ} {gs : List Poly} {m : ℕ}
    {fs : List (Poly × ℕ)} (h : IsFactorization s P fs) (hgs : ∀ g ∈ gs, CanonicalIn s g)
    (hm : m ≠ 0) : IsFactorization s (product gs ^ m * P)
      (gs.foldl (fun fs g => Poly.insertFactor g m fs) fs) := by
  induction gs generalizing P fs with
  | nil => simpa using h
  | cons g gs ih =>
    obtain ⟨hg, hgs⟩ := List.forall_mem_cons.1 hgs
    rw [product_cons, mul_pow, mul_assoc, mul_left_comm]
    exact ih (h.insertFactor hg hm) hgs

theorem IsFactorization.splitFactors {P Q : MvPolynomial ℕ ℚ} {parts fs gs : List (Poly × ℕ)}
    (hQ : IsFactorization s Q parts) (hP : IsFactorization s P fs)
    (h : parts.foldlM (fun fs (f, m) => do
      return (← f.splitLinear).foldl (fun fs g => Poly.insertFactor g m fs) fs) fs =
        (.ok gs : Algebra _)) :
    IsFactorization s (Q * P) gs := by
  refine .of_associated ?_ (hQ.associated.mul_right P)
  obtain ⟨hcanonical, hmult, -⟩ := hQ
  induction parts generalizing P fs with
  | nil =>
    cases h
    rwa [powerProduct_nil, one_mul]
  | cons f parts ih =>
    obtain ⟨hf, hcanonical⟩ := List.forall_mem_cons.1 hcanonical
    obtain ⟨hfm, hmult⟩ := List.forall_mem_cons.1 hmult
    rw [List.foldlM_cons] at h
    obtain ⟨fs', hfs', h⟩ := bind_eq_ok h
    obtain ⟨ls, hls, hfs'⟩ := bind_eq_ok hfs'
    cases hfs'
    obtain ⟨hls, hassoc⟩ := splitLinear_spec hf hls
    refine (ih (hP.insertFactors hls hfm) h hcanonical hmult).of_associated ?_
    rw [powerProduct_cons, mul_assoc, mul_left_comm]
    exact ((hassoc.pow_pow).mul_right _).mul_left _

/-! ## Factorization -/

theorem totalGcd_gcd (s : Finset ℕ) : TotalGcd (· = .grLex) s gcd :=
  ⟨rfl, gcdIn_gcd s, fun hp hq => (returns_gcd hp.order hq.order).mono fun _ h => h.1⟩

theorem primitiveIn_primitivePartIn {c q : Poly} (hp0 : p.toMv ≠ 0) (hc : p.contentIn v = .ok c)
    (hq : p.primitivePartIn v = .ok q) :
    PrimitiveIn v q.toMv ∧ Associated p.toMv (q.toMv * c.toMv) := by
  obtain ⟨-, -, -, hprim⟩ := contentBy_spec (gcdIn_gcd _) (Finset.subset_insert v _) hp0 hc
  rw [primitivePartIn, primitivePartBy, isZero_eq_false_iff.2 hp0] at hq
  obtain ⟨c', hc', hq⟩ := bind_eq_ok hq
  obtain ⟨r, hr, hq⟩ := bind_eq_ok hq
  obtain rfl := Except.ok.inj hq
  obtain rfl := Except.ok.inj (hc'.symm.trans hc)
  have hmul := (toMv_of_exactQuotient hr).2
  refine ⟨(hprim _ hmul).of_dvd (associated_canonical r).dvd, ?_⟩
  rw [hmul]
  exact (associated_canonical r).symm.mul_right _

/-- The content and the primitive part. -/
theorem contentIn_primitivePartIn_spec {c q : Poly} (hp : GradedIn (insert v s) p)
    (hp0 : p.toMv ≠ 0) (hc : p.contentIn v = .ok c) (hq : p.primitivePartIn v = .ok q) :
    GradedIn s c ∧ GradedIn (insert v s) q ∧ PrimitiveIn v q.toMv ∧
      Associated p.toMv (q.toMv * c.toMv) :=
  ⟨⟨((totalGcd_gcd s).returns_contentBy hp.orderedIn).of_ok hc,
      (contentBy_spec (gcdIn_gcd s) hp.vars hp0 hc).2.2.1⟩,
    (((totalGcd_gcd s).returns_primitivePartBy hp.orderedIn).of_ok hq).gradedIn,
    primitiveIn_primitivePartIn hp0 hc hq⟩

theorem canonical_of_primitivePartBy {gcd : Poly → Poly → Algebra Poly}
    (h : primitivePartBy gcd v p = .ok q) : q.canonical = q := by
  rw [primitivePartBy] at h
  split_ifs at h
  · obtain rfl := Except.ok.inj h
    decide +kernel
  · obtain ⟨c, -, h⟩ := bind_eq_ok h
    obtain ⟨r, -, h⟩ := bind_eq_ok h
    obtain rfl := Except.ok.inj h
    exact canonical_canonical r

/-- A polynomial is a polynomial without the variable times its primitive part. -/
theorem returns_primitivePartIn (ho : p.order = .grLex) (hp0 : p.toMv ≠ 0) :
    Returns (p.primitivePartIn v) fun t => t.order = .grLex ∧ t.canonical = t ∧
      PrimitiveIn v t.toMv ∧ ∃ c, c ≠ 0 ∧ v ∉ c.vars ∧ p.toMv = c * t.toMv := by
  have hp : GradedIn (insert v p.toMv.vars) p := ⟨ho, Finset.subset_insert _ _⟩
  refine (((totalGcd_gcd p.toMv.vars).returns_primitivePartBy hp.orderedIn).and fun t ht => ?_).mono
    fun t ht => ⟨ht.1.order, ht.2⟩
  exact ⟨canonical_of_primitivePartBy ht, primitivePartBy_spec (gcdIn_gcd _) hp.vars hp0 ht⟩

theorem isFactorization_factorsUpTo {n : ℕ} {fs : List (Poly × ℕ)} (hp : GradedIn s p)
    (hp0 : p.toMv ≠ 0) (hn : s.card < n) (h : factorsUpTo n p = .ok fs) :
    IsFactorization s p.toMv fs := by
  induction n generalizing s p fs with
  | zero => omega
  | succ n ih =>
    rw [factorsUpTo] at h
    split at h
    · rename_i hv
      cases h
      exact isFactorization_nil (isUnit_toMv_of_mainVar? hv hp0)
    · rename_i v hv
      obtain ⟨c, hc, h⟩ := bind_eq_ok h
      obtain ⟨lower, hlower, h⟩ := bind_eq_ok h
      obtain ⟨q, hq, h⟩ := bind_eq_ok h
      obtain ⟨parts, hparts, h⟩ := bind_eq_ok h
      have hvs : v ∈ s := hp.vars (mem_vars_of_mainVar? hv)
      have hins : insert v (s.erase v) = s := Finset.insert_erase hvs
      obtain ⟨hcs, hqs, hprim, hassoc⟩ := contentIn_primitivePartIn_spec (hins.symm ▸ hp) hp0 hc hq
      have h0 := hassoc.ne_zero_iff.1 hp0
      have hcard : (s.erase v).card < n := by
        rw [Finset.card_erase_of_mem hvs]
        have := Finset.card_pos.2 ⟨v, hvs⟩
        omega
      have hlow := (ih hcs (right_ne_zero_of_mul h0) hcard hlower).mono (Finset.erase_subset v s)
      have hparts := isFactorization_squareFreeFactors (hins ▸ hqs) (left_ne_zero_of_mul h0) hprim
        hparts
      exact (hparts.splitFactors hlow h).of_associated hassoc

theorem leadsPositive_powerProduct {fs : List (Poly × ℕ)} (h : ∀ f ∈ fs, CanonicalIn s f.1) :
    LeadsPositive (powerProduct fs) := by
  induction fs with
  | nil => exact .one
  | cons f fs ih =>
    obtain ⟨hf, hfs⟩ := List.forall_mem_cons.1 h
    rw [powerProduct_cons]
    exact (hf.positive.pow f.2).mul (ih hfs)

theorem card_vars_le (p : Poly) : p.toMv.vars.card ≤ p.vars.length := by
  have h : p.toMv.vars = p.vars.toFinset := by
    ext v
    rw [List.mem_toFinset, mem_vars_iff]
  rw [h]
  exact List.toFinset_card_le _

/-- A nonzero polynomial is the product of the powers of its factors and of a constant with the sign
that was found. -/
theorem factor_spec {F : Factorization} (ho : p.order = .grLex) (hp : p.toMv ≠ 0)
    (h : p.factor = .ok F) :
    (∀ f ∈ F.factors, CanonicalIn p.toMv.vars f.1 ∧ f.2 ≠ 0) ∧
      ∃ c : ℚ, 0 < c ∧ p.toMv = C (c * F.constant) * powerProduct F.factors := by
  rw [factor, isZero_eq_false_iff.2 hp] at h
  obtain ⟨fs, hfs, h⟩ := bind_eq_ok h
  obtain rfl := Except.ok.inj h
  have hgraded : GradedIn p.toMv.vars p := ⟨ho, subset_rfl⟩
  have hcanonical := hgraded.canonicalIn hp
  have hfact := isFactorization_factorsUpTo hcanonical.toGradedIn hcanonical.positive.ne_zero
    (Nat.lt_succ_of_le (card_vars_le p)) hfs
  refine ⟨fun f hf => ⟨hfact.canonical f hf, hfact.multiplicity f hf⟩, ?_⟩
  obtain ⟨c, hc, heq⟩ := hcanonical.positive.exists_pos_of_associated
    (leadsPositive_powerProduct hfact.canonical) hfact.associated
  refine ⟨c, hc, ?_⟩
  rw [toMv_canonical p, heq, mul_comm c, C_mul, mul_assoc]

/-! ## Multiplicities -/

theorem pos_of_mem_squareFreeSteps {steps i : ℕ} {b d : Poly} {fs : List (Poly × ℕ)} (hi : 0 < i)
    (h : squareFreeSteps v steps i b d = .ok fs) : ∀ f ∈ fs, 0 < f.2 := by
  induction steps generalizing i b d fs with
  | zero =>
    cases h
    nofun
  | succ steps ih =>
    rw [squareFreeSteps] at h
    split_ifs at h
    · obtain ⟨a, -, h⟩ := bind_eq_ok h
      obtain ⟨b', -, h⟩ := bind_eq_ok h
      obtain ⟨c, -, h⟩ := bind_eq_ok h
      obtain ⟨later, hlater, h⟩ := bind_eq_ok h
      have hlater := ih i.succ_pos hlater
      split_ifs at h
      · cases h
        exact List.forall_mem_cons.2 ⟨hi, hlater⟩
      · cases h
        exact hlater
    · cases h
      nofun

theorem pos_of_mem_squareFreeFactors {fs : List (Poly × ℕ)} (h : squareFreeFactors v p = .ok fs) :
    ∀ f ∈ fs, 0 < f.2 := by
  rw [squareFreeFactors] at h
  split_ifs at h
  · obtain ⟨g, -, h⟩ := bind_eq_ok h
    split_ifs at h
    · cases h
      exact List.forall_mem_singleton.2 one_pos
    · obtain ⟨b, -, h⟩ := bind_eq_ok h
      obtain ⟨c, -, h⟩ := bind_eq_ok h
      exact pos_of_mem_squareFreeSteps one_pos h
  · cases h
    exact List.forall_mem_nil _

theorem pos_of_mem_insertFactor {f : Poly} {m : ℕ} {fs : List (Poly × ℕ)} (hm : 0 < m)
    (hfs : ∀ g ∈ fs, 0 < g.2) : ∀ g ∈ insertFactor f m fs, 0 < g.2 := by
  induction fs with
  | nil =>
    rw [insertFactor]
    split_ifs
    · nofun
    · exact List.forall_mem_singleton.2 hm
  | cons g fs ih =>
    obtain ⟨hg, hfs'⟩ := List.forall_mem_cons.1 hfs
    rw [insertFactor]
    split_ifs
    · exact hfs
    · exact List.forall_mem_cons.2 ⟨Nat.add_pos_left hg m, hfs'⟩
    · exact List.forall_mem_cons.2 ⟨hg, ih hfs'⟩

theorem pos_of_mem_splitFactors {parts fs gs : List (Poly × ℕ)} (hparts : ∀ f ∈ parts, 0 < f.2)
    (hfs : ∀ g ∈ fs, 0 < g.2)
    (h : parts.foldlM (fun fs (f, m) => do
      return (← f.splitLinear).foldl (fun fs g => insertFactor g m fs) fs) fs =
        (.ok gs : Algebra _)) : ∀ g ∈ gs, 0 < g.2 := by
  induction parts generalizing fs with
  | nil =>
    cases h
    exact hfs
  | cons f parts ih =>
    obtain ⟨hf, hparts⟩ := List.forall_mem_cons.1 hparts
    rw [List.foldlM_cons] at h
    obtain ⟨fs', hfs', h⟩ := bind_eq_ok h
    obtain ⟨ls, -, hfs'⟩ := bind_eq_ok hfs'
    cases hfs'
    have hall : ∀ g ∈ ls.foldl (fun fs g => insertFactor g f.2 fs) fs, 0 < g.2 :=
      List.foldlRecOn (motive := fun fs : List (Poly × ℕ) => ∀ g ∈ fs, 0 < g.2) ls _ hfs
        fun _ hfs _ _ => pos_of_mem_insertFactor hf hfs
    exact ih hparts hall h

theorem pos_of_mem_factorsUpTo {n : ℕ} {fs : List (Poly × ℕ)} (h : factorsUpTo n p = .ok fs) :
    ∀ f ∈ fs, 0 < f.2 := by
  induction n generalizing p fs with
  | zero =>
    cases h
    nofun
  | succ n ih =>
    rw [factorsUpTo] at h
    split at h
    · cases h
      nofun
    · obtain ⟨c, -, h⟩ := bind_eq_ok h
      obtain ⟨lower, hlower, h⟩ := bind_eq_ok h
      obtain ⟨q, -, h⟩ := bind_eq_ok h
      obtain ⟨parts, hparts, h⟩ := bind_eq_ok h
      exact pos_of_mem_splitFactors (pos_of_mem_squareFreeFactors hparts) (ih hlower) h

/-- Multiplicities are positive, whatever is factored. -/
theorem pos_of_mem_factor {F : Factorization} (h : p.factor = .ok F) :
    ∀ f ∈ F.factors, 0 < f.2 := by
  rw [factor] at h
  split_ifs at h
  · cases h
    nofun
  · obtain ⟨fs, hfs, h⟩ := bind_eq_ok h
    cases h
    exact pos_of_mem_factorsUpTo hfs

end Poly

end Cylindrical

end
