import Mathlib
import Cylindrical.Poly.CoprimeBasis
import Cylindrical.Proofs.Poly.Canonical
import Cylindrical.Proofs.Poly.SquareFree

/-!
# Coprime bases

The refinement always ends with a coprime basis, and every polynomial it started from is a product of
elements of the basis and a constant (`returns_coprimeBasis`).  One refinement step does not raise the
sum of the degrees, in which a waiting polynomial counts one more than an element of the basis.

Over a coprime basis such a product is found again (`returns_expressOver`): an element that divides it
does so as often as it occurs in the product, as it is coprime to the other elements.
-/

noncomputable section

open MvPolynomial

namespace Cylindrical

namespace Poly

variable {s : Finset ℕ} {p f b g : Poly} {bs : List Poly}

/-! ## Degrees -/

theorem totalDegree_eq (p : Poly) : p.totalDegree = p.toMv.totalDegree := by
  refine le_antisymm (foldl_max_le (Nat.zero_le _) fun t ht => ?_) (Finset.sup_le fun m hm => ?_)
  · rw [← Monomial.degree_toFinsupp]
    exact MvPolynomial.le_totalDegree (mem_support_toMv.2 ⟨t, ht, rfl⟩)
  · obtain ⟨t, ht, rfl⟩ := mem_support_toMv.1 hm
    change t.monomial.toFinsupp.degree ≤ _
    rw [Monomial.degree_toFinsupp]
    exact le_totalDegree ht

theorem totalDegree_of_mul {q r : Poly} (hp : p.toMv ≠ 0) (h : p.toMv = q.toMv * r.toMv) :
    p.totalDegree = q.totalDegree + r.totalDegree := by
  rw [totalDegree_eq, totalDegree_eq, totalDegree_eq, h, totalDegree_mul_of_isDomain
    (left_ne_zero_of_mul (h ▸ hp)) (right_ne_zero_of_mul (h ▸ hp))]

theorem totalDegree_canonical (p : Poly) : p.canonical.totalDegree = p.totalDegree := by
  by_cases hp : p.toMv = 0
  · rw [totalDegree_eq, totalDegree_eq, hp, (associated_canonical p).eq_zero_iff.2 hp]
  · have hC : (const p.canonicalFactor).totalDegree = 0 := by
      rw [totalDegree_eq, toMv_const, totalDegree_C]
    have h := totalDegree_of_mul (q := const p.canonicalFactor) (r := p.canonical) hp (by
      rw [toMv_const, ← toMv_canonical])
    omega

theorem isNumber_iff_totalDegree : p.isNumber = true ↔ p.totalDegree = 0 := by
  rw [isNumber_iff, totalDegree_eq, totalDegree_eq_zero_iff_eq_C]
  exact ⟨fun ⟨c, hc⟩ => by rw [hc, coeff_C, if_pos rfl], fun h => ⟨_, h⟩⟩

theorem isUnit_iff_isNumber (hp : p.toMv ≠ 0) : IsUnit p.toMv ↔ p.isNumber = true := by
  refine ⟨fun h => ?_, fun h => isUnit_toMv_of_mainVar? (mainVar?_eq_none_iff.2 h) hp⟩
  obtain ⟨c, -, hc⟩ := MvPolynomial.isUnit_iff_eq_C_of_isReduced.1 h
  exact isNumber_iff.2 ⟨c, hc⟩

theorem totalDegree_pos (h0 : b.toMv ≠ 0) (h : ¬IsUnit b.toMv) : 0 < b.totalDegree :=
  Nat.pos_of_ne_zero fun hd => h ((isUnit_iff_isNumber h0).2 (isNumber_iff_totalDegree.2 hd))

/-! ## Products over a list -/

/-- The products of members of a list, up to constants. -/
def productsOver (bs : List Poly) : Submonoid (MvPolynomial ℕ ℚ) :=
  .closure {P | IsUnit P ∨ ∃ b ∈ bs, P = b.toMv}

section

variable {P Q : MvPolynomial ℕ ℚ} {cs : List Poly}

theorem mem_productsOver_of_isUnit (h : IsUnit P) : P ∈ productsOver bs :=
  Submonoid.subset_closure (.inl h)

theorem mem_productsOver (h : b ∈ bs) : b.toMv ∈ productsOver bs :=
  Submonoid.subset_closure (.inr ⟨b, h, rfl⟩)

theorem mem_productsOver_of_associated (h : Associated P Q) (hQ : Q ∈ productsOver bs) :
    P ∈ productsOver bs := by
  obtain ⟨u, rfl⟩ := h.symm
  exact mul_mem hQ (mem_productsOver_of_isUnit u.isUnit)

theorem productsOver_le (h : ∀ b ∈ bs, b.toMv ∈ productsOver cs) :
    productsOver bs ≤ productsOver cs := by
  refine Submonoid.closure_le.2 ?_
  rintro P (hP | ⟨b, hb, rfl⟩)
  · exact mem_productsOver_of_isUnit hP
  · exact h b hb

theorem productsOver_mono (h : bs ⊆ cs) : productsOver bs ≤ productsOver cs :=
  productsOver_le fun _ hb => mem_productsOver (h hb)

theorem isUnit_of_mem_productsOver_nil (h : P ∈ productsOver []) : IsUnit P := by
  induction h using Submonoid.closure_induction with
  | mem P hP => exact hP.elim id fun ⟨b, hb, _⟩ => absurd hb List.not_mem_nil
  | one => exact isUnit_one
  | mul P Q _ _ hP hQ => exact hP.mul hQ

theorem isRelPrime_of_mem_productsOver {B : MvPolynomial ℕ ℚ}
    (h : ∀ c ∈ bs, IsRelPrime B c.toMv) (hP : P ∈ productsOver bs) : IsRelPrime B P := by
  induction hP using Submonoid.closure_induction with
  | mem P hP =>
    rcases hP with hP | ⟨c, hc, rfl⟩
    · exact hP.isRelPrime_right
    · exact h c hc
  | one => exact isRelPrime_one_right
  | mul P Q _ _ hP hQ => exact hP.mul_right hQ

/-- The powers of one element can be split off. -/
theorem exists_pow_mul_of_mem_productsOver (h : P ∈ productsOver (b :: bs)) :
    ∃ k, ∃ Q ∈ productsOver bs, P = b.toMv ^ k * Q := by
  induction h using Submonoid.closure_induction with
  | mem P hP =>
    rcases hP with hP | ⟨c, hc, rfl⟩
    · exact ⟨0, P, mem_productsOver_of_isUnit hP, by rw [pow_zero, one_mul]⟩
    · rcases List.mem_cons.1 hc with rfl | hc
      · exact ⟨1, 1, one_mem _, by rw [pow_one, mul_one]⟩
      · exact ⟨0, c.toMv, mem_productsOver hc, by rw [pow_zero, one_mul]⟩
  | one => exact ⟨0, 1, one_mem _, by rw [pow_zero, one_mul]⟩
  | mul P Q _ _ hP hQ =>
    obtain ⟨k, P, hP, rfl⟩ := hP
    obtain ⟨l, Q, hQ, rfl⟩ := hQ
    exact ⟨k + l, P * Q, mul_mem hP hQ, by ring⟩

end

/-! ## Refinement -/

/-- The sum of the degrees of the elements of a basis, doubled. -/
def basisWeight (bs : List Poly) : ℕ := (bs.map fun b => 2 * b.totalDegree).sum

/-- The same for waiting polynomials, each of which counts one more. -/
def pendingWeight (ps : List Poly) : ℕ := (ps.map fun p => 2 * p.totalDegree + 1).sum

@[simp] theorem basisWeight_nil : basisWeight [] = 0 := rfl

@[simp] theorem basisWeight_cons (b : Poly) (bs : List Poly) :
    basisWeight (b :: bs) = 2 * b.totalDegree + basisWeight bs := by
  rw [basisWeight, List.map_cons, List.sum_cons, basisWeight]

@[simp] theorem basisWeight_append (bs cs : List Poly) :
    basisWeight (bs ++ cs) = basisWeight bs + basisWeight cs := by
  rw [basisWeight, List.map_append, List.sum_append, basisWeight, basisWeight]

@[simp] theorem pendingWeight_nil : pendingWeight [] = 0 := rfl

@[simp] theorem pendingWeight_cons (p : Poly) (ps : List Poly) :
    pendingWeight (p :: ps) = 2 * p.totalDegree + 1 + pendingWeight ps := by
  rw [pendingWeight, List.map_cons, List.sum_cons, pendingWeight]

@[simp] theorem pendingWeight_append (ps qs : List Poly) :
    pendingWeight (ps ++ qs) = pendingWeight ps + pendingWeight qs := by
  rw [pendingWeight, List.map_append, List.sum_append, pendingWeight, pendingWeight]

/-- What is left of a polynomial that is compared with a basis is coprime to what is left of the basis,
and all pieces divide what was there. -/
structure Splits (f : Poly) (bs : List Poly) (r : Refinement) : Prop where
  rest_dvd : r.rest.toMv ∣ f.toMv
  sublist : r.coprime.Sublist bs
  relPrime : ∀ c ∈ r.coprime, IsRelPrime r.rest.toMv c.toMv
  split_dvd : ∀ g ∈ r.split, ∃ b ∈ f :: bs, g.toMv ∣ b.toMv

theorem dvd_of_mem_pieces {b' : Poly} (hbg : b.toMv = b'.toMv * g.toMv) :
    ∀ q ∈ if b'.isNumber then [g] else [g, b'.canonical], q.toMv ∣ b.toMv := by
  have hg : g.toMv ∣ b.toMv := ⟨b'.toMv, hbg.trans (mul_comm _ _)⟩
  split_ifs
  · exact List.forall_mem_singleton.2 hg
  · exact List.forall_mem_cons.2 ⟨hg, List.forall_mem_singleton.2
      ((associated_canonical b').dvd.trans ⟨g.toMv, hbg⟩)⟩

theorem splits_refineAgainst {r : Refinement} (hf : f.toMv ≠ 0) (h : refineAgainst f bs = .ok r) :
    Splits f bs r := by
  induction bs generalizing f r with
  | nil =>
    cases h
    exact ⟨dvd_rfl, .refl _, nofun, nofun⟩
  | cons b bs ih =>
    rw [refineAgainst] at h
    split_ifs at h
    · cases h
      have hone : (1 : Poly).toMv = 1 := toMv_one
      exact ⟨hone ▸ one_dvd _, .refl _, fun c _ => hone ▸ isRelPrime_one_left, nofun⟩
    obtain ⟨g, hg, h⟩ := bind_eq_ok h
    have hgcd := isGcd_gcd hg
    have hg0 := hgcd.ne_zero_of_left hf
    split_ifs at h with hnum
    · obtain ⟨r, hr, h⟩ := bind_eq_ok h
      cases h
      have hrest := ih hf hr
      have hrel : IsRelPrime f.toMv b.toMv := fun e hef heb =>
        isUnit_of_dvd_unit ((hgcd e).2 ⟨hef, heb⟩) ((isUnit_iff_isNumber hg0).2 hnum)
      exact ⟨hrest.rest_dvd, hrest.sublist.cons_cons b,
        List.forall_mem_cons.2 ⟨hrel.of_dvd_left hrest.rest_dvd, hrest.relPrime⟩,
        fun q hq => (hrest.split_dvd q hq).imp fun c hc => ⟨by grind, hc.2⟩⟩
    obtain ⟨b', hb', h⟩ := bind_eq_ok h
    obtain ⟨f', hf', h⟩ := bind_eq_ok h
    have hfg := (toMv_of_exactQuotient hf').2
    have hff : f'.toMv ∣ f.toMv := ⟨_, hfg⟩
    have hf0 : f'.toMv ≠ 0 := ne_zero_of_dvd_ne_zero hf hff
    have hpieces := dvd_of_mem_pieces (toMv_of_exactQuotient hb').2
    change (if f'.isNumber
      then .ok ⟨f', bs, if b'.isNumber then [g] else [g, b'.canonical]⟩
      else do
        let r ← refineAgainst f' bs
        return { r with split := r.split ++ if b'.isNumber then [g] else [g, b'.canonical] }) =
          .ok r at h
    generalize (if b'.isNumber then [g] else [g, b'.canonical]) = pieces at h hpieces
    split_ifs at h with hunit
    · cases h
      exact ⟨hff, List.sublist_cons_self b bs,
        fun c _ => ((isUnit_iff_isNumber hf0).2 hunit).isRelPrime_left,
        fun q hq => ⟨b, by simp, hpieces q hq⟩⟩
    · obtain ⟨r, hr, h⟩ := bind_eq_ok h
      cases h
      have hrest := ih hf0 hr
      refine ⟨hrest.rest_dvd.trans hff, hrest.sublist.cons b, hrest.relPrime,
        List.forall_mem_append.2 ⟨fun q hq => ?_, fun q hq => ⟨b, by simp, hpieces q hq⟩⟩⟩
      obtain ⟨c, hc, hqc⟩ := hrest.split_dvd q hq
      rcases List.mem_cons.1 hc with rfl | hc
      · exact ⟨f, .head _, hqc.trans hff⟩
      · exact ⟨c, .tail _ (.tail _ hc), hqc⟩

/-- A nonzero polynomial in some variables. -/
structure NonzeroIn (s : Finset ℕ) (p : Poly) : Prop extends GradedIn s p where
  ne_zero : p.toMv ≠ 0

/-- What comes out when a polynomial is compared with a basis gives back all polynomials, and does not
weigh more. -/
structure IsRefinement (s : Finset ℕ) (f : Poly) (bs : List Poly) (r : Refinement) : Prop where
  rest : NonzeroIn s r.rest
  split : ∀ g ∈ r.split, NonzeroIn s g
  products : ∀ b ∈ f :: bs, b.toMv ∈ productsOver (r.rest :: (r.coprime ++ r.split))
  weight : 2 * r.rest.totalDegree + basisWeight r.coprime + pendingWeight r.split ≤
    2 * f.totalDegree + basisWeight bs

namespace IsRefinement

variable {r : Refinement}

/-- Nothing happens. -/
theorem trivial (hf : NonzeroIn s f) : IsRefinement s f bs ⟨f, bs, []⟩ where
  rest := hf
  split := nofun
  products b hb := mem_productsOver (by rwa [List.append_nil])
  weight := by simp

/-- An element of the basis that is equal to the polynomial uses it up. -/
theorem same (h : b.toMv = f.toMv) (hd : b.totalDegree = f.totalDegree) :
    IsRefinement s f (b :: bs) ⟨1, b :: bs, []⟩ where
  rest := ⟨⟨rfl, by simp⟩, by simp⟩
  split := nofun
  products c hc := by
    rw [List.append_nil]
    rcases List.mem_cons.1 hc with rfl | hc
    · rw [← h]
      exact mem_productsOver (.tail _ (.head _))
    · exact mem_productsOver (.tail _ hc)
  weight := by
    have : (1 : Poly).totalDegree = 0 := by rw [totalDegree_eq, toMv_one, totalDegree_one]
    simp [this]

/-- An element of the basis stays. -/
theorem keep (h : IsRefinement s f bs r) (b : Poly) :
    IsRefinement s f (b :: bs) { r with coprime := b :: r.coprime } where
  rest := h.rest
  split := h.split
  products c hc := by
    have hmono : productsOver (r.rest :: (r.coprime ++ r.split)) ≤
        productsOver (r.rest :: (b :: r.coprime ++ r.split)) :=
      productsOver_mono (List.cons_subset_cons _ (List.subset_cons_self _ _))
    rcases List.mem_cons.1 hc with rfl | hc
    · exact hmono (h.products c (.head _))
    · rcases List.mem_cons.1 hc with rfl | hc
      · exact mem_productsOver (.tail _ (.head _))
      · exact hmono (h.products c (.tail _ hc))
  weight := by
    have := h.weight
    simp only [basisWeight_cons]
    omega

/-- An element of the basis that has a factor in common with the polynomial is split. -/
theorem divide {f' b' : Poly} (hr : IsRefinement s f' bs r) (hf : f.toMv ≠ 0) (hb : NonzeroIn s b)
    (hg : GradedIn s g) (hgd : 0 < g.totalDegree) (hb' : b'.order = .grLex)
    (hfg : f.toMv = f'.toMv * g.toMv) (hbg : b.toMv = b'.toMv * g.toMv) :
    IsRefinement s f (b :: bs) { r with
      split := r.split ++ if b'.isNumber then [g] else [g, b'.canonical] } := by
  have hg0 : g.toMv ≠ 0 := right_ne_zero_of_mul (hfg ▸ hf)
  have hb0 : b'.toMv ≠ 0 := left_ne_zero_of_mul (hbg ▸ hb.ne_zero)
  have hgs : NonzeroIn s g := ⟨hg, hg0⟩
  have hbs : NonzeroIn s b' :=
    ⟨⟨hb', (vars_subset_of_dvd hb.ne_zero ⟨_, hbg⟩).trans hb.vars⟩, hb0⟩
  have hdf := totalDegree_of_mul hf hfg
  have hdb := totalDegree_of_mul hb.ne_zero hbg
  generalize hps : (if b'.isNumber then [g] else [g, b'.canonical]) = ps
  -- the pieces are the two factors, up to constants
  have hgmem : g ∈ ps := by
    rw [← hps]
    split_ifs <;> simp
  have hbmem : b'.toMv ∈ productsOver ps := by
    rw [← hps]
    split_ifs with hn
    · exact mem_productsOver_of_isUnit ((isUnit_iff_isNumber hb0).2 hn)
    · exact mem_productsOver_of_associated (associated_canonical b').symm
        (mem_productsOver (.tail _ (.head _)))
  have hnonzero : ∀ q ∈ ps, NonzeroIn s q := by
    rw [← hps]
    split_ifs
    · exact List.forall_mem_singleton.2 hgs
    · exact List.forall_mem_cons.2 ⟨hgs, List.forall_mem_singleton.2
        ⟨(hbs.toGradedIn.canonicalIn hb0).toGradedIn, (hbs.toGradedIn.canonicalIn hb0).positive.ne_zero⟩⟩
  have hweight : pendingWeight ps ≤ 2 * b.totalDegree + 2 * g.totalDegree := by
    rw [← hps]
    split_ifs
    · simp only [pendingWeight_cons, pendingWeight_nil]
      omega
    · simp only [pendingWeight_cons, pendingWeight_nil, totalDegree_canonical]
      omega
  have hold : productsOver (r.rest :: (r.coprime ++ r.split)) ≤
      productsOver (r.rest :: (r.coprime ++ (r.split ++ ps))) := productsOver_mono (by grind)
  have hnew : productsOver ps ≤ productsOver (r.rest :: (r.coprime ++ (r.split ++ ps))) :=
    productsOver_mono (by grind)
  have hgin := hnew (mem_productsOver hgmem)
  refine ⟨hr.rest, List.forall_mem_append.2 ⟨hr.split, hnonzero⟩, List.forall_mem_cons.2
      ⟨?_, List.forall_mem_cons.2 ⟨?_, fun c hc => hold (hr.products c (.tail _ hc))⟩⟩, ?_⟩
  · rw [hfg]
    exact mul_mem (hold (hr.products f' (.head _))) hgin
  · rw [hbg]
    exact mul_mem (hnew hbmem) hgin
  · have := hr.weight
    simp only [pendingWeight_append, basisWeight_cons]
    omega

end IsRefinement

theorem returns_refineAgainst (hf : NonzeroIn s f) (hbs : ∀ b ∈ bs, NonzeroIn s b) :
    Returns (refineAgainst f bs) (IsRefinement s f bs) := by
  induction bs generalizing f with
  | nil => exact .ok (.trivial hf)
  | cons b bs ih =>
    obtain ⟨hb, hbs⟩ := List.forall_mem_cons.1 hbs
    rw [refineAgainst]
    split_ifs with hsame
    · refine .ok (.same (toMv_eq_of_sameTerms hsame) ?_)
      rw [totalDegree_eq, totalDegree_eq, toMv_eq_of_sameTerms hsame]
    refine (returns_gcd hf.order hb.order).bind fun g hg => ?_
    have hg0 : g.toMv ≠ 0 := hg.2.ne_zero_of_left hf.ne_zero
    split_ifs with hnum
    · exact (ih hf hbs).bind fun r hr => .ok (hr.keep b)
    obtain ⟨b', hb', hbo⟩ := exists_exactQuotient hb.order hg0 hg.2.dvd_right
    obtain ⟨f', hf', hfo⟩ := exists_exactQuotient hf.order hg0 hg.2.dvd_left
    have hfg := (toMv_of_exactQuotient hf').2
    have hgs : GradedIn s g := ⟨hg.1, hg.2.vars_subset hf.vars hb.vars⟩
    have hgd : 0 < g.totalDegree :=
      Nat.pos_of_ne_zero fun h => hnum (isNumber_iff_totalDegree.2 h)
    have hf's : NonzeroIn s f' := ⟨⟨hfo, (vars_subset_of_dvd hf.ne_zero ⟨_, hfg⟩).trans hf.vars⟩,
      left_ne_zero_of_mul (hfg ▸ hf.ne_zero)⟩
    rw [hb', hf']
    change Returns (if f'.isNumber
      then .ok ⟨f', bs, if b'.isNumber then [g] else [g, b'.canonical]⟩
      else do
        let r ← refineAgainst f' bs
        return { r with split := r.split ++ if b'.isNumber then [g] else [g, b'.canonical] }) _
    by_cases hunit : f'.isNumber = true
    · rw [if_pos hunit]
      have htrivial : IsRefinement s f' bs ⟨f', bs, []⟩ := .trivial hf's
      exact .ok (htrivial.divide hf.ne_zero hb hgs hgd hbo hfg (toMv_of_exactQuotient hb').2)
    · rw [if_neg hunit]
      exact (ih hf's hbs).bind fun r hr =>
        .ok (hr.divide hf.ne_zero hb hgs hgd hbo hfg (toMv_of_exactQuotient hb').2)

/-! ## Bases -/

/-- Nonconstant and pairwise coprime polynomials. -/
structure CoprimeList (bs : List Poly) : Prop where
  not_isUnit : ∀ b ∈ bs, ¬IsUnit b.toMv
  pairwise : bs.Pairwise fun b c => IsRelPrime b.toMv c.toMv

namespace CoprimeList

theorem nil : CoprimeList [] := ⟨nofun, .nil⟩

theorem sublist {cs : List Poly} (h : CoprimeList bs) (hcs : cs.Sublist bs) : CoprimeList cs :=
  ⟨fun c hc => h.not_isUnit c (hcs.subset hc), h.pairwise.sublist hcs⟩

/-- What is left of a polynomial after a refinement step can be added to what is left of the basis. -/
theorem extend {r : Refinement} (h : CoprimeList bs) (hr : Splits f bs r) (hrest : r.rest.toMv ≠ 0) :
    CoprimeList (if r.rest.isNumber then r.coprime else r.coprime ++ [r.rest.canonical]) := by
  have hold := h.sublist hr.sublist
  split_ifs with hn
  · exact hold
  · have hassoc := associated_canonical r.rest
    refine ⟨List.forall_mem_append.2 ⟨hold.not_isUnit, List.forall_mem_singleton.2 fun hu => hn ?_⟩,
      List.pairwise_append.2 ⟨hold.pairwise, List.pairwise_singleton _ _, fun c hc d hd => ?_⟩⟩
    · exact (isUnit_iff_isNumber hrest).1 (hassoc.isUnit hu)
    · obtain rfl := List.mem_singleton.1 hd
      exact ((hr.relPrime c hc).of_dvd_left hassoc.dvd).symm

end CoprimeList

/-- Canonical, nonconstant and pairwise coprime polynomials. -/
structure CoprimeIn (s : Finset ℕ) (bs : List Poly) : Prop extends CoprimeList bs where
  canonical : ∀ b ∈ bs, CanonicalIn s b

namespace CoprimeIn

theorem nil : CoprimeIn s [] := ⟨.nil, nofun⟩

theorem nonzeroIn (h : CoprimeIn s bs) (hb : b ∈ bs) : NonzeroIn s b :=
  ⟨(h.canonical b hb).toGradedIn, (h.canonical b hb).positive.ne_zero⟩

theorem sublist {cs : List Poly} (h : CoprimeIn s bs) (hcs : cs.Sublist bs) : CoprimeIn s cs :=
  ⟨h.toCoprimeList.sublist hcs, fun c hc => h.canonical c (hcs.subset hc)⟩

theorem extend {r : Refinement} (h : CoprimeIn s bs) (hr : Splits f bs r)
    (hrest : NonzeroIn s r.rest) :
    CoprimeIn s (if r.rest.isNumber then r.coprime else r.coprime ++ [r.rest.canonical]) where
  toCoprimeList := h.toCoprimeList.extend hr hrest.ne_zero
  canonical := by
    have hold := (h.sublist hr.sublist).canonical
    split_ifs
    · exact hold
    · exact List.forall_mem_append.2 ⟨hold, List.forall_mem_singleton.2
        (hrest.toGradedIn.canonicalIn hrest.ne_zero)⟩

end CoprimeIn

/-- Adding waiting polynomials to a basis until none waits ends with the last basis. -/
inductive RefinesTo : List Poly → List Poly → List Poly → Prop
  | done (bs : List Poly) : RefinesTo bs [] bs
  | step {bs pending cs : List Poly} {f : Poly} {r : Refinement} (run : refineAgainst f bs = .ok r)
      (rest : RefinesTo (if r.rest.isNumber then r.coprime else r.coprime ++ [r.rest.canonical])
        (r.split ++ pending) cs) : RefinesTo bs (f :: pending) cs

theorem returns_coprimeBasisSteps {n : ℕ} {pending : List Poly} (hbs : CoprimeIn s bs)
    (hpending : ∀ f ∈ pending, NonzeroIn s f)
    (hn : basisWeight bs + pendingWeight pending ≤ n) :
    Returns (coprimeBasisSteps n bs pending) fun cs => CoprimeIn s cs ∧
      (∀ b ∈ bs ++ pending, b.toMv ∈ productsOver cs) ∧ RefinesTo bs pending cs := by
  have hend : Returns (.ok bs : Algebra (List Poly)) fun cs =>
      CoprimeIn s cs ∧ (∀ b ∈ bs ++ [], b.toMv ∈ productsOver cs) ∧ RefinesTo bs [] cs :=
    .ok ⟨hbs, fun b hb => mem_productsOver (by rwa [List.append_nil] at hb), .done bs⟩
  induction n generalizing bs pending with
  | zero =>
    cases pending with
    | nil => exact hend
    | cons f pending =>
      rw [pendingWeight_cons] at hn
      omega
  | succ n ih =>
    cases pending with
    | nil => exact hend
    | cons f pending =>
      obtain ⟨hf, hpending⟩ := List.forall_mem_cons.1 hpending
      rw [coprimeBasisSteps]
      refine ((returns_refineAgainst hf fun b hb => hbs.nonzeroIn hb).and fun r hrun =>
        And.intro (splits_refineAgainst hf.ne_zero hrun) hrun).bind fun r ⟨hr, hsplits, hrun⟩ => ?_
      have hext := hbs.extend hsplits hr.rest
      have hrest : r.rest.toMv ∈ productsOver
          (if r.rest.isNumber then r.coprime else r.coprime ++ [r.rest.canonical]) := by
        split_ifs with hnum
        · exact mem_productsOver_of_isUnit ((isUnit_iff_isNumber hr.rest.ne_zero).2 hnum)
        · exact mem_productsOver_of_associated (associated_canonical _).symm
            (mem_productsOver (by simp))
      have hsub : r.coprime ⊆
          if r.rest.isNumber then r.coprime else r.coprime ++ [r.rest.canonical] := by
        split_ifs <;> simp
      have hweight : basisWeight
          (if r.rest.isNumber then r.coprime else r.coprime ++ [r.rest.canonical]) ≤
            2 * r.rest.totalDegree + basisWeight r.coprime := by
        split_ifs
        · omega
        · simp only [basisWeight_append, basisWeight_cons, basisWeight_nil, totalDegree_canonical]
          omega
      have hstep := fun cs => @RefinesTo.step bs pending cs f r hrun
      generalize (if r.rest.isNumber then r.coprime else r.coprime ++ [r.rest.canonical]) = bs' at *
      have hdrop := hr.weight
      rw [pendingWeight_cons] at hn
      refine (ih hext (List.forall_mem_append.2 ⟨hr.split, hpending⟩) (by
        rw [pendingWeight_append]
        omega) (.ok ⟨hext, fun b hb => mem_productsOver (by rwa [List.append_nil] at hb),
          .done bs'⟩)).mono fun cs hcs => ⟨hcs.1, ?_, hstep cs hcs.2.2⟩
      -- what is a product over the pieces is one over the final basis
      have hpieces : productsOver (r.rest :: (r.coprime ++ r.split)) ≤ productsOver cs := by
        refine productsOver_le fun c hc => ?_
        rcases List.mem_cons.1 hc with rfl | hc
        · exact productsOver_le (fun b hb => hcs.2.1 b (List.mem_append_left _ hb)) hrest
        · rcases List.mem_append.1 hc with hc | hc
          · exact hcs.2.1 c (List.mem_append_left _ (hsub hc))
          · exact hcs.2.1 c (List.mem_append_right _ (List.mem_append_left _ hc))
      intro b hb
      rcases List.mem_append.1 hb with hb | hb
      · exact hpieces (hr.products b (.tail _ hb))
      · rcases List.mem_cons.1 hb with rfl | hb
        · exact hpieces (hr.products b (.head _))
        · exact hcs.2.1 b (List.mem_append_right _ (List.mem_append_right _ hb))

/-- Coprime polynomials in normal form, each of which divides a member of a list. -/
structure BasisOf (ps bs : List Poly) : Prop extends CoprimeList bs where
  canonical : ∀ b ∈ bs, b.canonical = b
  dvd : ∀ b ∈ bs, ∃ p ∈ ps, b.toMv ∣ p.toMv

theorem basisOf_coprimeBasisSteps {n : ℕ} {ps pending cs : List Poly} (hps : ∀ p ∈ ps, p.toMv ≠ 0)
    (hbs : BasisOf ps bs) (hpending : ∀ f ∈ pending, ∃ p ∈ ps, f.toMv ∣ p.toMv)
    (h : coprimeBasisSteps n bs pending = .ok cs) : BasisOf ps cs := by
  induction n generalizing bs pending with
  | zero =>
    cases h
    exact hbs
  | succ n ih =>
    cases pending with
    | nil =>
      cases h
      exact hbs
    | cons f pending =>
      obtain ⟨r, hr, h⟩ := bind_eq_ok h
      have hdvd : ∀ b ∈ f :: bs, ∃ p ∈ ps, b.toMv ∣ p.toMv :=
        List.forall_mem_cons.2 ⟨hpending f (.head _), hbs.dvd⟩
      have hf : f.toMv ≠ 0 := by
        obtain ⟨p, hp, hfp⟩ := hdvd f (.head _)
        exact ne_zero_of_dvd_ne_zero (hps p hp) hfp
      have hsplits := splits_refineAgainst hf hr
      have hsub := hsplits.sublist.subset
      refine ih ⟨hbs.toCoprimeList.extend hsplits (ne_zero_of_dvd_ne_zero hf hsplits.rest_dvd), ?_, ?_⟩
        (List.forall_mem_append.2 ⟨fun g hg => ?_, fun g hg => hpending g (.tail _ hg)⟩) h
      · split_ifs
        · exact fun b hb => hbs.canonical b (hsub hb)
        · exact List.forall_mem_append.2 ⟨fun b hb => hbs.canonical b (hsub hb),
            List.forall_mem_singleton.2 (canonical_canonical _)⟩
      · split_ifs
        · exact fun b hb => hbs.dvd b (hsub hb)
        · refine List.forall_mem_append.2 ⟨fun b hb => hbs.dvd b (hsub hb),
            List.forall_mem_singleton.2 ?_⟩
          obtain ⟨p, hp, hfp⟩ := hdvd f (.head _)
          exact ⟨p, hp, (associated_canonical _).dvd.trans (hsplits.rest_dvd.trans hfp)⟩
      · obtain ⟨b, hb, hgb⟩ := hsplits.split_dvd g hg
        obtain ⟨p, hp, hbp⟩ := hdvd b hb
        exact ⟨p, hp, hgb.trans hbp⟩

theorem toMv_ne_zero_of_not_isNumber (h : p.isNumber = false) : p.toMv ≠ 0 := fun h0 => by
  rw [isNumber_iff.2 ⟨0, by rw [h0, C_0]⟩] at h
  cases h

/-- In any order of monomials the basis is coprime and divides what it was made of. -/
theorem basisOf_coprimeBasis {ps : List Poly} (h : coprimeBasis ps = .ok bs) : BasisOf ps bs := by
  rw [coprimeBasis] at h
  have hpending : ∀ q ∈ (ps.filter fun p => !p.isNumber).map canonical,
      q.toMv ≠ 0 ∧ ∃ p ∈ ps, q.toMv ∣ p.toMv := fun q hq => by
    obtain ⟨p, hp, rfl⟩ := List.mem_map.1 hq
    obtain ⟨hp, hn⟩ := List.mem_filter.1 hp
    have hassoc := associated_canonical p
    exact ⟨hassoc.ne_zero_iff.2 (toMv_ne_zero_of_not_isNumber (by simpa using hn)), p, hp, hassoc.dvd⟩
  have hbasis := basisOf_coprimeBasisSteps (fun q hq => (hpending q hq).1)
    ⟨.nil, nofun, nofun⟩ (fun q hq => ⟨q, hq, dvd_rfl⟩) h
  refine ⟨hbasis.toCoprimeList, hbasis.canonical, fun b hb => ?_⟩
  obtain ⟨q, hq, hbq⟩ := hbasis.dvd b hb
  obtain ⟨p, hp, hqp⟩ := (hpending q hq).2
  exact ⟨p, hp, hbq.trans hqp⟩

theorem refinementBound_eq (ps : List Poly) : refinementBound ps = pendingWeight ps := by
  have h : ∀ n, ps.foldl (fun n p => n + 2 * p.totalDegree + 1) n = n + pendingWeight ps := by
    induction ps with
    | nil => simp
    | cons p ps ih =>
      intro n
      rw [List.foldl_cons, ih, pendingWeight_cons]
      omega
  rw [refinementBound, h, zero_add]

/-- The refinement ends with a coprime basis that all polynomials are products over. -/
theorem returns_coprimeBasis {ps : List Poly} (hps : ∀ p ∈ ps, GradedIn s p) :
    Returns (coprimeBasis ps) fun bs => CoprimeIn s bs ∧
      (∀ p ∈ ps, p.toMv ≠ 0 → p.toMv ∈ productsOver bs) ∧
      RefinesTo [] ((ps.filter fun p => !p.isNumber).map canonical) bs := by
  rw [coprimeBasis, refinementBound_eq]
  refine (returns_coprimeBasisSteps (s := s) .nil (fun f hf => ?_)
    (by rw [basisWeight_nil, zero_add])).mono fun bs hbs =>
      ⟨hbs.1, fun p hp hp0 => ?_, hbs.2.2⟩
  · obtain ⟨p, hp, rfl⟩ := List.mem_map.1 hf
    obtain ⟨hp, hn⟩ := List.mem_filter.1 hp
    have hcanonical := (hps p hp).canonicalIn (toMv_ne_zero_of_not_isNumber (by simpa using hn))
    exact ⟨hcanonical.toGradedIn, hcanonical.positive.ne_zero⟩
  · by_cases hn : p.isNumber = true
    · exact mem_productsOver_of_isUnit ((isUnit_iff_isNumber hp0).2 hn)
    · refine mem_productsOver_of_associated (associated_canonical p).symm
        (hbs.2.1 _ (List.mem_map.2 ⟨p, List.mem_filter.2 ⟨hp, by simpa using hn⟩, rfl⟩))

/-! ## Products over a basis -/

theorem toMv_divideOut (b : Poly) (n : ℕ) (p : Poly) :
    p.toMv = (divideOut b n p).1.toMv * b.toMv ^ (divideOut b n p).2 := by
  induction n generalizing p with
  | zero => simp [divideOut]
  | succ n ih =>
    rw [divideOut]
    split_ifs
    · simp
    · split
      · simp
      · rename_i q hq
        rw [(toMv_of_divExact? hq).2, ih q]
        ring

/-- Nothing is left to be divided out. -/
theorem not_dvd_divideOut {n : ℕ} (hp : p.toMv ≠ 0) (hb0 : b.toMv ≠ 0)
    (hb : ¬IsUnit b.toMv) (hn : p.totalDegree ≤ n) : ¬b.toMv ∣ (divideOut b n p).1.toMv := by
  have hnumber : ∀ q : Poly, q.toMv ≠ 0 → q.isNumber = true → ¬b.toMv ∣ q.toMv := fun q hq hn h =>
    hb (isUnit_of_dvd_unit h ((isUnit_iff_isNumber hq).2 hn))
  induction n generalizing p with
  | zero => exact hnumber p hp (isNumber_iff_totalDegree.2 (Nat.le_zero.1 hn))
  | succ n ih =>
    rw [divideOut]
    split_ifs with hnum
    · exact hnumber p hp hnum
    · split
      · rename_i hnone
        intro h
        obtain ⟨q, hq⟩ := exists_divExact? hb0 h
        rw [hnone] at hq
        cases hq
      · rename_i q hq
        have hmul := (toMv_of_divExact? hq).2
        have hdeg := totalDegree_of_mul hp hmul
        have hpos := totalDegree_pos hb0 hb
        exact ih (left_ne_zero_of_mul (hmul ▸ hp)) (by omega)

/-- Dividing out one element of a coprime basis leaves a product over the others. -/
theorem divideOut_mem_productsOver {bs : List Poly} (hbs : CoprimeIn s (b :: bs))
    (hp0 : p.toMv ≠ 0) (hp : p.toMv ∈ productsOver (b :: bs)) :
    (divideOut b p.totalDegree p).1.toMv ∈ productsOver bs := by
  have hb := hbs.nonzeroIn (.head _)
  have hunit := hbs.not_isUnit b (.head _)
  obtain ⟨k, Q, hQ, hpQ⟩ := exists_pow_mul_of_mem_productsOver hp
  have hrel := isRelPrime_of_mem_productsOver (List.pairwise_cons.1 hbs.pairwise).1 hQ
  have hndQ : ¬b.toMv ∣ Q := fun h => hunit (hrel dvd_rfl h)
  have hnd := not_dvd_divideOut hp0 hb.ne_zero hunit le_rfl
  have hpq := toMv_divideOut b p.totalDegree p
  generalize (divideOut b p.totalDegree p).1.toMv = q at *
  generalize (divideOut b p.totalDegree p).2 = m at *
  have hpow : ∀ k, b.toMv ^ k ≠ 0 := fun k => pow_ne_zero k hb.ne_zero
  rw [hpQ, mul_comm q] at hpq
  -- the exponents agree, since neither cofactor can be divided any further
  rcases lt_trichotomy k m with h | rfl | h
  · obtain ⟨e, rfl⟩ := Nat.exists_eq_add_of_lt h
    refine absurd ⟨b.toMv ^ e * q, mul_left_cancel₀ (hpow k) ?_⟩ hndQ
    rw [hpq]
    ring
  · rwa [← mul_left_cancel₀ (hpow k) hpq]
  · obtain ⟨e, rfl⟩ := Nat.exists_eq_add_of_lt h
    refine absurd ⟨b.toMv ^ e * Q, mul_left_cancel₀ (hpow m) ?_⟩ hnd
    rw [← hpq]
    ring

theorem toMv_divideOutAll {B : ℕ → MvPolynomial ℕ ℚ} {i : ℕ}
    (hB : ∀ j c, bs[j]? = some c → B (i + j) = c.toMv) (p : Poly) :
    p.toMv = (divideOutAll i p bs).1.toMv *
      ((divideOutAll i p bs).2.map fun m => B m.1 ^ m.2).prod := by
  induction bs generalizing i p with
  | nil => simp [divideOutAll]
  | cons b bs ih =>
    have hrest := ih (i := i + 1) (fun j c hc => by
      rw [add_right_comm]
      exact hB (j + 1) c hc) (divideOut b p.totalDegree p).1
    have hbi : B i = b.toMv := hB 0 b rfl
    rw [toMv_divideOut b p.totalDegree p]
    simp only [divideOutAll]
    split_ifs with hm
    · rw [hm, pow_zero, mul_one]
      exact hrest
    · rw [List.map_cons, List.prod_cons, hbi, mul_left_comm, ← hrest, mul_comm]

theorem exponent_ne_zero_of_mem_divideOutAll {i : ℕ} {m : ℕ × ℕ}
    (h : m ∈ (divideOutAll i p bs).2) : m.2 ≠ 0 := by
  induction bs generalizing i p with
  | nil => cases h
  | cons b bs ih =>
    simp only [divideOutAll] at h
    split_ifs at h with hm
    · exact ih h
    · rcases List.mem_cons.1 h with rfl | h
      · exact hm
      · exact ih h

theorem isUnit_divideOutAll {i : ℕ} (hbs : CoprimeIn s bs) (hp0 : p.toMv ≠ 0)
    (hp : p.toMv ∈ productsOver bs) : IsUnit (divideOutAll i p bs).1.toMv := by
  induction bs generalizing i p with
  | nil => exact isUnit_of_mem_productsOver_nil hp
  | cons b bs ih =>
    simp only [divideOutAll]
    refine ih (hbs.sublist (List.sublist_cons_self b bs)) (fun h0 => hp0 ?_)
      (divideOut_mem_productsOver hbs hp0 hp)
    rw [toMv_divideOut b p.totalDegree p, h0, zero_mul]

/-- The constant and the powers give back the polynomial. -/
theorem expressOver_spec {c : ℚ} {ms : List (ℕ × ℕ)} (h : expressOver bs p = .ok (c, ms)) :
    p.toMv = C c * (ms.map fun m => (bs.getD m.1 0).toMv ^ m.2).prod ∧ ∀ m ∈ ms, m.2 ≠ 0 := by
  simp only [expressOver] at h
  split_ifs at h with hn
  cases h
  have hprod := toMv_divideOutAll (B := fun j => (bs.getD j 0).toMv) (i := 0) (fun j c hc => by
    rw [zero_add, List.getD_eq_getElem?_getD, hc, Option.getD_some]) p
  rw [toMv_of_isNumber hn] at hprod
  exact ⟨hprod, fun m hm => exponent_ne_zero_of_mem_divideOutAll hm⟩

theorem returns_expressOver (hbs : CoprimeIn s bs) (hp0 : p.toMv ≠ 0)
    (hp : p.toMv ∈ productsOver bs) : Returns (expressOver bs p) fun _ => True := by
  have hunit : IsUnit (divideOutAll 0 p bs).1.toMv := isUnit_divideOutAll hbs hp0 hp
  have hnum := (isUnit_iff_isNumber hunit.ne_zero).1 hunit
  rw [expressOver]
  change Returns (if (divideOutAll 0 p bs).1.isNumber then _ else _) _
  rw [if_pos hnum]
  exact .ok trivial

end Poly

end Cylindrical

end
