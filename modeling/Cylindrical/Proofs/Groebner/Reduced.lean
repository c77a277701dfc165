import Mathlib
import Cylindrical.Proofs.Groebner.Completion
import Cylindrical.Proofs.Poly.Canonical

/-!
# Reduced Gröbner bases

Of a Gröbner basis the elements whose leading monomials are not multiples of others are a Gröbner basis
(`isGroebner_minimal`), and reducing each of them by the others keeps its leading monomial, although
the others are not reduced themselves (`leads_reduceBy_others`).  The reduced basis that results is
determined by the ideal and the order (`IsReduced.perm`), so it does not depend on the generators or on
how the basis is completed (`basis_reduced`).
-/

noncomputable section

open MvPolynomial

namespace Cylindrical

open Cylindrical.MonomialOrder

namespace Poly

variable {o : MonomialOrder} {basis : List Poly} {p f g : Poly} {l m : ℕ →₀ ℕ}

theorem leadingMonomial?_eq_some_iff {a : Monomial} (ho : p.order = o) :
    p.leadingMonomial? = some a ↔ ∃ d, Leads o p.toMv a.toFinsupp d := by
  constructor
  · intro h
    obtain ⟨t, ht, rfl⟩ := Option.map_eq_some_iff.1 h
    obtain ⟨ts, hts⟩ := List.head?_eq_some_iff.1 ht
    exact ⟨t.coeff, (leads_iff ho).2 ⟨t, ts, hts, rfl, rfl⟩⟩
  · rintro ⟨d, hl⟩
    obtain ⟨t, ts, ht, hm, -⟩ := (leads_iff ho).1 hl
    rw [leadingMonomial?, leadingTerm?, ht, List.head?_cons, Option.map_some,
      Monomial.toFinsupp_injective hm]

theorem monic_of_leads_one (ho : p.order = o) (h : Leads o p.toMv m 1) : p.monic = p := by
  obtain ⟨t, ts, ht, -, hc⟩ := (leads_iff ho).1 h
  have hlead : p.leadingCoeff = 1 := by
    rw [leadingCoeff, ht]
    exact hc
  rw [monic, isZero_eq_false_iff.2 h.poly_ne_zero, if_neg Bool.false_ne_true, hlead, inv_one,
    scale_one]

theorem order_normalForm_of_order (hb : ∀ g ∈ basis, g.order = o) (hp : p.order = o) :
    (normalForm basis p).order = o := by
  cases basis with
  | nil => exact (order_withOrder _ p).trans hp
  | cons g gs => exact order_normalForm hb (List.cons_ne_nil g gs) p

/-- Reduction keeps a leading term that no other leading exponents divide. -/
theorem leads_normalForm (hb : ∀ g ∈ basis, g.order = o) (hl : Leads o p.toMv l 1)
    (hirr : IrreducibleBy o basis l) : Leads o (normalForm basis p).toMv l 1 := by
  obtain ⟨hmem, hsupp⟩ := normalForm_spec hb hl.below
  refine ⟨?_, one_ne_zero, fun n hn => (hsupp n hn).1⟩
  have hzero : (p.toMv - (normalForm basis p).toMv).coeff l = 0 := by
    by_contra hne
    obtain ⟨-, ⟨g, hg, rfl⟩, k, l', d, hl', hS, hle⟩ :=
      exists_of_mem_support hmem (mem_support_iff.2 hne)
    exact hirr g hg l' d hl' (eq_of_upTo hS hle ▸ le_add_self)
  rw [coeff_sub, hl.coeff, sub_eq_zero] at hzero
  exact hzero.symm

end Poly

namespace Groebner

open Cylindrical.Poly

variable {o : MonomialOrder} {I : Ideal (MvPolynomial ℕ ℚ)} {basis : List Poly} {f g h : Poly}
  {i j : ℕ} {m n : Monomial}

/-! ## Minimal bases -/

theorem isRedundant_iff : isRedundant basis i m = true ↔ ∃ j h n, basis[j]? = some h ∧
    h.leadingMonomial? = some n ∧ j ≠ i ∧ n.toFinsupp ≤ m.toFinsupp ∧ (n ≠ m ∨ j < i) := by
  have hdvd : ∀ n : Monomial, (m.div? n).isSome = true ↔ n.toFinsupp ≤ m.toFinsupp := fun n => by
    rw [← not_iff_not, Bool.not_eq_true, Option.isSome_eq_false_iff, Option.isNone_iff_eq_none,
      Monomial.div?_eq_none_iff]
  rw [isRedundant, List.any_eq_true]
  constructor
  · rintro ⟨⟨h, j⟩, hmem, hred⟩
    have hj := List.mem_zipIdx_iff_getElem?.1 hmem
    cases hn : h.leadingMonomial? with
    | none => simp [hn] at hred
    | some n =>
      simp only [hn, Bool.and_eq_true, Bool.or_eq_true, bne_iff_ne, decide_eq_true_eq,
        hdvd] at hred
      exact ⟨j, h, n, hj, hn, hred.1.1, hred.1.2, hred.2⟩
  · rintro ⟨j, h, n, hj, hn, hne, hle, hcase⟩
    refine ⟨(h, j), List.mem_zipIdx_iff_getElem?.2 hj, ?_⟩
    simp only [hn, Bool.and_eq_true, Bool.or_eq_true, bne_iff_ne, decide_eq_true_eq, hdvd]
    exact ⟨⟨hne, hle⟩, hcase⟩

/-- The element at this place is kept. -/
def Kept (basis : List Poly) (gi : Poly × ℕ) : Prop :=
  ∃ m, gi.1.leadingMonomial? = some m ∧ isRedundant basis gi.2 m = false

theorem minimal_eq (basis : List Poly) :
    ∃ kept : List (Poly × ℕ), minimal basis = kept.map (·.1) ∧
      (∀ gi ∈ kept, Kept basis gi) ∧ kept.Sublist basis.zipIdx ∧
      ∀ gi ∈ basis.zipIdx, Kept basis gi → gi ∈ kept := by
  obtain ⟨P, hP, hiff⟩ : ∃ P : Poly × ℕ → Bool,
      minimal basis = (basis.zipIdx.filter P).map (·.1) ∧
      ∀ gi, P gi = true ↔ Kept basis gi := by
    refine ⟨_, rfl, fun gi => ?_⟩
    rw [Kept]
    dsimp only
    cases gi.1.leadingMonomial? with
    | none => simp
    | some m => simp
  exact ⟨_, hP, fun gi hgi => (hiff gi).1 (List.mem_filter.1 hgi).2, List.filter_sublist,
    fun gi hgi hk => List.mem_filter.2 ⟨hgi, (hiff gi).2 hk⟩⟩

theorem mem_of_mem_minimal (h : g ∈ minimal basis) : g ∈ basis := by
  obtain ⟨kept, heq, -, hsub, -⟩ := minimal_eq basis
  rw [heq] at h
  obtain ⟨⟨g, i⟩, hgi, rfl⟩ := List.mem_map.1 h
  exact (List.mem_zipIdx' (hsub.subset hgi)).2 ▸ List.getElem_mem _

theorem degree_lt_of_le (hle : n.toFinsupp ≤ m.toFinsupp) (hne : n ≠ m) :
    n.toFinsupp.degree < m.toFinsupp.degree := by
  obtain ⟨k, hk⟩ := exists_add_of_le hle
  have hk0 : k ≠ 0 := fun h0 => hne (Monomial.toFinsupp_injective (by rw [hk, h0, add_zero]))
  rw [hk, map_add]
  exact Nat.lt_add_of_pos_right (Nat.pos_of_ne_zero fun h0 => hk0 (k.degree_eq_zero_iff.1 h0))

/-- A leading monomial of the basis is a multiple of one that is kept: a divisor has a smaller degree
or comes earlier. -/
theorem exists_mem_minimal {i : ℕ} {g : Poly} {m : Monomial} (hg : basis[i]? = some g)
    (hm : g.leadingMonomial? = some m) :
    ∃ h ∈ minimal basis, ∃ n, h.leadingMonomial? = some n ∧ n.toFinsupp ≤ m.toFinsupp := by
  cases hr : isRedundant basis i m with
  | false =>
    obtain ⟨kept, heq, -, -, hkept⟩ := minimal_eq basis
    refine ⟨g, ?_, m, hm, le_rfl⟩
    rw [heq]
    exact List.mem_map.2 ⟨(g, i), hkept _ (List.mem_zipIdx_iff_getElem?.2 hg) ⟨m, hm, hr⟩, rfl⟩
  | true =>
    obtain ⟨j, h, n, hj, hn, -, hle, hcase⟩ := isRedundant_iff.1 hr
    obtain ⟨k, hk, q, hq, hle'⟩ := exists_mem_minimal hj hn
    exact ⟨k, hk, q, hq, hle'.trans hle⟩
termination_by (m.toFinsupp.degree, i)
decreasing_by
  by_cases hnm : n = m
  · subst hnm
    exact Prod.Lex.right _ (hcase.resolve_left fun hne => hne rfl)
  · exact Prod.Lex.left _ _ (degree_lt_of_le hle hnm)

/-- No leading monomial that is kept divides another one. -/
theorem pairwise_minimal (basis : List Poly) : (minimal basis).Pairwise fun g h => ∀ m n,
    g.leadingMonomial? = some m → h.leadingMonomial? = some n →
      ¬m.toFinsupp ≤ n.toFinsupp ∧ ¬n.toFinsupp ≤ m.toFinsupp := by
  obtain ⟨kept, heq, hkept, hsub, -⟩ := minimal_eq basis
  have hplaces : basis.zipIdx.Pairwise fun a b => a.2 < b.2 :=
    List.pairwise_iff_getElem.2 fun i j hi hj hij => by simpa using hij
  rw [heq, List.pairwise_map]
  refine (hplaces.sublist hsub).imp_of_mem ?_
  rintro ⟨g, i⟩ ⟨h, j⟩ ha hb hij m n hm hn
  have hg := List.mem_zipIdx_iff_getElem?.1 (hsub.subset ha)
  have hh := List.mem_zipIdx_iff_getElem?.1 (hsub.subset hb)
  obtain ⟨m', hm', hgk⟩ := hkept _ ha
  obtain ⟨n', hn', hhk⟩ := hkept _ hb
  obtain rfl := Option.some.inj (hm.symm.trans hm')
  obtain rfl := Option.some.inj (hn.symm.trans hn')
  -- the later one would be left out for an equal or smaller monomial, the earlier one for a smaller
  have hmn : ¬m.toFinsupp ≤ n.toFinsupp := fun hle =>
    Bool.false_ne_true (hhk.symm.trans
      (isRedundant_iff.2 ⟨i, g, m, hg, hm, hij.ne, hle, .inr hij⟩))
  refine ⟨hmn, fun hle => ?_⟩
  by_cases he : n = m
  · exact hmn (he ▸ le_rfl)
  · exact Bool.false_ne_true (hgk.symm.trans
      (isRedundant_iff.2 ⟨j, h, n, hh, hn, hij.ne', hle, .inl he⟩))

theorem not_le_of_minimal (ho : ∀ g ∈ basis, g.order = o) {l l' : ℕ →₀ ℕ} {d d' : ℚ}
    (hf : (minimal basis)[i]? = some f) (hg : (minimal basis)[j]? = some g) (hij : i ≠ j)
    (hl : Leads o f.toMv l d) (hl' : Leads o g.toMv l' d') : ¬l ≤ l' := by
  have hlead : ∀ {i : ℕ} {f : Poly} {l d}, (minimal basis)[i]? = some f → Leads o f.toMv l d →
      ∃ m : Monomial, m.toFinsupp = l ∧ f.leadingMonomial? = some m := fun {i f l d} hf hl => by
    obtain ⟨m, rfl⟩ := Monomial.toFinsupp_surjective l
    have hof := ho f (mem_of_mem_minimal (List.mem_of_getElem? hf))
    exact ⟨m, rfl, (leadingMonomial?_eq_some_iff hof).2 ⟨d, hl⟩⟩
  obtain ⟨m, rfl, hm⟩ := hlead hf hl
  obtain ⟨n, rfl, hn⟩ := hlead hg hl'
  obtain ⟨hi, rfl⟩ := List.getElem?_eq_some_iff.1 hf
  obtain ⟨hj, rfl⟩ := List.getElem?_eq_some_iff.1 hg
  have hpairs := List.pairwise_iff_getElem.1 (pairwise_minimal basis)
  rcases hij.lt_or_gt with hlt | hgt
  · exact (hpairs i j hi hj hlt m n hm hn).1
  · exact (hpairs j i hj hi hgt n m hn hm).2

theorem isGroebner_minimal (h : IsGroebner o I basis) : IsGroebner o I (minimal basis) where
  order g hg := h.order g (mem_of_mem_minimal hg)
  mem g hg := h.mem g (mem_of_mem_minimal hg)
  exists_le P hP m c hm := by
    obtain ⟨g, hg, l, d, hl, hle⟩ := h.exists_le P hP m c hm
    obtain ⟨i, hi⟩ := List.mem_iff_getElem?.1 hg
    obtain ⟨a, rfl⟩ := Monomial.toFinsupp_surjective l
    obtain ⟨k, hk, n, hn, hle'⟩ :=
      exists_mem_minimal hi ((leadingMonomial?_eq_some_iff (h.order g hg)).2 ⟨d, hl⟩)
    obtain ⟨e, he⟩ :=
      (leadingMonomial?_eq_some_iff (h.order k (mem_of_mem_minimal hk))).1 hn
    exact ⟨k, hk, n.toFinsupp, e, he, hle'.trans hle⟩

/-! ## Reduced bases -/

/-- A Gröbner basis of monic polynomials, none of which is a number, with no monomial divisible by the
leading monomial of another element. -/
structure IsReduced (o : MonomialOrder) (I : Ideal (MvPolynomial ℕ ℚ)) (basis : List Poly) : Prop
    extends IsGroebner o I basis where
  monic : ∀ g ∈ basis, IsMonic o g
  reduced : ∀ (i j : ℕ) (f g : Poly), basis[i]? = some f → basis[j]? = some g → i ≠ j →
    ∀ m ∈ f.toMv.support, ∀ l d, Leads o g.toMv l d → ¬l ≤ m

/-- The element number `i` reduced by the others. -/
def reducedAt (basis : List Poly) (i : ℕ) (g : Poly) : Poly :=
  (normalForm (basis.eraseIdx i) g).monic

theorem getElem?_interReduce (basis : List Poly) (i : ℕ) : (interReduce basis)[i]? =
    (minimal basis)[i]?.map (reducedAt (minimal basis) i) := by
  rw [interReduce]
  simp only [List.getElem?_map, List.getElem?_zipIdx, Option.map_map, zero_add]
  rfl

theorem mem_eraseIdx_of_ne {j : ℕ} (hj : basis[j]? = some h) (hij : i ≠ j) :
    h ∈ basis.eraseIdx i := by
  rw [List.mem_eraseIdx_iff_getElem?]
  exact ⟨j, hij.symm, hj⟩

/-- Reduction by the others keeps the leading term, and leaves nothing that they reduce. -/
theorem reducedAt_spec (h : IsGroebner o I basis) (hmonic : ∀ g ∈ basis, IsMonic o g)
    (hg : (minimal basis)[i]? = some g) :
    (reducedAt (minimal basis) i g).order = o ∧ (reducedAt (minimal basis) i g).toMv ∈ I ∧
      (∃ l, l ≠ 0 ∧ Leads o g.toMv l 1 ∧ Leads o (reducedAt (minimal basis) i g).toMv l 1) ∧
      ∀ m ∈ (reducedAt (minimal basis) i g).toMv.support,
        IrreducibleBy o ((minimal basis).eraseIdx i) m := by
  have hmin := isGroebner_minimal h
  have hmem : g ∈ minimal basis := List.mem_of_getElem? hg
  have hothers : ∀ k ∈ (minimal basis).eraseIdx i, k.order = o := fun k hk =>
    hmin.order k (List.mem_of_mem_eraseIdx hk)
  obtain ⟨ho, l, hl0, hl⟩ := hmonic g (mem_of_mem_minimal hmem)
  have hirr : IrreducibleBy o ((minimal basis).eraseIdx i) l := fun k hk l' d hl' hle => by
    obtain ⟨j, hji, hj⟩ := List.mem_eraseIdx_iff_getElem?.1 hk
    exact not_le_of_minimal h.order hj hg hji hl' hl hle
  have hlead := leads_normalForm hothers hl hirr
  have horder := order_normalForm_of_order hothers ho
  rw [reducedAt, monic_of_leads_one horder hlead]
  refine ⟨horder, ?_, ⟨l, hl0, hl, hlead⟩, fun m hm =>
    ((normalForm_spec hothers hl.below).2 m hm).2⟩
  have hsub := idealOf_le (I := I) (fun k hk => hmin.mem k (List.mem_of_mem_eraseIdx hk))
    (sub_normalForm_mem_idealOf ((minimal basis).eraseIdx i) g)
  have := I.sub_mem (hmin.mem g hmem) hsub
  rwa [sub_sub_cancel] at this

theorem isReduced_interReduce (h : IsGroebner o I basis) (hmonic : ∀ g ∈ basis, IsMonic o g) :
    IsReduced o I (interReduce basis) := by
  have hget : ∀ {i r}, (interReduce basis)[i]? = some r →
      ∃ g, (minimal basis)[i]? = some g ∧ reducedAt (minimal basis) i g = r := fun {i r} hr => by
    rw [getElem?_interReduce] at hr
    exact Option.map_eq_some_iff.1 hr
  have hmem : ∀ {r}, r ∈ interReduce basis →
      ∃ i g, (minimal basis)[i]? = some g ∧ reducedAt (minimal basis) i g = r := fun hr => by
    obtain ⟨i, hi⟩ := List.mem_iff_getElem?.1 hr
    exact ⟨i, hget hi⟩
  refine ⟨⟨fun r hr => ?_, fun r hr => ?_, fun P hP m c hm => ?_⟩, fun r hr => ?_,
    fun i j r s hr hs hij m hm l d hl => ?_⟩
  · obtain ⟨i, g, hg, rfl⟩ := hmem hr
    exact (reducedAt_spec h hmonic hg).1
  · obtain ⟨i, g, hg, rfl⟩ := hmem hr
    exact (reducedAt_spec h hmonic hg).2.1
  · obtain ⟨g, hg, l, d, hl, hle⟩ := (isGroebner_minimal h).exists_le P hP m c hm
    obtain ⟨i, hi⟩ := List.mem_iff_getElem?.1 hg
    obtain ⟨-, -, ⟨l', -, hl', hlead⟩, -⟩ := reducedAt_spec h hmonic hi
    obtain ⟨rfl, -⟩ := hl.unique hl'
    refine ⟨_, List.mem_of_getElem? (i := i) ?_, l, 1, hlead, hle⟩
    rw [getElem?_interReduce, hi, Option.map_some]
  · obtain ⟨i, g, hg, rfl⟩ := hmem hr
    obtain ⟨ho, -, ⟨l, hl0, -, hlead⟩, -⟩ := reducedAt_spec h hmonic hg
    exact ⟨ho, l, hl0, hlead⟩
  · obtain ⟨f, hf, rfl⟩ := hget hr
    obtain ⟨g, hg, rfl⟩ := hget hs
    obtain ⟨-, -, -, hirr⟩ := reducedAt_spec h hmonic hf
    obtain ⟨-, -, ⟨l', -, hl', hlead⟩, -⟩ := reducedAt_spec h hmonic hg
    obtain ⟨rfl, -⟩ := hl.unique hlead
    exact hirr m hm g (mem_eraseIdx_of_ne hg hij) l 1 hl'

/-! ## Uniqueness -/

namespace IsReduced

variable {bs cs : List Poly}

/-- An element whose leading exponents divide exponents of another one is the other one. -/
theorem eq_of_le (h : IsReduced o I bs) (hf : f ∈ bs) (hg : g ∈ bs) {m l : ℕ →₀ ℕ} {d : ℚ}
    (hm : m ∈ f.toMv.support) (hl : Leads o g.toMv l d) (hle : l ≤ m) : g = f := by
  obtain ⟨i, hi⟩ := List.mem_iff_getElem?.1 hf
  obtain ⟨j, hj⟩ := List.mem_iff_getElem?.1 hg
  by_cases hij : i = j
  · subst hij
    exact Option.some.inj (hj.symm.trans hi)
  · exact absurd hle (h.reduced i j f g hi hj hij m hm l d hl)

/-- Below its leading exponents an element is irreducible. -/
theorem not_le (h : IsReduced o I bs) (hf : f ∈ bs) (hg : g ∈ bs) {m n l : ℕ →₀ ℕ} {c d : ℚ}
    (hn : Leads o f.toMv n c) (hm : m ∈ f.toMv.support) (hmn : m ≠ n) (hl : Leads o g.toMv l d) :
    ¬l ≤ m := fun hle => by
  obtain rfl := h.eq_of_le hf hg hm hl hle
  obtain ⟨rfl, -⟩ := hl.unique hn
  exact hmn (eq_of_upTo (hn.below m hm) (mem_upTo_of_le hle))

theorem mem_of_mem (h : IsReduced o I bs) (h' : IsReduced o I cs) (hg : g ∈ bs) : g ∈ cs := by
  obtain ⟨ho, n, -, hn⟩ := h.monic g hg
  obtain ⟨g', hg', n', d, hn', hle⟩ := h'.exists_le _ (h.mem g hg) _ _ hn
  obtain ⟨g'', hg'', n'', d'', hn'', hle'⟩ := h.exists_le _ (h'.mem g' hg') _ _ hn'
  -- the leading exponents agree, since those of `g''` divide those of `g`
  obtain rfl := h.eq_of_le hg hg'' hn.mem_support hn'' (hle'.trans hle)
  obtain ⟨rfl, -⟩ := hn''.unique hn
  obtain rfl := le_antisymm hle hle'
  obtain ⟨ho', l, -, hl⟩ := h'.monic g' hg'
  obtain ⟨rfl, rfl⟩ := hn'.unique hl
  have heq : g''.toMv - g'.toMv = 0 := by
    by_contra hne
    obtain ⟨m, c, hm⟩ := Cylindrical.exists_leads o hne
    have hmn : m.toFinsupp ≠ n' := fun he =>
      ExponentLT.irrefl o n' (he ▸ hn.sub_below hl _ hm.mem_support)
    have hI := I.sub_mem (h.mem _ hg) (h'.mem _ hg')
    rcases Finset.mem_union.1 (support_sub _ _ _ hm.mem_support) with hmem | hmem
    · obtain ⟨k, hk, l, d, hlk, hle⟩ := h.exists_le _ hI _ _ hm
      exact h.not_le hg hk hn hmem hmn hlk hle
    · obtain ⟨k, hk, l, d, hlk, hle⟩ := h'.exists_le _ hI _ _ hm
      exact h'.not_le hg' hk hl hmem hmn hlk hle
  rw [eq_of_toMv_eq (ho.trans ho'.symm) (sub_eq_zero.1 heq)]
  exact hg'

theorem nodup (h : IsReduced o I bs) : bs.Nodup := by
  refine List.nodup_iff_getElem?_ne_getElem?.2 fun i j hij hj he => ?_
  obtain ⟨g, hg⟩ : ∃ g, bs[j]? = some g := ⟨_, List.getElem?_eq_getElem hj⟩
  obtain ⟨-, l, -, hl⟩ := h.monic g (List.mem_of_getElem? hg)
  exact h.reduced i j g g (he.trans hg) hg hij.ne l hl.mem_support l 1 hl le_rfl

/-- The reduced basis is determined by the ideal and the order. -/
theorem perm (h : IsReduced o I bs) (h' : IsReduced o I cs) : bs.Perm cs :=
  (List.perm_ext_iff_of_nodup h.nodup h'.nodup).2 fun _ => ⟨h.mem_of_mem h', h'.mem_of_mem h⟩

theorem ne_top (h : IsReduced o I bs) : I ≠ ⊤ := by
  rintro rfl
  obtain ⟨g, hg, l, d, hl, hle⟩ :=
    h.exists_le (C 1) Submodule.mem_top 0 1 (Leads.const one_ne_zero)
  obtain ⟨-, n, hn0, hn⟩ := h.monic g hg
  obtain ⟨rfl, -⟩ := hl.unique hn
  exact hn0 (nonpos_iff_eq_zero.1 hle)

end IsReduced

/-! ## The basis of an ideal -/

variable {config config' : Config} {ps qs bs cs : List Poly} {s t s' t' : Stats}

theorem isGroebner_one : IsGroebner .grLex ⊤ [1] where
  order := List.forall_mem_singleton.2 rfl
  mem _ _ := Submodule.mem_top
  exists_le P _ m c _ := ⟨1, .head _, 0, 1, by
    rw [toMv_one, ← C_1]
    exact Leads.const one_ne_zero, zero_le⟩

/-- The generators that completion starts from. -/
def prepared (o : MonomialOrder) (ps : List Poly) : List Poly :=
  (ps.filter fun p => !p.isZero).map fun p => (p.withOrder o).monic

theorem idealOf_prepared (o : MonomialOrder) (ps : List Poly) :
    idealOf (prepared o ps) = idealOf ps := by
  refine le_antisymm (idealOf_le (List.forall_mem_map.2 fun p hp => ?_)) (idealOf_le fun p hp => ?_)
  · refine monic_mem_idealOf ?_
    rw [toMv_withOrder]
    exact mem_idealOf (List.mem_filter.1 hp).1
  · cases hz : p.isZero with
    | true =>
      rw [toMv_eq_zero_of_isZero hz]
      exact Submodule.zero_mem _
    | false =>
      rw [← toMv_withOrder o p, toMv_monic]
      refine Ideal.mul_mem_left _ _
        (mem_idealOf (List.mem_map.2 ⟨p, List.mem_filter.2 ⟨hp, ?_⟩, rfl⟩))
      rw [hz]
      rfl

theorem isMonic_of_mem_prepared (hg : g ∈ prepared o ps) (hc : ¬g.isConstant = true) :
    IsMonic o g := by
  obtain ⟨p, hp, rfl⟩ := List.mem_map.1 hg
  have h0 : (p.withOrder o).toMv ≠ 0 := by
    rw [toMv_withOrder]
    exact isZero_eq_false_iff.1 (by simpa using (List.mem_filter.1 hp).2)
  refine isMonic_monic (order_withOrder o p) h0 fun hconst => hc ?_
  obtain ⟨c, hc0, hcp⟩ := isConstant_iff.1 hconst
  have hlead : Leads o (p.withOrder o).toMv 0 c := hcp ▸ Leads.const hc0
  exact isConstant_iff.2
    ⟨1, one_ne_zero, eq_C_of_leads_zero (leads_monic (order_withOrder o p) hlead)⟩

/-- The unit ideal has the basis `[1]`, every other one a reduced basis. -/
theorem basis_cases (h : Groebner.basis config o ps s = .ok bs t) :
    bs = [1] ∧ idealOf ps = ⊤ ∨ IsReduced o (idealOf ps) bs := by
  have hideal := (preserved_idealOf ps).basis (fun p hp => mem_idealOf hp) h
  have htop : bs = [1] → idealOf ps = ⊤ := fun hbs => by
    refine (Ideal.eq_top_iff_one _).2 ?_
    rw [← toMv_one]
    exact hideal 1 (hbs ▸ .head _)
  rw [Groebner.basis] at h
  generalize hgs : ((ps.filter fun g => !g.isZero).map fun g => (g.withOrder o).monic) = gs at h
  obtain rfl : prepared o ps = gs := hgs
  dsimp only at h
  split_ifs at h with hconst
  · obtain ⟨rfl, -⟩ := run_pure_eq_ok h
    exact .inl ⟨rfl, htop rfl⟩
  · obtain ⟨r, u, hr, h⟩ := run_bind_eq_ok h
    split at h
    · obtain ⟨rfl, -⟩ := run_pure_eq_ok h
      exact .inl ⟨rfl, htop rfl⟩
    · rename_i gs
      obtain ⟨rfl, -⟩ := run_pure_eq_ok h
      have hmonic : ∀ g ∈ prepared o ps, IsMonic o g := fun g hg =>
        isMonic_of_mem_prepared hg fun hc => hconst (List.any_eq_true.2 ⟨g, hg, hc⟩)
      obtain ⟨hdone, hkeep⟩ := complete_spec (n := max (prepared o ps).length config.maxBasisSize)
        (.start hmonic) (le_max_right _ _) (le_max_left _ _)
        (by
          have := length_allPairs_le (prepared o ps).length
          rw [List.size_toArray]
          omega) hr
      have hgens : idealOf gs.toList = idealOf ps := by
        refine le_antisymm (idealOf_le ?_) ?_
        · refine (preserved_idealOf ps).complete (fun b hb => ?_) hr
          rw [← idealOf_prepared o ps]
          exact mem_idealOf (List.mem_toArray.1 hb)
        · rw [← idealOf_prepared o ps]
          exact idealOf_le fun p hp => mem_idealOf (hkeep p hp)
      exact .inr (isReduced_interReduce (hgens ▸ hdone.isGroebner) hdone.monic)

end Groebner

end Cylindrical

end
