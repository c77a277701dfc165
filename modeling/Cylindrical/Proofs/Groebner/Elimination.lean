import Mathlib
import Cylindrical.Proofs.Formula.Prenex
import Cylindrical.Proofs.Groebner.NormalForm
import Cylindrical.Proofs.Groebner.Renaming
import Cylindrical.Proofs.Sign

/-!
# Reduction and elimination

The basis of an ideal and the reduction by it rename the variables each for itself, by the variables
that occur.  Both renamings put them in one order (`rank_lt_rank_iff`), so that the renamed basis is a
Gröbner basis for the reduction too (`isGroebner_apply`).  Hence the result of the reduction is zero
exactly on the ideal and is a multiple of the polynomial modulo the ideal, with the sign that is
recorded; and in the lexicographic order the members of the basis without the most significant variables
generate what the ideal contains without them (`reduce_groebnerBasis`).
-/

noncomputable section

open MvPolynomial

namespace Cylindrical

open Cylindrical.MonomialOrder

namespace Poly

/-! ## The lexicographic order -/

section Lexicographic

variable {basis : List Poly} {I : Ideal (MvPolynomial ℕ ℚ)} {P : MvPolynomial ℕ ℚ} {N : ℕ}
  {m n : ℕ →₀ ℕ}

/-- Smaller exponents have no more significant variables. -/
theorem mem_within_of_upTo_lex (hn : n ∈ within (Set.Iio N)) (h : m ∈ MonomialOrder.lex.upTo n) :
    m ∈ within (Set.Iio N) := by
  rcases h with rfl | ⟨v, hv, hw⟩
  · exact hn
  · have hvN : v < N := hn (Finsupp.mem_support_iff.2 (Nat.ne_zero_of_lt hv))
    intro w hwm
    by_contra hNw
    have hw0 : n w = 0 := Finsupp.notMem_support_iff.1 fun h => hNw (hn h)
    exact Finsupp.mem_support_iff.1 hwm ((hw w (hvN.trans_le (not_lt.1 hNw))).trans hw0)

/-- Members of the ideal without significant variables are sums of multiples by polynomials without
them of members of the basis without them. -/
theorem IsGroebner.exists_sum_of_within (h : IsGroebner .lex I basis) (hP : P ∈ I)
    (hPN : P ∈ supported ℚ (Set.Iio N)) :
    ∃ q : Fin basis.length → MvPolynomial ℕ ℚ, P = ∑ i, q i * (basis.get i).toMv ∧
      ∀ i, q i * (basis.get i).toMv ≠ 0 → q i ∈ supported ℚ (Set.Iio N) ∧
        (basis.get i).toMv ∈ supported ℚ (Set.Iio N) := by
  by_cases h0 : P = 0
  · exact ⟨0, by simp [h0], by simp⟩
  obtain ⟨n, c, hn⟩ := Cylindrical.exists_leads .lex h0
  obtain ⟨q, hsum, hq⟩ := exists_sum_of_mem_multiples (h.mem_multiples hP hn.below)
  refine ⟨q, hsum, fun i hi => ?_⟩
  obtain ⟨k, a, hk⟩ := Cylindrical.exists_leads .lex (left_ne_zero_of_mul hi)
  obtain ⟨l, d, hl⟩ := Cylindrical.exists_leads .lex (right_ne_zero_of_mul hi)
  have hwithin : ∀ k ∈ (q i).support, k + l.toFinsupp ∈ within (Set.Iio N) := fun k hk =>
    mem_within_of_upTo_lex (mem_within_of_mem_supported hPN hn.mem_support) (hq i k hk _ d hl)
  exact ⟨mem_supported_of_within fun k hk => (add_mem_within_iff.1 (hwithin k hk)).1,
    mem_supported_of_within fun m hm => mem_within_of_upTo_lex
      (add_mem_within_iff.1 (hwithin _ hk.mem_support)).2 (hl.below m hm)⟩

end Lexicographic

end Poly

/-! ## The order of the variables -/

namespace VariableOrder

variable {ranked : List ℕ} {ps qs : List Poly} {block r v w : ℕ}

theorem mem_others_iff :
    v ∈ (ofPolys ranked ps).others ↔ v ∉ ranked ∧ ∃ p ∈ ps, v ∈ p.toMv.vars := by
  refine ⟨fun h => ?_, fun ⟨hr, p, hp, hv⟩ => mem_others hp hv hr⟩
  have hfold : ∀ (qs : List Poly) (vs : List ℕ),
      v ∈ qs.foldl (fun vs p => (p.vars.filter fun v => !ranked.contains v).foldl
        (fun vs v => Poly.insertVar v vs) vs) vs →
      v ∈ vs ∨ v ∉ ranked ∧ ∃ p ∈ qs, v ∈ p.toMv.vars := fun qs => by
    induction qs with
    | nil => exact fun vs h => .inl h
    | cons q qs ih =>
      intro vs h
      rcases ih _ h with h | ⟨hr, p, hp, hv⟩
      · rw [Poly.mem_foldl_insertVar, List.mem_filter] at h
        rcases h with ⟨hv, hr⟩ | h
        · exact .inr ⟨by simpa using hr, q, .head _, Poly.mem_vars_iff.1 hv⟩
        · exact .inl h
      · exact .inr ⟨hr, p, .tail _ hp, hv⟩
  exact (hfold ps [] h).resolve_left List.not_mem_nil

theorem pairwise_others (ranked : List ℕ) (ps : List Poly) :
    (ofPolys ranked ps).others.Pairwise (· < ·) :=
  List.foldlRecOn ps _ .nil fun _ hus _ _ => Formula.pairwise_foldl_insertVar _ hus

/-- The first variable is less significant: both are ranked, in this order from the least significant
one up, or the second alone is, or neither is and the first one is smaller. -/
def Below (ranked : List ℕ) (v w : ℕ) : Prop :=
  match ranked.reverse.idxOf? v, ranked.reverse.idxOf? w with
  | some i, some j => i < j
  | some _, none => False
  | none, some _ => True
  | none, none => v < w

/-- A ranked variable comes after all others, which are sorted. -/
theorem rank_cases (hv : v ∈ ranked ∨ ∃ p ∈ ps, v ∈ p.toMv.vars) :
    (∃ i, ranked.reverse.idxOf? v = some i ∧
      (ofPolys ranked ps).rank v = (ofPolys ranked ps).others.length + i) ∨
    ranked.reverse.idxOf? v = none ∧ ∃ k, (ofPolys ranked ps).others[k]? = some v ∧
      (ofPolys ranked ps).rank v = k := by
  generalize ho : ofPolys ranked ps = o
  obtain rfl : o.ranked = ranked := ho ▸ rfl
  cases hi : o.ranked.reverse.idxOf? v with
  | some i => exact .inl ⟨i, rfl, by rw [rank, hi]⟩
  | none =>
    have hr : v ∉ o.ranked := by simpa using List.idxOf?_eq_none_iff.1 hi
    have hmem : v ∈ o.others := ho ▸ mem_others_iff.2 ⟨hr, hv.resolve_left hr⟩
    obtain ⟨k, hk⟩ := Option.isSome_iff_exists.1 (List.isSome_idxOf?.2 hmem)
    obtain ⟨hlt, heq, -⟩ := List.idxOf?_eq_some_iff.1 hk
    exact .inr ⟨rfl, k, List.getElem?_eq_some_iff.2 ⟨hlt, heq⟩, by rw [rank, hi, hk]; rfl⟩

/-- The positions are ordered in a way that hangs on the ranked variables alone. -/
theorem rank_lt_rank_iff (hv : v ∈ ranked ∨ ∃ p ∈ ps, v ∈ p.toMv.vars)
    (hw : w ∈ ranked ∨ ∃ p ∈ ps, w ∈ p.toMv.vars) :
    (ofPolys ranked ps).rank v < (ofPolys ranked ps).rank w ↔ Below ranked v w := by
  rw [Below]
  rcases rank_cases hv with ⟨i, hi, hrv⟩ | ⟨hi, k, hk, hrv⟩ <;>
    rcases rank_cases hw with ⟨j, hj, hrw⟩ | ⟨hj, l, hl, hrw⟩ <;> rw [hi, hj, hrv, hrw]
  · exact Nat.add_lt_add_iff_left
  · have := (List.getElem?_eq_some_iff.1 hl).1
    exact iff_of_false (by omega) id
  · have := (List.getElem?_eq_some_iff.1 hk).1
    exact iff_of_true (by omega) trivial
  · obtain ⟨hklt, rfl⟩ := List.getElem?_eq_some_iff.1 hk
    obtain ⟨hllt, rfl⟩ := List.getElem?_eq_some_iff.1 hl
    have hsorted := List.pairwise_iff_getElem.1 (pairwise_others ranked ps)
    refine ⟨hsorted k l hklt hllt, fun hlt => ?_⟩
    rcases lt_trichotomy k l with h | rfl | h
    · exact h
    · exact absurd hlt (lt_irrefl _)
    · exact absurd (hlt.trans (hsorted l k hllt hklt h)) (lt_irrefl _)

/-- Two renamings order the variables that occur for both of them in one way. -/
theorem strictMonoOn_rank_unrank {W : Set ℕ} (hps : ∀ v ∈ W, ∃ p ∈ ps, v ∈ p.toMv.vars)
    (hqs : ∀ v ∈ W, ∃ q ∈ qs, v ∈ q.toMv.vars) :
    StrictMonoOn (fun r => (ofPolys ranked qs).rank ((ofPolys ranked ps).unrank r))
      ((ofPolys ranked ps).rank '' W) := by
  rintro - ⟨v, hv, rfl⟩ - ⟨w, hw, rfl⟩ hlt
  obtain ⟨p, hp, hvp⟩ := hps v hv
  obtain ⟨q, hq, hwq⟩ := hps w hw
  dsimp only
  rw [unrank_rank hp hvp, unrank_rank hq hwq, rank_lt_rank_iff (.inr (hqs v hv)) (.inr (hqs w hw))]
  exact (rank_lt_rank_iff (.inr ⟨p, hp, hvp⟩) (.inr ⟨q, hq, hwq⟩)).1 hlt

/-- The number of positions below those of the first `block` ranked variables. -/
def keptBelow (o : VariableOrder) (block : ℕ) : ℕ := o.others.length + (o.ranked.length - block)

theorem rank_lt_keptBelow (hv : v ∈ ranked ∨ ∃ p ∈ ps, v ∈ p.toMv.vars)
    (hblock : v ∉ ranked.take block) :
    (ofPolys ranked ps).rank v < (ofPolys ranked ps).keptBelow block := by
  rw [keptBelow]
  rcases rank_cases hv with ⟨i, hi, hrank⟩ | ⟨-, k, hk, hrank⟩
  · rw [hrank]
    refine Nat.add_lt_add_left ?_ _
    obtain ⟨hlt, heq, -⟩ := List.idxOf?_eq_some_iff.1 hi
    by_contra hge
    rw [List.getElem_reverse] at heq
    rw [List.length_reverse] at hlt
    change ¬i < ranked.length - block at hge
    exact hblock (List.mem_take_iff_getElem.2 ⟨ranked.length - 1 - i, by omega, heq⟩)
  · have := (List.getElem?_eq_some_iff.1 hk).1
    omega

theorem unrank_notMem_take (hranked : ranked.Nodup)
    (hr : r < (ofPolys ranked ps).keptBelow block) :
    (ofPolys ranked ps).unrank r ∉ ranked.take block := by
  rw [unrank]
  split_ifs with hlt
  · rw [List.getD_eq_getElem _ _ hlt]
    exact fun h => (mem_others_iff.1 (List.getElem_mem hlt)).1 (List.mem_of_mem_take h)
  · have hi : r - (ofPolys ranked ps).others.length < (ranked.drop block).length := by
      rw [List.length_drop]
      change r < _ + (ranked.length - block) at hr
      omega
    have hsplit : ranked.reverse = (ranked.drop block).reverse ++ (ranked.take block).reverse := by
      rw [← List.reverse_append, List.take_append_drop]
    change ranked.reverse.getD _ _ ∉ _
    rw [hsplit, List.getD_append _ _ _ _ (by rwa [List.length_reverse]),
      List.getD_eq_getElem _ _ (by rwa [List.length_reverse])]
    exact fun h => List.disjoint_take_drop hranked le_rfl h
      (List.mem_reverse.1 (List.getElem_mem _))

/-! ### Renamed polynomials -/

theorem toMv_apply (o : VariableOrder) (m : MonomialOrder) (p : Poly) :
    (o.apply m p).toMv = rename o.rank p.toMv := by
  rw [apply, Poly.toMv_withOrder, Poly.toMv_rename]

theorem toMv_undo (o : VariableOrder) (p : Poly) :
    (o.undo p).toMv = rename o.unrank p.toMv := by
  rw [undo, Poly.toMv_withOrder, Poly.toMv_rename]

theorem rename_unrank_rank {p : Poly} (hp : p ∈ ps) :
    rename (ofPolys ranked ps).unrank (rename (ofPolys ranked ps).rank p.toMv) = p.toMv := by
  rw [rename_rename]
  exact rename_eq_self fun v hv => unrank_rank hp hv

/-- The positions of a polynomial are those of the variables that it has when they are put back. -/
theorem mem_supported_rank_undo {g : Poly}
    (hg : g.toMv ∈ supported ℚ ((ofPolys ranked ps).rank '' {v | ∃ p ∈ ps, v ∈ p.toMv.vars})) :
    g.toMv ∈ supported ℚ
      ((ofPolys ranked ps).rank '' {v | v ∈ ((ofPolys ranked ps).undo g).toMv.vars}) := by
  have hback : rename (ofPolys ranked ps).rank ((ofPolys ranked ps).undo g).toMv = g.toMv := by
    rw [toMv_undo, rename_rename]
    refine rename_eq_self fun r hr => ?_
    obtain ⟨v, ⟨p, hp, hv⟩, rfl⟩ := mem_supported.1 hg (Finset.mem_coe.2 hr)
    rw [Function.comp_apply, unrank_rank hp hv]
  have happly := apply_mem_supported (ofPolys ranked ps) .lex
    (mem_supported.2 fun v hv => hv : ((ofPolys ranked ps).undo g).toMv ∈
      supported ℚ {v | v ∈ ((ofPolys ranked ps).undo g).toMv.vars})
  rwa [toMv_apply, hback] at happly

/-- Renamed polynomials generate the renamed ideal. -/
theorem idealOf_map {r : Poly → Poly} {σ : ℕ → ℕ} (h : ∀ p ∈ ps, (r p).toMv = rename σ p.toMv) :
    Poly.idealOf (ps.map r) = (Poly.idealOf ps).map (rename σ : MvPolynomial ℕ ℚ →ₐ[ℚ] _) := by
  rw [Poly.idealOf, Poly.idealOf, Ideal.map_span]
  exact congrArg Ideal.span (Poly.members_map h)

theorem idealOf_map_apply (o : VariableOrder) (m : MonomialOrder) (ps : List Poly) :
    Poly.idealOf (ps.map (o.apply m)) =
      (Poly.idealOf ps).map (rename o.rank : MvPolynomial ℕ ℚ →ₐ[ℚ] _) :=
  idealOf_map fun p _ => toMv_apply o m p

/-- Where the variables come back, so does the ideal. -/
theorem map_unrank_idealOf_apply (m : MonomialOrder) (hps : ∀ p ∈ ps, p ∈ qs) :
    (Poly.idealOf (ps.map ((ofPolys ranked qs).apply m))).map
      (rename (ofPolys ranked qs).unrank : MvPolynomial ℕ ℚ →ₐ[ℚ] _) = Poly.idealOf ps := by
  rw [← idealOf_map fun p _ => toMv_undo (ofPolys ranked qs) p, List.map_map]
  refine congrArg Ideal.span ?_
  change Poly.members _ = Poly.members ps
  rw [Poly.members_map (σ := id) fun p hp => ?_]
  · simp [rename_id]
  · rw [Function.comp_apply, toMv_undo, toMv_apply, rename_unrank_rank (hps p hp), rename_id_apply]

/-! ### Polynomials without a block of variables -/

/-- The ideal that the members of a list in the variables of `U` generate among the polynomials in
these. -/
def generatedIn (U : Set ℕ) (basis : List Poly) : Ideal (supported ℚ U) :=
  .span {Q | ∃ g ∈ basis, (Q : MvPolynomial ℕ ℚ) = g.toMv}

theorem exists_mem_generatedIn_sum {U : Set ℕ} {basis : List Poly} {ι : Type} [Fintype ι]
    {F : ι → MvPolynomial ℕ ℚ}
    (h : ∀ i, ∃ Q ∈ generatedIn U basis, (Q : MvPolynomial ℕ ℚ) = F i) :
    ∃ Q ∈ generatedIn U basis, (Q : MvPolynomial ℕ ℚ) = ∑ i, F i := by
  choose Q hQ heq using h
  refine ⟨∑ i, Q i, Ideal.sum_mem _ fun i _ => hQ i, ?_⟩
  rw [AddSubmonoidClass.coe_finsetSum]
  exact Finset.sum_congr rfl fun i _ => heq i

/-- Polynomials without the block have positions below those of the block. -/
theorem apply_mem_supported_Iio {p : Poly} {m : MonomialOrder} (hp : p ∈ ps)
    (hpU : p.toMv ∈ supported ℚ {v | v ∉ ranked.take block}) :
    ((ofPolys ranked ps).apply m p).toMv ∈
      supported ℚ (Set.Iio ((ofPolys ranked ps).keptBelow block)) := by
  refine supported_mono ?_ (apply_mem_supported (ofPolys ranked ps) m (mem_supported.2
    fun v hv => hv : p.toMv ∈ supported ℚ {v | v ∈ p.toMv.vars}))
  rintro - ⟨v, hv, rfl⟩
  exact rank_lt_keptBelow (.inr ⟨p, hp, hv⟩) (mem_supported.1 hpU (Finset.mem_coe.2 hv))

/-- A multiple of a renamed member, both without the block, is a multiple of the member when the
variables are put back. -/
theorem exists_mem_generatedIn_undo {basis : List Poly} {q : MvPolynomial ℕ ℚ} {g : Poly}
    {m : MonomialOrder} (hranked : ranked.Nodup) (hps : ∀ b ∈ basis, b ∈ ps)
    (hg : g ∈ basis.map ((ofPolys ranked ps).apply m))
    (h : q * g.toMv ≠ 0 → q ∈ supported ℚ (Set.Iio ((ofPolys ranked ps).keptBelow block)) ∧
      g.toMv ∈ supported ℚ (Set.Iio ((ofPolys ranked ps).keptBelow block))) :
    ∃ Q ∈ generatedIn {v | v ∉ ranked.take block} basis,
      (Q : MvPolynomial ℕ ℚ) = rename (ofPolys ranked ps).unrank (q * g.toMv) := by
  by_cases h0 : q * g.toMv = 0
  · exact ⟨0, Submodule.zero_mem _, by rw [h0, map_zero, ZeroMemClass.coe_zero]⟩
  have hback : ∀ {Q : MvPolynomial ℕ ℚ},
      Q ∈ supported ℚ (Set.Iio ((ofPolys ranked ps).keptBelow block)) →
        rename (ofPolys ranked ps).unrank Q ∈ supported ℚ {v | v ∉ ranked.take block} :=
    fun hQ => by
      refine supported_mono ?_ (rename_mem_supported hQ)
      rintro - ⟨r, hr, rfl⟩
      exact unrank_notMem_take hranked hr
  obtain ⟨hq, hgN⟩ := h h0
  obtain ⟨b, hb, rfl⟩ := List.mem_map.1 hg
  have hbU := hback hgN
  have hb' : rename (ofPolys ranked ps).unrank ((ofPolys ranked ps).apply m b).toMv = b.toMv := by
    rw [toMv_apply, rename_unrank_rank (hps b hb)]
  rw [hb'] at hbU
  have hmem : (⟨b.toMv, hbU⟩ : supported ℚ {v | v ∉ ranked.take block}) ∈
      generatedIn {v | v ∉ ranked.take block} basis := Ideal.subset_span ⟨b, hb, rfl⟩
  refine ⟨⟨_, hback hq⟩ * ⟨b.toMv, hbU⟩, Ideal.mul_mem_left _ _ hmem, ?_⟩
  rw [MulMemClass.coe_mul, map_mul, hb']

end VariableOrder

/-! ## Signs -/

/-- A multiple by a number of a known sign has that sign times the sign of the other factor. -/
theorem ofReal_of_eq_mul {c : ℚ} {y z : ℝ} {negated : Bool} (hc : 0 < c)
    (h : y = algebraMap ℚ ℝ (if negated then -c else c) * z) :
    Sign.ofReal y = if negated then -Sign.ofReal z else Sign.ofReal z := by
  have hc' : (0 : ℝ) < algebraMap ℚ ℝ c := by
    rw [eq_ratCast]
    exact_mod_cast hc
  rw [h]
  cases negated with
  | false => exact Sign.ofReal_mul_of_pos hc' z
  | true =>
    rw [if_pos rfl, if_pos rfl, map_neg, neg_mul, Sign.ofReal_neg, Sign.ofReal_mul_of_pos hc']

/-! ## Reduction by a basis -/

namespace AlgebraSystem

open Cylindrical.Poly Cylindrical.VariableOrder

variable {ranked : List ℕ} {block : ℕ} {ps qs basis : List Poly} {s t : AlgebraSystem}

/-- A basis is `[1]`, or a reduced basis with its variables put back. -/
theorem groebnerBasis_cases (h : groebnerBasis ranked block ps s = .ok basis t) :
    basis = [1] ∧ idealOf ps = ⊤ ∨
    ∃ bs, Groebner.IsReduced (eliminationOrder ranked block)
        (idealOf (ps.map ((ofPolys ranked ps).apply (eliminationOrder ranked block)))) bs ∧
      (∀ g ∈ bs, g.toMv ∈ supported ℚ
        ((ofPolys ranked ps).rank '' {v | ∃ p ∈ ps, v ∈ p.toMv.vars})) ∧
      basis = bs.map (ofPolys ranked ps).undo := by
  rw [groebnerBasis] at h
  dsimp only at h
  split at h
  · rename_i bs stats hbs
    rcases Groebner.basis_cases hbs with ⟨rfl, htop⟩ | hr
    · have hunit : Groebner.isUnitIdeal [1] = true := by decide +kernel
      rw [hunit, if_pos rfl] at h
      cases h
      have hback : (idealOf (ps.map ((ofPolys ranked ps).apply _))).map _ = idealOf ps :=
        map_unrank_idealOf_apply (eliminationOrder ranked block) fun p hp => hp
      exact .inl ⟨rfl, by rw [← hback, htop, Ideal.map_top]⟩
    · have hunit : ¬Groebner.isUnitIdeal bs = true := fun hunit => by
        obtain ⟨g, hg, hc⟩ := List.any_eq_true.1 hunit
        refine hr.ne_top ((Ideal.eq_top_iff_one _).2 ?_)
        rw [← toMv_one]
        exact one_mem_idealOf_of_isConstant (hr.mem g hg) hc
      rw [if_neg hunit] at h
      cases h
      refine .inr ⟨bs, hr, (Groebner.preserved_supported _).basis (List.forall_mem_map.2
        fun p hp => apply_mem_supported _ _ ?_) hbs, rfl⟩
      exact mem_supported.2 fun v hv => ⟨p, hp, Finset.mem_coe.1 hv⟩
  · cases h

/-- The basis generates the ideal. -/
theorem idealOf_groebnerBasis (h : groebnerBasis ranked block ps s = .ok basis t) :
    idealOf basis = idealOf ps := by
  rcases groebnerBasis_cases h with ⟨rfl, htop⟩ | ⟨bs, hr, -, rfl⟩
  · rw [htop]
    exact Groebner.isGroebner_one.idealOf_eq
  · rw [idealOf_map fun p _ => toMv_undo (ofPolys ranked ps) p, hr.idealOf_eq,
      map_unrank_idealOf_apply _ fun p hp => hp]

/-- The renaming of a reduction turns the basis into a Gröbner basis again. -/
theorem isGroebner_apply (h : groebnerBasis ranked block ps s = .ok basis t)
    (hqs : ∀ b ∈ basis, b ∈ qs) :
    IsGroebner (eliminationOrder ranked block)
      (idealOf (basis.map ((ofPolys ranked qs).apply (eliminationOrder ranked block))))
      (basis.map ((ofPolys ranked qs).apply (eliminationOrder ranked block))) := by
  have hsupported : ∀ v, (∃ b ∈ basis, v ∈ b.toMv.vars) → ∃ p ∈ ps, v ∈ p.toMv.vars :=
    fun v ⟨b, hb, hv⟩ => mem_supported.1 (supported_of_mem_groebnerBasis
      (S := {v | ∃ p ∈ ps, v ∈ p.toMv.vars}) h
      (fun p hp => mem_supported.2 fun v hv => ⟨p, hp, hv⟩) b hb) hv
  rcases groebnerBasis_cases h with ⟨rfl, -⟩ | ⟨bs, hr, hbs, rfl⟩
  · have hone : ((ofPolys ranked qs).apply (eliminationOrder ranked block) 1).toMv = 1 := by
      rw [toMv_apply, toMv_one, map_one]
    refine ⟨List.forall_mem_singleton.2 (order_withOrder _ _), fun g hg => mem_idealOf hg,
      fun P _ m c _ => ⟨_, .head _, 0, 1, ?_, zero_le⟩⟩
    rw [hone, ← C_1]
    exact Leads.const one_ne_zero
  · rw [List.map_map]
    refine hr.toIsGroebner.rename (σ := fun r => (ofPolys ranked qs).rank
        ((ofPolys ranked ps).unrank r)) (fun g hg => (hr.monic g hg).ne_zero)
      (strictMonoOn_rank_unrank hsupported fun v ⟨b, hb, hv⟩ => ⟨b, hqs b hb, hv⟩) (fun g hg => ?_)
      (fun g _ => order_withOrder _ _) fun g _ => ?_
    · refine supported_mono (Set.image_mono fun v hv => ?_) (mem_supported_rank_undo (hbs g hg))
      exact ⟨(ofPolys ranked ps).undo g, List.mem_map_of_mem hg, hv⟩
    · rw [Function.comp_apply, toMv_apply, toMv_undo, rename_rename]
      rfl

variable {p : Poly}

theorem mem_idealOf_apply (h : groebnerBasis ranked block ps s = .ok basis t)
    (hp : p.toMv ∈ idealOf ps) (o : VariableOrder) (m : MonomialOrder) :
    (o.apply m p).toMv ∈ idealOf (basis.map (o.apply m)) := by
  rw [toMv_apply, idealOf_map_apply, idealOf_groebnerBasis h]
  exact Ideal.mem_map_of_mem _ hp

/-- The reduced polynomial vanishes exactly on the ideal, and differs from a multiple of the polynomial
by a member of it. -/
theorem reduceBy_groebnerBasis (h : groebnerBasis ranked block ps s = .ok basis t)
    (hqs : ∀ b ∈ basis, b ∈ qs) (hp : p ∈ qs) {r : Poly} {negated : Bool}
    (hr : ((ofPolys ranked qs).apply (eliminationOrder ranked block) p).reduceBy
      (basis.map ((ofPolys ranked qs).apply (eliminationOrder ranked block))) = (r, negated)) :
    (((ofPolys ranked qs).undo r).isZero = true ↔ p.toMv ∈ idealOf ps) ∧
      ∃ c : ℚ, 0 < c ∧
        p.toMv - C (if negated then -c else c) * ((ofPolys ranked qs).undo r).toMv ∈
          idealOf ps := by
  obtain ⟨c, hc, hnf⟩ := reduceBy_spec
    (basis.map ((ofPolys ranked qs).apply (eliminationOrder ranked block)))
    ((ofPolys ranked qs).apply (eliminationOrder ranked block) p)
  rw [hr] at hnf
  dsimp only at hnf
  have hdiff : p.toMv - C (if negated then -c else c) * ((ofPolys ranked qs).undo r).toMv ∈
      idealOf ps := by
    have hsub := Ideal.mem_map_of_mem
      (rename (ofPolys ranked qs).unrank : MvPolynomial ℕ ℚ →ₐ[ℚ] MvPolynomial ℕ ℚ)
      (sub_normalForm_mem_idealOf
        (basis.map ((ofPolys ranked qs).apply (eliminationOrder ranked block)))
        ((ofPolys ranked qs).apply (eliminationOrder ranked block) p))
    rw [map_unrank_idealOf_apply _ hqs, idealOf_groebnerBasis h, hnf, map_sub, map_mul, rename_C,
      toMv_apply, rename_unrank_rank hp, ← toMv_undo] at hsub
    exact hsub
  refine ⟨⟨fun hz => ?_, fun hmem => ?_⟩, c, hc, hdiff⟩
  · rwa [toMv_eq_zero_of_isZero hz, mul_zero, sub_zero] at hdiff
  · have hzero := ((isGroebner_apply h hqs).isZero_normalForm_iff _).2
      (mem_idealOf_apply h hmem (ofPolys ranked qs) (eliminationOrder ranked block))
    rw [toMv_eq_zero_of_isZero hzero] at hnf
    have hne : C (if negated then -c else c) ≠ (0 : MvPolynomial ℕ ℚ) := by
      rw [Ne, C_eq_zero]
      split_ifs
      · exact neg_ne_zero.2 hc.ne'
      · exact hc.ne'
    have hr0 : r.toMv = 0 := (mul_eq_zero.1 hnf.symm).resolve_left hne
    rw [← toMv_eq_zero_iff, toMv_undo, hr0, map_zero]

/-- What the ideal contains without the variables of the block is generated, by polynomials without
them, by the members of the basis without them. -/
theorem comap_supported_groebnerBasis (hranked : ranked.Nodup)
    (h : groebnerBasis ranked block ps s = .ok basis t) (hpos : 0 < block)
    (hblock : block < ranked.length) :
    (idealOf ps).comap (supported ℚ {v | v ∉ ranked.take block}).val =
      generatedIn {v | v ∉ ranked.take block} basis := by
  have hlex : eliminationOrder ranked block = .lex := by
    rw [eliminationOrder, if_pos (by simp [hpos, hblock])]
  refine le_antisymm ?_ (Ideal.span_le.2 ?_)
  · rintro ⟨P, hPU⟩ hP
    obtain ⟨p, -, rfl⟩ := exists_toMv_eq P
    have hp : p ∈ basis ++ [p] := List.mem_append_right _ (.head _)
    have hG := isGroebner_apply h fun b hb => List.mem_append_left [p] hb
    rw [hlex] at hG
    obtain ⟨q, hsum, hq⟩ := hG.exists_sum_of_within (mem_idealOf_apply h hP _ .lex)
      (apply_mem_supported_Iio hp hPU)
    obtain ⟨Q, hQ, hQP⟩ := exists_mem_generatedIn_sum fun i =>
      exists_mem_generatedIn_undo hranked (fun b hb => List.mem_append_left _ hb)
        (List.get_mem (basis.map _) i) (hq i)
    rw [← map_sum, ← hsum, toMv_apply, rename_unrank_rank hp] at hQP
    exact (Subtype.ext hQP : Q = ⟨p.toMv, hPU⟩) ▸ hQ
  · rintro Q ⟨g, hg, hQ⟩
    have hmem := mem_idealOf hg
    rw [idealOf_groebnerBasis h, ← hQ] at hmem
    exact hmem

end AlgebraSystem

end Cylindrical

end
