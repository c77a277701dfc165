import Mathlib
import Cylindrical.Residue.Reconstruction
import Cylindrical.Proofs.Focus
import Cylindrical.Proofs.Poly.ExactDivision
import Cylindrical.Proofs.Residue.RationalReconstruction
import Cylindrical.Proofs.Residue.Reconstruction

/-!
# Chinese remaindering

After any sequence of images modulo distinct odd primes the stored residues stand for all images at
once (`Combines`), a reconstruction reduces to every one of them, and a polynomial with small
coefficients that all images come from is reconstructed and confirmed by its next image
(`chinese_remainder`).
-/

namespace Cylindrical

namespace Poly

/-! ## Polynomials with the same coefficients -/

/-- The coefficient of a power product. -/
noncomputable def coeffAt (p : Poly) (m : Monomial) : ℚ := p.toMv.coeff m.toFinsupp

theorem coeffAt_of_mem {p : Poly} {t : Term} (ht : t ∈ p.terms) :
    p.coeffAt t.monomial = t.coeff :=
  coeff_toMv ht

theorem coeffAt_ne_zero_iff {p : Poly} {m : Monomial} :
    p.coeffAt m ≠ 0 ↔ ∃ t ∈ p.terms, t.monomial = m := by
  rw [coeffAt, ← MvPolynomial.mem_support_iff, mem_support_toMv]
  simp only [Monomial.toFinsupp_inj]

theorem mem_terms_iff {p : Poly} {t : Term} :
    t ∈ p.terms ↔ t.coeff ≠ 0 ∧ p.coeffAt t.monomial = t.coeff := by
  refine ⟨fun h => ⟨p.valid.nonzero t h, coeffAt_of_mem h⟩, fun ⟨h0, h⟩ => ?_⟩
  obtain ⟨s, hs, hm⟩ := coeffAt_ne_zero_iff.1 (h ▸ h0)
  have hc : s.coeff = t.coeff := by rw [← coeffAt_of_mem hs, hm, h]
  obtain rfl : s = t := by
    cases s
    cases t
    cases hm
    cases hc
    rfl
  exact hs

theorem nodup_monomials (p : Poly) : (p.terms.map Term.monomial).Nodup := by
  refine List.pairwise_map.2 (p.valid.descending.imp fun h he => ?_)
  rw [he, MonomialOrder.compare_eq_iff.2 rfl] at h
  exact absurd h (by decide)

/-- In one order, a polynomial is determined by its coefficients. -/
theorem eq_of_coeffAt {p q : Poly} (ho : p.order = q.order) (h : ∀ m, p.coeffAt m = q.coeffAt m) :
    p = q := by
  refine Poly.ext ho ?_
  have hp := p.valid.descending
  have hq := q.valid.descending
  rw [← ho] at hq
  have hperm : p.terms.Perm q.terms := by
    refine (List.perm_ext_iff_of_nodup (.of_map _ p.nodup_monomials)
      (.of_map _ q.nodup_monomials)).2 fun t => ?_
    rw [mem_terms_iff, mem_terms_iff, h]
  refine hperm.eq_of_pairwise (fun s t _ _ hst hts => ?_) hp hq
  have := MonomialOrder.lt_trans hst hts
  rw [MonomialOrder.compare_eq_iff.2 rfl] at this
  exact absurd this (by decide)

theorem coeffAt_ofTerms_of_notMem (o : MonomialOrder) {ts : List Term} {m : Monomial}
    (h : m ∉ ts.map Term.monomial) : (ofTerms o ts).coeffAt m = 0 := by
  rw [coeffAt, toMv_ofTerms]
  refine coeff_sumOf fun t ht he => h (List.mem_map.2 ⟨t, ht, Monomial.toFinsupp_injective he⟩)

theorem coeffAt_ofTerms_of_mem (o : MonomialOrder) {ts : List Term}
    (hn : (ts.map Term.monomial).Nodup) {t : Term} (ht : t ∈ ts) :
    (ofTerms o ts).coeffAt t.monomial = t.coeff := by
  induction ts with
  | nil => cases ht
  | cons u us ih =>
    obtain ⟨hu, hus⟩ := List.nodup_cons.1 hn
    have hsum : (ofTerms o (u :: us)).coeffAt t.monomial =
        (if u.monomial.toFinsupp = t.monomial.toFinsupp then u.coeff else 0) +
          (ofTerms o us).coeffAt t.monomial := by
      rw [coeffAt, coeffAt, toMv_ofTerms, toMv_ofTerms, sumOf_cons, MvPolynomial.coeff_add,
        Term.toMv, MvPolynomial.coeff_monomial]
    rw [hsum]
    rcases List.mem_cons.1 ht with rfl | ht
    · rw [if_pos rfl, coeffAt_ofTerms_of_notMem o hu, add_zero]
    · rw [if_neg, ih hus ht, zero_add]
      exact fun he => hu (List.mem_map.2 ⟨t, ht, (Monomial.toFinsupp_injective he).symm⟩)

theorem coeffAt_withOrder (o : MonomialOrder) (p : Poly) (m : Monomial) :
    (p.withOrder o).coeffAt m = p.coeffAt m := by
  rw [coeffAt, toMv_withOrder, coeffAt]

/-- Numerators and denominators are up to `B` in absolute value. -/
def CoeffsLE (B : ℝ) (p : Poly) : Prop :=
  ∀ t ∈ p.terms, |(t.coeff.num : ℝ)| ≤ B ∧ (t.coeff.den : ℝ) ≤ B

end Poly

namespace Residue

variable {p : ℕ} {m : Monomial} {image : List (Monomial × ℕ)}

/-! ## Images of polynomials -/

/-- An image has one residue below `p` for each of its monomials. -/
structure IsImage (p : ℕ) (image : List (Monomial × ℕ)) : Prop where
  nodup : (image.map Prod.fst).Nodup
  lt : ∀ e ∈ image, e.2 < p

/-- Modulo `p` a polynomial has the coefficients of the image. -/
def IsImageOf (p : ℕ) (image : List (Monomial × ℕ)) (q : Poly) : Prop :=
  ∀ m, HasResidue p (Reconstruction.lookup m image : ℕ) (q.coeffAt m)

theorem lastEntries_of_nodup {es : List (Monomial × ℕ)} (h : (es.map Prod.fst).Nodup) :
    lastEntries es = es := by
  induction es with
  | nil => rfl
  | cons e es ih =>
    obtain ⟨he, hes⟩ := List.nodup_cons.1 h
    rw [lastEntries, if_neg, ih hes]
    simp only [List.any_eq_true, decide_eq_true_eq]
    rintro ⟨d, hd, hde⟩
    exact he (List.mem_map.2 ⟨d, hd, hde⟩)

theorem ofRat?_eq_some {b : ℕ} {x : ℚ} (hp : p.Prime) (hb : b < p) (h : HasResidue p b x) :
    ofRat? p x = some b := by
  have hden := mod_ne_zero_of_coprime hp h.1
  obtain ⟨r, hr⟩ : ∃ r, ofRat? p x = some r := by
    rw [ofRat?, inverse?, if_neg hden]
    exact ⟨_, rfl⟩
  obtain ⟨-, hlt, hcast⟩ := ofRat?_spec (K := ZMod p) (ZMod.natCast_self p) hp hr
  have hres : HasResidue p r x := ⟨h.1, (ZMod.intCast_eq_intCast_iff _ _ p).1 (by
    push_cast
    rw [← hcast, mul_comm])⟩
  have hmod : r ≡ b [MOD p] := Int.natCast_modEq_iff.1 (hres.modEq h)
  rw [hr, hmod.eq_of_lt_of_lt hlt hb]

end Residue

namespace Reconstruction

open Residue

variable {p : ℕ} {m : Monomial} {es : List (Monomial × ℕ)}

theorem lookup_of_notMem (h : m ∉ es.map Prod.fst) : lookup m es = 0 := by
  induction es with
  | nil => rfl
  | cons e es ih =>
    rw [List.map_cons, List.mem_cons, not_or] at h
    rw [lookup, if_neg fun he => h.1 he.symm, ih h.2]

theorem lookup_of_mem (hn : (es.map Prod.fst).Nodup) {e : Monomial × ℕ} (he : e ∈ es) :
    lookup e.1 es = e.2 := by
  induction es with
  | nil => cases he
  | cons d es ih =>
    obtain ⟨hd, hes⟩ := List.nodup_cons.1 hn
    rcases List.mem_cons.1 he with rfl | he
    · rw [lookup, if_pos rfl]
    · rw [lookup, if_neg, ih hes he]
      exact fun h => hd (h ▸ List.mem_map_of_mem he)

theorem mem_of_lookup_ne_zero (h : lookup m es ≠ 0) : (m, lookup m es) ∈ es := by
  induction es with
  | nil => exact absurd rfl h
  | cons e es ih =>
    rw [lookup] at h ⊢
    split_ifs at h ⊢ with he
    · exact he ▸ .head _
    · exact .tail _ (ih h)

theorem lookup_map_of_mem (f : Monomial × ℕ → ℕ) (h : m ∈ es.map Prod.fst) :
    lookup m (es.map fun e => (e.1, f e)) = f (m, lookup m es) := by
  induction es with
  | nil => cases h
  | cons e es ih =>
    rw [List.map_cons, lookup, lookup]
    split_ifs with he
    · rw [← he]
    · exact ih ((List.mem_cons.1 h).resolve_left (Ne.symm he))

theorem lookup_append (m : Monomial) (es ds : List (Monomial × ℕ)) :
    lookup m (es ++ ds) = if m ∈ es.map Prod.fst then lookup m es else lookup m ds := by
  induction es with
  | nil => rfl
  | cons e es ih =>
    rw [List.cons_append, lookup, lookup, ih]
    simp only [List.map_cons, List.mem_cons, eq_comm (a := m)]
    split_ifs <;> simp_all

theorem lookup_filter (hn : (es.map Prod.fst).Nodup) (f : Monomial × ℕ → Bool)
    (hf : f (m, lookup m es) = false → lookup m es = 0) :
    lookup m (es.filter f) = lookup m es := by
  have hn' := hn.sublist ((List.filter_sublist (p := f) (l := es)).map Prod.fst)
  by_cases h : m ∈ (es.filter f).map Prod.fst
  · obtain ⟨e, he, rfl⟩ := List.mem_map.1 h
    rw [lookup_of_mem hn' he, lookup_of_mem hn (List.mem_filter.1 he).1]
  · rw [lookup_of_notMem h]
    by_contra h0
    have hmem := mem_of_lookup_ne_zero (Ne.symm h0)
    refine h (List.mem_map.2 ⟨_, List.mem_filter.2 ⟨hmem, ?_⟩, rfl⟩)
    by_contra hfalse
    exact h0 (hf (Bool.eq_false_of_not_eq_true hfalse)).symm

/-! ## One more prime -/

theorem combine_modEq_left (M p i a b : ℕ) : combine M p i a b ≡ a [MOD M] := by
  rw [combine]
  exact Nat.add_mul_mod_self_left a M _

theorem combine_modEq_right {M p : ℕ} (hp : p.Prime) (hM : M.Coprime p) (a b : ℕ) :
    combine M p (inverse p (M % p)) a b ≡ b [MOD p] := by
  have hinv := cast_inverse_mul (ZMod.natCast_self p) hp (mod_ne_zero_of_coprime hp hM)
    (Nat.mod_lt _ hp.pos)
  rw [cast_mod (ZMod.natCast_self p)] at hinv
  rw [← ZMod.natCast_eq_natCast_iff, combine, Nat.cast_add, Nat.cast_mul,
    cast_ofInt (ZMod.natCast_self p) hp.ne_zero]
  push_cast
  linear_combination ((b : ZMod p) - a) * hinv

theorem combine_lt {M p : ℕ} (hp : p ≠ 0) {a : ℕ} (ha : a < M) (i b : ℕ) :
    combine M p i a b < M * p := by
  have ht : ofInt p (((b : ℤ) - a) * i) < p := by
    have hpos : (0 : ℤ) < p := by exact_mod_cast Nat.pos_of_ne_zero hp
    have := Int.emod_lt_of_pos (((b : ℤ) - a) * i) hpos
    rw [ofInt]
    omega
  calc combine M p i a b < M + M * ofInt p (((b : ℤ) - a) * i) := Nat.add_lt_add_right ha _
    _ = M * (ofInt p (((b : ℤ) - a) * i) + 1) := by ring
    _ ≤ M * p := Nat.mul_le_mul_left M ht

theorem combine_zero (M p i : ℕ) : combine M p i 0 0 = 0 := by
  simp [combine, ofInt]

section

variable {image : List (Monomial × ℕ)} {r : Reconstruction}

theorem not_any_key (ds : List (Monomial × ℕ)) (m : Monomial) :
    (!ds.any (·.1 = m)) = true ↔ m ∉ ds.map Prod.fst := by
  simp only [Bool.not_eq_true', List.any_eq_false, decide_eq_true_eq, List.mem_map, not_exists,
    not_and]

theorem nodup_unfiltered {es ds : List (Monomial × ℕ)} (he : (es.map Prod.fst).Nodup)
    (hd : (ds.map Prod.fst).Nodup) (f g : Monomial × ℕ → ℕ) :
    (((es.map fun e => (e.1, f e)) ++
      (ds.filter fun d => !es.any (·.1 = d.1)).map fun d => (d.1, g d)).map Prod.fst).Nodup := by
  rw [List.map_append, List.map_map, List.map_map]
  refine List.nodup_append.2 ⟨he, hd.sublist (List.filter_sublist.map _), ?_⟩
  rintro m hm m' hm' rfl
  obtain ⟨d, hd, rfl⟩ := List.mem_map.1 hm'
  exact (not_any_key es d.1).1 (List.mem_filter.1 hd).2 hm

theorem nodup_addImage (hr : (r.residues.map Prod.fst).Nodup)
    (hi : (image.map Prod.fst).Nodup) :
    ((r.addImage p image).residues.map Prod.fst).Nodup := by
  rw [addImage, lastEntries_of_nodup hi]
  exact (nodup_unfiltered hr hi _ _).sublist (List.filter_sublist.map _)

/-- Every monomial gets the residue that combines its old one with that of the image. -/
theorem lookup_addImage (hr : (r.residues.map Prod.fst).Nodup)
    (hi : (image.map Prod.fst).Nodup) (m : Monomial) :
    lookup m (r.addImage p image).residues =
      combine r.modulus p (inverse p (r.modulus % p)) (lookup m r.residues) (lookup m image) := by
  rw [addImage, lastEntries_of_nodup hi]
  dsimp only
  rw [lookup_filter (nodup_unfiltered hr hi _ _) _ (by simp), lookup_append]
  simp only [List.map_map, Function.comp_def]
  split_ifs with hm
  · exact lookup_map_of_mem (fun e => combine _ p _ e.2 (lookup e.1 image)) hm
  · rw [lookup_of_notMem hm]
    by_cases him : m ∈ image.map Prod.fst
    · have hmem : m ∈ (image.filter fun e => !r.residues.any (·.1 = e.1)).map Prod.fst := by
        obtain ⟨e, he, rfl⟩ := List.mem_map.1 him
        exact List.mem_map_of_mem (List.mem_filter.2 ⟨he, (not_any_key _ _).2 hm⟩)
      rw [lookup_map_of_mem (fun e => combine _ p _ 0 e.2) hmem, lookup_filter hi]
      intro hfalse
      rw [(not_any_key _ _).2 hm] at hfalse
      cases hfalse
    · rw [lookup_of_notMem him, combine_zero, lookup_of_notMem]
      intro hmem
      obtain ⟨d, hd, rfl⟩ := List.mem_map.1 hmem
      obtain ⟨e, he, rfl⟩ := List.mem_map.1 hd
      exact him (List.mem_map.2 ⟨e, (List.mem_filter.1 he).1, rfl⟩)

end

/-! ## All images at once -/

theorem mapM_eq_some {α β : Type} {f : α → Option β} {g : α → β} {xs : List α}
    (h : ∀ x ∈ xs, f x = some (g x)) : xs.mapM f = some (xs.map g) := by
  induction xs with
  | nil => rfl
  | cons x xs ih =>
    rw [List.mapM_cons, h x (.head _), ih fun y hy => h y (.tail _ hy)]
    rfl

theorem monomials_of_forall₂ {f : Monomial × ℕ → Option ℚ} {ts : List Term}
    (h : List.Forall₂ (fun e t => (f e).map (fun c => (⟨c, e.1⟩ : Term)) = some t) es ts) :
    ts.map Term.monomial = es.map Prod.fst := by
  induction h with
  | nil => rfl
  | cons ht _ ih =>
    obtain ⟨c, -, rfl⟩ := Option.map_eq_some_iff.1 ht
    rw [List.map_cons, List.map_cons, ih]

/-- The residues stand for all images. -/
structure Combines (images : List (ℕ × List (Monomial × ℕ))) (r : Reconstruction) : Prop where
  modulus : r.modulus = (images.map Prod.fst).prod
  nodup : (r.residues.map Prod.fst).Nodup
  pos : ∀ e ∈ r.residues, 0 < e.2
  lt : ∀ e ∈ r.residues, e.2 < r.modulus
  modEq : ∀ i ∈ images, ∀ m, lookup m r.residues ≡ lookup m i.2 [MOD i.1]

/-- The residues are those of a polynomial whose coefficients are within the bounds. -/
structure ComesFrom (r : Reconstruction) (q : Poly) : Prop where
  hasResidue : ∀ m, HasResidue r.modulus (lookup m r.residues : ℕ) (q.coeffAt m)
  num_le : ∀ t ∈ q.terms, t.coeff.num.natAbs ≤ fractionBound r.modulus
  den_le : ∀ t ∈ q.terms, t.coeff.den ≤ fractionBound r.modulus

namespace Combines

variable {images : List (ℕ × List (Monomial × ℕ))} {image : List (Monomial × ℕ)}
  {r : Reconstruction}

theorem empty : Combines [] {} where
  modulus := rfl
  nodup := List.nodup_nil
  pos e he := by cases he
  lt e he := by cases he
  modEq i hi := by cases hi

theorem lookup_lt (h : Combines images r) (h0 : r.modulus ≠ 0) (m : Monomial) :
    lookup m r.residues < r.modulus := by
  by_cases hm : lookup m r.residues = 0
  · omega
  · exact h.lt _ (mem_of_lookup_ne_zero hm)

theorem modulus_dvd (h : Combines images r) {i : ℕ × List (Monomial × ℕ)} (hi : i ∈ images) :
    i.1 ∣ r.modulus := by
  rw [h.modulus]
  exact List.dvd_prod (List.mem_map_of_mem hi)

theorem addImage (h : Combines images r) (h0 : r.modulus ≠ 0) (hp : p.Prime)
    (hcop : r.modulus.Coprime p) (hi : IsImage p image) :
    Combines (images ++ [(p, image)]) (r.addImage p image) := by
  have hlookup := lookup_addImage (p := p) h.nodup hi.nodup
  have hnodup := nodup_addImage (p := p) h.nodup hi.nodup
  refine ⟨?_, hnodup, ?_, ?_, ?_⟩
  · rw [Reconstruction.addImage, h.modulus, List.map_append, List.prod_append]
    simp
  · intro e he
    have := (List.mem_filter.1 he).2
    simpa [Nat.pos_iff_ne_zero] using this
  · intro e he
    rw [← lookup_of_mem hnodup he, hlookup]
    exact combine_lt hp.ne_zero (h.lookup_lt h0 e.1) _ _
  · intro i hi m
    rw [hlookup]
    rcases List.mem_append.1 hi with hi | hi
    · exact ((combine_modEq_left _ _ _ _ _).of_dvd (h.modulus_dvd hi)).trans (h.modEq i hi m)
    · obtain rfl := List.mem_singleton.1 hi
      exact combine_modEq_right hp hcop _ _

/-- A reconstruction has the coefficients that the residues stand for. -/
theorem hasResidue_of_poly? (h : Combines images r) (h0 : r.modulus ≠ 0) {q : Poly}
    (hq : r.poly? = some q) (m : Monomial) :
    HasResidue r.modulus (lookup m r.residues : ℕ) (q.coeffAt m) := by
  obtain ⟨ts, hts, rfl⟩ := Option.map_eq_some_iff.1 hq
  have hts := forall₂_of_mapM_eq_some hts
  have hkeys := monomials_of_forall₂ hts
  by_cases hm : m ∈ r.residues.map Prod.fst
  · obtain ⟨e, he, rfl⟩ := List.mem_map.1 hm
    obtain ⟨t, ht, het⟩ := exists_mem_of_forall₂' hts he
    obtain ⟨c, hc, rfl⟩ := Option.map_eq_some_iff.1 het
    rw [lookup_of_mem h.nodup he, Poly.coeffAt_ofTerms_of_mem .grLex (hkeys ▸ h.nodup) ht]
    exact toRat?_sound h0 hc
  · rw [lookup_of_notMem hm, Poly.coeffAt_ofTerms_of_notMem .grLex (hkeys ▸ hm)]
    exact hasResidue_zero rfl

theorem isImageOf_of_poly? (h : Combines images r) (h0 : r.modulus ≠ 0) {q : Poly}
    (hq : r.poly? = some q) {i : ℕ × List (Monomial × ℕ)} (hi : i ∈ images) :
    IsImageOf i.1 i.2 q := fun m =>
  (h.hasResidue_of_poly? h0 hq m).of_dvd (h.modulus_dvd hi)
    (Int.natCast_modEq_iff.2 (h.modEq i hi m))

theorem toRat?_of_comesFrom (h : Combines images r) (hodd : Odd r.modulus) {q : Poly}
    (hq : ComesFrom r q) {e : Monomial × ℕ} (he : e ∈ r.residues) :
    toRat? r.modulus e.2 = some (q.coeffAt e.1) := by
  have hres := hq.hasResidue e.1
  rw [lookup_of_mem h.nodup he] at hres
  obtain ⟨t, ht, hm⟩ : ∃ t ∈ q.terms, t.monomial = e.1 := by
    refine Poly.coeffAt_ne_zero_iff.1 fun h0 => ?_
    -- A stored residue is not zero, so it does not come from the coefficient zero.
    rw [h0] at hres
    exact (Nat.le_of_dvd (h.pos e he) hres.dvd_of_eq_zero).not_gt (h.lt e he)
  rw [← hm, Poly.coeffAt_of_mem ht] at hres ⊢
  have hne : r.modulus ≠ 2 := fun h2 => absurd (h2 ▸ hodd) (by decide)
  exact toRat?_complete hne hres.2 (hq.num_le t ht) (hq.den_le t ht)

theorem coeffAt_eq_zero_of_comesFrom (hodd : Odd r.modulus) {q : Poly} (hq : ComesFrom r q)
    {m : Monomial} (hm : m ∉ r.residues.map Prod.fst) : q.coeffAt m = 0 := by
  by_contra h0
  obtain ⟨t, ht, rfl⟩ := Poly.coeffAt_ne_zero_iff.1 h0
  have hres := hq.hasResidue t.monomial
  rw [lookup_of_notMem hm, Poly.coeffAt_of_mem ht] at hres
  have hdvd : (r.modulus : ℤ) ∣ t.coeff.num := by
    simpa using hres.2.symm.dvd
  have hlt := (hq.num_le t ht).trans_lt (fractionBound_lt hodd.pos.ne')
  have hnum := Int.eq_zero_of_dvd_of_natAbs_lt_natAbs hdvd (by simpa using hlt)
  exact q.valid.nonzero t ht (Rat.num_eq_zero.1 hnum)

/-- A polynomial within the bounds that has the residues is reconstructed. -/
theorem poly?_eq_some (h : Combines images r) (hodd : Odd r.modulus) {q : Poly}
    (hq : ComesFrom r q) : r.poly? = some (q.withOrder .grLex) := by
  have hmap : (r.residues.mapM fun e =>
      (toRat? r.modulus e.2).map fun c => (⟨c, e.1⟩ : Term)) =
      some (r.residues.map fun e => ⟨q.coeffAt e.1, e.1⟩) :=
    mapM_eq_some fun e he => by rw [h.toRat?_of_comesFrom hodd hq he, Option.map_some]
  rw [poly?, hmap, Option.map_some]
  congr 1
  refine Poly.eq_of_coeffAt (Poly.order_withOrder _ _).symm fun m => ?_
  rw [Poly.coeffAt_withOrder]
  by_cases hm : m ∈ r.residues.map Prod.fst
  · obtain ⟨e, he, rfl⟩ := List.mem_map.1 hm
    refine Poly.coeffAt_ofTerms_of_mem .grLex (t := ⟨q.coeffAt e.1, e.1⟩) ?_
      (List.mem_map.2 ⟨e, he, rfl⟩)
    simpa [Function.comp_def] using h.nodup
  · rw [coeffAt_eq_zero_of_comesFrom hodd hq hm]
    refine Poly.coeffAt_ofTerms_of_notMem .grLex ?_
    simpa [Function.comp_def] using hm

end Combines

/-! ## Confirmation by images -/

theorem residues_of_isImageOf {image : List (Monomial × ℕ)} {q : Poly} (hp : p.Prime)
    (hi : IsImage p image) (h : IsImageOf p image q) :
    (q.terms.map fun t => (t.monomial, (ofRat? p t.coeff).getD 0)) =
      q.terms.map fun t => (t.monomial, lookup t.monomial image) := by
  refine List.map_congr_left fun t ht => ?_
  have hres := h t.monomial
  rw [Poly.coeffAt_of_mem ht] at hres
  have hlt : lookup t.monomial image < p := by
    by_cases h0 : lookup t.monomial image = 0
    · rw [h0]
      exact hp.pos
    · exact hi.lt _ (mem_of_lookup_ne_zero h0)
  rw [ofRat?_eq_some hp hlt hres, Option.getD_some]

/-- The nonzero residues of a polynomial are the entries of its image. -/
theorem mem_residues_iff {image : List (Monomial × ℕ)} {q : Poly} (hi : IsImage p image)
    (h : IsImageOf p image q) {e : Monomial × ℕ} :
    e ∈ (q.terms.map fun t => (t.monomial, lookup t.monomial image)).filter (fun e => e.2 != 0) ↔
      e ∈ image.filter fun e => e.2 != 0 := by
  simp only [List.mem_filter, List.mem_map, bne_iff_ne, ne_eq, and_congr_left_iff]
  intro h0
  constructor
  · rintro ⟨t, ht, rfl⟩
    exact mem_of_lookup_ne_zero h0
  · intro he
    have hlookup := lookup_of_mem hi.nodup he
    obtain ⟨t, ht, hm⟩ : ∃ t ∈ q.terms, t.monomial = e.1 := by
      refine Poly.coeffAt_ne_zero_iff.1 fun hc => h0 ?_
      have hres := h e.1
      rw [hc, hlookup] at hres
      exact Nat.eq_zero_of_dvd_of_lt hres.dvd_of_eq_zero (hi.lt e he)
    exact ⟨t, ht, by rw [hm, hlookup]⟩

/-- A polynomial with the coefficients of an image reduces to it. -/
theorem reducesTo_of_isImageOf {image : List (Monomial × ℕ)} {q : Poly} (hp : p.Prime)
    (hi : IsImage p image) (h : IsImageOf p image q) : reducesTo q p image = true := by
  have hnodup : ((image.filter fun e => e.2 != 0).map Prod.fst).Nodup :=
    hi.nodup.sublist (List.filter_sublist.map _)
  rw [reducesTo, lastEntries_of_nodup hnodup]
  dsimp only
  rw [residues_of_isImageOf hp hi h, Bool.and_eq_true, Bool.and_eq_true, List.all_eq_true,
    List.all_eq_true, beq_iff_eq]
  refine ⟨fun t ht => ?_, fun e he => ?_, ?_⟩
  · have hres := h t.monomial
    rw [Poly.coeffAt_of_mem ht] at hres
    exact bne_iff_ne.2 (mod_ne_zero_of_coprime hp hres.1)
  · exact List.contains_iff_mem.2 ((mem_residues_iff hi h).1 he)
  · refine ((List.perm_ext_iff_of_nodup ?_ (.of_map _ hnodup)).2 fun e =>
      mem_residues_iff hi h).length_eq
    refine List.Nodup.filter _ (.of_map Prod.fst ?_)
    simpa [Function.comp_def] using q.nodup_monomials

/-! ## Sequences of images -/

/-- Images modulo distinct odd primes. -/
structure IsImageSequence (images : List (ℕ × List (Monomial × ℕ))) : Prop where
  prime : ∀ i ∈ images, i.1.Prime
  ne_two : ∀ i ∈ images, i.1 ≠ 2
  nodup : (images.map Prod.fst).Nodup
  isImage : ∀ i ∈ images, IsImage i.1 i.2

/-- The state after a sequence of images. -/
def ofImages (images : List (ℕ × List (Monomial × ℕ))) : Reconstruction :=
  images.foldl (fun r i => (r.add i.1 i.2).2) {}

theorem ofImages_append (images : List (ℕ × List (Monomial × ℕ))) (p : ℕ)
    (image : List (Monomial × ℕ)) :
    ofImages (images ++ [(p, image)]) = ((ofImages images).add p image).2 := by
  simp [ofImages]

section

variable {images : List (ℕ × List (Monomial × ℕ))} {image : List (Monomial × ℕ)}
  {r : Reconstruction}

theorem IsImageSequence.pairwise_coprime (h : IsImageSequence images) :
    (images.map Prod.fst).Pairwise Nat.Coprime := by
  refine h.nodup.imp_of_mem fun {p q} hp hq hne => ?_
  obtain ⟨i, hi, rfl⟩ := List.mem_map.1 hp
  obtain ⟨j, hj, rfl⟩ := List.mem_map.1 hq
  exact (Nat.coprime_primes (h.prime i hi) (h.prime j hj)).2 hne

theorem IsImageSequence.odd_prod (h : IsImageSequence images) :
    Odd (images.map Prod.fst).prod := by
  refine List.prod_induction Odd (fun a b => Odd.mul) odd_one fun p hp => ?_
  obtain ⟨i, hi, rfl⟩ := List.mem_map.1 hp
  exact (h.prime i hi).odd_of_ne_two (h.ne_two i hi)

theorem IsImageSequence.of_append {js : List (ℕ × List (Monomial × ℕ))}
    (h : IsImageSequence (images ++ js)) : IsImageSequence images where
  prime i hi := h.prime i (List.mem_append_left _ hi)
  ne_two i hi := h.ne_two i (List.mem_append_left _ hi)
  nodup := by
    have := h.nodup
    rw [List.map_append] at this
    exact this.of_append_left
  isImage i hi := h.isImage i (List.mem_append_left _ hi)

/-! ## The states -/

@[simp] theorem modulus_add (p : ℕ) (image : List (Monomial × ℕ)) (r : Reconstruction) :
    (r.add p image).2.modulus = (r.addImage p image).modulus := by
  rw [add]
  split
  · split_ifs <;> rfl
  · rfl

@[simp] theorem residues_add (p : ℕ) (image : List (Monomial × ℕ)) (r : Reconstruction) :
    (r.add p image).2.residues = (r.addImage p image).residues := by
  rw [add]
  split
  · split_ifs <;> rfl
  · rfl

@[simp] theorem poly?_add (p : ℕ) (image : List (Monomial × ℕ)) (r : Reconstruction) :
    (r.add p image).2.poly? = (r.addImage p image).poly? := by
  rw [poly?, residues_add, modulus_add, poly?]

theorem order_of_poly? {q : Poly} (h : r.poly? = some q) : q.order = .grLex := by
  obtain ⟨ts, -, rfl⟩ := Option.map_eq_some_iff.1 h
  rfl

/-- The last reconstruction that is kept is the current one. -/
theorem last_add (h : ∀ q, r.last = some q → q.order = .grLex) :
    (r.add p image).2.last = (r.addImage p image).poly? := by
  rw [add]
  split
  · rename_i q q' hq hq'
    split_ifs with hs
    · rw [Bool.and_eq_true] at hs
      rw [hq]
      change r.last = _
      rw [hq', Poly.ext ((h q' hq').trans (order_of_poly? hq).symm) (eq_of_beq hs.2).symm]
    · rfl
  · rfl

/-- Only the current reconstruction is returned. -/
theorem poly?_of_add {q : Poly} (h : (r.add p image).1 = some q) :
    (r.addImage p image).poly? = some q := by
  rw [add] at h
  split at h
  · split_ifs at h
    cases h
    assumption
  · cases h

/-- A reconstruction that the next image neither refutes nor changes is returned. -/
theorem add_eq_some {q : Poly} (hlast : r.last = some q) (hq : reducesTo q p image = true)
    (hnext : (r.addImage p image).poly? = some q) : (r.add p image).1 = some q := by
  rw [add, hlast, hnext]
  dsimp only
  rw [if_pos]
  simp [addImage, hlast, hq, Poly.sameTerms]

theorem combines_ofImages (h : IsImageSequence images) : Combines images (ofImages images) := by
  induction images using List.reverseRecOn with
  | nil => exact .empty
  | append_singleton images i ih =>
    obtain ⟨p, image⟩ := i
    have hmem : (p, image) ∈ images ++ [(p, image)] := by simp
    have ih := ih h.of_append
    have hodd := h.of_append.odd_prod
    rw [← ih.modulus] at hodd
    have hcop : (ofImages images).modulus.Coprime p := by
      have hpairs := h.pairwise_coprime
      rw [List.map_append, List.pairwise_append] at hpairs
      rw [ih.modulus]
      exact Nat.coprime_list_prod_left_iff.2 fun q hq => hpairs.2.2 q hq p (.head _)
    have hnext := ih.addImage hodd.pos.ne' (h.prime _ hmem) hcop (h.isImage _ hmem)
    rw [ofImages_append]
    exact ⟨(modulus_add _ _ _).trans hnext.modulus, by simpa using hnext.nodup,
      by simpa using hnext.pos, by simpa using hnext.lt, by simpa using hnext.modEq⟩

theorem last_ofImages (images : List (ℕ × List (Monomial × ℕ))) :
    ∀ q, (ofImages images).last = some q → q.order = .grLex := by
  induction images using List.reverseRecOn with
  | nil => exact fun q h => by cases h
  | append_singleton images i ih =>
    intro q h
    rw [ofImages_append, last_add ih] at h
    exact order_of_poly? h

theorem comesFrom_ofImages (h : IsImageSequence images) {q : Poly}
    (hq : ∀ i ∈ images, IsImageOf i.1 i.2 q) {B : ℕ}
    (hB : B ≤ (ofImages images).modulus) (hle : q.CoeffsLE √((B : ℝ) / 2)) :
    ComesFrom (ofImages images) q := by
  have hc := combines_ofImages h
  refine ⟨fun m => ?_, fun t ht => ?_, fun t ht => ?_⟩
  · rw [hc.modulus]
    refine hasResidue_prod h.pairwise_coprime fun p hp => ?_
    obtain ⟨i, hi, rfl⟩ := List.mem_map.1 hp
    exact (hq i hi m).of_dvd dvd_rfl (Int.natCast_modEq_iff.2 (hc.modEq i hi m).symm)
  · refine le_trans (cast_le_sqrt_iff.1 ?_) (fractionBound_mono hB)
    have := (hle t ht).1
    rwa [← Int.cast_abs, Int.abs_eq_natAbs, Int.cast_natCast] at this
  · exact (cast_le_sqrt_iff.1 (hle t ht).2).trans (fractionBound_mono hB)

theorem isImageOf_withOrder {o : MonomialOrder} {q : Poly} (h : IsImageOf p image q) :
    IsImageOf p image (q.withOrder o) := fun m => by
  rw [Poly.coeffAt_withOrder]
  exact h m

/-- What is reconstructed reduces to all images. -/
theorem reducesTo_ofImages (h : IsImageSequence images) {q : Poly}
    (hq : (ofImages images).poly? = some q) :
    ∀ i ∈ images, reducesTo q i.1 i.2 = true := by
  intro i hi
  have hc := combines_ofImages h
  have h0 : (ofImages images).modulus ≠ 0 := hc.modulus ▸ h.odd_prod.pos.ne'
  exact reducesTo_of_isImageOf (h.prime i hi) (h.isImage i hi) (hc.isImageOf_of_poly? h0 hq hi)

/-- What all images come from is reconstructed. -/
theorem poly?_ofImages (h : IsImageSequence images) {q : Poly}
    (hq : ∀ i ∈ images, IsImageOf i.1 i.2 q) {B : ℕ} (hB : B ≤ (ofImages images).modulus)
    (hle : q.CoeffsLE √((B : ℝ) / 2)) :
    (ofImages images).poly? = some (q.withOrder .grLex) := by
  have hc := combines_ofImages h
  exact hc.poly?_eq_some (hc.modulus ▸ h.odd_prod) (comesFrom_ofImages h hq hB hle)

/-- After every image, the residues stand for all images so far, reconstructions reduce to all of
them, and a polynomial with small coefficients that they come from is reconstructed now and
confirmed by its next image. -/
theorem chinese_remainder {stable : Option Poly}
    (h : IsImageSequence (images ++ [(p, image)]))
    (hr : (ofImages images).add p image = (stable, r)) :
    (r.modulus = ((images ++ [(p, image)]).map Prod.fst).prod ∧
      (r.residues.map Prod.fst).Nodup ∧
      (∀ e ∈ r.residues, 0 < e.2 ∧ e.2 < r.modulus) ∧
      ∀ i ∈ images ++ [(p, image)], ∀ m, lookup m r.residues ≡ lookup m i.2 [MOD i.1]) ∧
    (∀ q, stable = some q ∨ r.poly? = some q →
      ∀ i ∈ images ++ [(p, image)], reducesTo q i.1 i.2 = true) ∧
    ∀ q, (∀ i ∈ images ++ [(p, image)], IsImageOf i.1 i.2 q) →
      q.CoeffsLE √((r.modulus : ℝ) / 2) →
      r.poly? = some (q.withOrder .grLex) ∧
      ∀ i, IsImageSequence (images ++ [(p, image)] ++ [i]) → IsImageOf i.1 i.2 q →
        (r.add i.1 i.2).1 = some (q.withOrder .grLex) := by
  have hstate : ofImages (images ++ [(p, image)]) = r := by rw [ofImages_append, hr]
  have hstable : ∀ q, stable = some q → r.poly? = some q := by
    intro q hq
    have := poly?_of_add (q := q) (by rw [hr]; exact hq)
    rwa [← poly?_add, hr] at this
  have hlast : r.last = r.poly? := by
    have : ((ofImages images).add p image).2.last = ((ofImages images).addImage p image).poly? :=
      last_add (last_ofImages images)
    rwa [← poly?_add, hr] at this
  have hc := combines_ofImages h
  have hreduces := fun q => reducesTo_ofImages h (q := q)
  rw [hstate] at hc hreduces
  refine ⟨⟨hc.modulus, hc.nodup, fun e he => ⟨hc.pos e he, hc.lt e he⟩, hc.modEq⟩,
    fun q hq => hreduces q (hq.elim (hstable q) id), fun q hq hle => ?_⟩
  have hpoly := poly?_ofImages h hq (by rw [hstate]) hle
  rw [hstate] at hpoly
  refine ⟨hpoly, fun i hi hqi => ?_⟩
  refine add_eq_some (hlast.trans hpoly) ?_ ?_
  · exact reducesTo_of_isImageOf (hi.prime i (by simp)) (hi.isImage i (by simp))
      (isImageOf_withOrder hqi)
  · have hi' : IsImageSequence (images ++ [(p, image)] ++ [(i.1, i.2)]) := hi
    have hnext := poly?_ofImages hi' (q := q) (B := r.modulus) ?_ ?_ hle
    · rwa [ofImages_append, poly?_add, hstate] at hnext
    · intro j hj
      rcases List.mem_append.1 hj with hj | hj
      · exact hq j hj
      · exact List.mem_singleton.1 hj ▸ hqi
    · rw [ofImages_append, modulus_add, hstate]
      exact Nat.le_mul_of_pos_right _ (hi.prime i (by simp)).pos

end

/-! ## A polynomial with one term -/

theorem isImageOf_singleton {o : MonomialOrder} {t : Term} {b : ℕ}
    (h : HasResidue p b t.coeff) : IsImageOf p [(t.monomial, b)] (.ofTerms o [t]) := by
  intro m
  rw [lookup]
  split_ifs with hm
  · have hn : ([t].map Term.monomial).Nodup := List.nodup_singleton _
    rw [← hm, Poly.coeffAt_ofTerms_of_mem o hn (.head _)]
    exact h
  · rw [Poly.coeffAt_ofTerms_of_notMem o (by simpa using Ne.symm hm)]
    exact hasResidue_zero rfl

/-- The polynomial `2/3 * x`. -/
def twoThirds : Poly := .ofTerms .grLex [⟨2 / 3, .ofPower 0 1⟩]

/-- Its images modulo 101 and 103. -/
def imagesOfTwoThirds : List (ℕ × List (Monomial × ℕ)) :=
  [(101, [(.ofPower 0 1, 68)]), (103, [(.ofPower 0 1, 35)])]

theorem isImageSequence_twoThirds : IsImageSequence imagesOfTwoThirds where
  prime := by
    simp only [imagesOfTwoThirds, List.mem_cons, List.not_mem_nil, or_false, forall_eq_or_imp,
      forall_eq]
    norm_num
  ne_two := by decide
  nodup := by decide
  isImage := by
    simp only [imagesOfTwoThirds, List.mem_cons, List.not_mem_nil, or_false, forall_eq_or_imp,
      forall_eq]
    exact ⟨⟨by decide, by decide⟩, ⟨by decide, by decide⟩⟩

theorem isImageOf_twoThirds : ∀ i ∈ imagesOfTwoThirds, IsImageOf i.1 i.2 twoThirds := by
  simp only [imagesOfTwoThirds, List.mem_cons, List.not_mem_nil, or_false, forall_eq_or_imp,
    forall_eq]
  constructor
  · exact isImageOf_singleton (t := ⟨2 / 3, .ofPower 0 1⟩) ⟨by decide +kernel, by decide +kernel⟩
  · exact isImageOf_singleton (t := ⟨2 / 3, .ofPower 0 1⟩) ⟨by decide +kernel, by decide +kernel⟩

theorem coeffsLE_twoThirds : twoThirds.CoeffsLE √(((101 : ℕ) : ℝ) / 2) := by
  have hterms : twoThirds.terms = [⟨2 / 3, .ofPower 0 1⟩] := by decide +kernel
  have hnum : (2 / 3 : ℚ).num = 2 := by decide +kernel
  have hden : (2 / 3 : ℚ).den = 3 := by decide +kernel
  intro t ht
  rw [hterms, List.mem_singleton] at ht
  subst ht
  rw [hnum, hden]
  constructor
  · refine (Real.le_sqrt (abs_nonneg _) (by norm_num)).2 (by norm_num)
  · refine (Real.le_sqrt (Nat.cast_nonneg _) (by norm_num)).2 (by norm_num)

/-- One image gives the polynomial, and the second one confirms it. -/
theorem chinese_remainder_twoThirds :
    (({} : Reconstruction).add 101 [(.ofPower 0 1, 68)]).2.poly? = some twoThirds ∧
      ((({} : Reconstruction).add 101 [(.ofPower 0 1, 68)]).2.add 103 [(.ofPower 0 1, 35)]).1 =
        some twoThirds := by
  have hboth : IsImageSequence
      ([] ++ [(101, [(.ofPower 0 1, 68)])] ++ [(103, [(.ofPower 0 1, 35)])]) :=
    isImageSequence_twoThirds
  have hr : (ofImages []).add 101 [(.ofPower 0 1, 68)] =
      (((ofImages []).add 101 [(.ofPower 0 1, 68)]).1,
        ((ofImages []).add 101 [(.ofPower 0 1, 68)]).2) := rfl
  have hmodulus : ((ofImages []).add 101 [(.ofPower 0 1, 68)]).2.modulus = 101 :=
    modulus_add _ _ _
  have horder : twoThirds.withOrder .grLex = twoThirds := if_pos rfl
  obtain ⟨-, -, h⟩ := chinese_remainder hboth.of_append hr
  obtain ⟨hpoly, hnext⟩ := h twoThirds
    (fun i hi => isImageOf_twoThirds i (List.mem_append_left _ hi))
    (by rw [hmodulus]; exact coeffsLE_twoThirds)
  rw [horder] at hpoly
  have hsecond := hnext (103, [(.ofPower 0 1, 35)]) hboth
    (isImageOf_twoThirds _ (by simp [imagesOfTwoThirds]))
  rw [horder] at hsecond
  exact ⟨hpoly, hsecond⟩

end Reconstruction

end Cylindrical
