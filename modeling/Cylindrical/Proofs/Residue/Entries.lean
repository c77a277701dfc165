import Mathlib
import Cylindrical.Proofs.Poly.Factorization
import Cylindrical.Proofs.Residue.ChineseRemainder
import Cylindrical.Proofs.Residue.Image

/-!
# Entries of images

The nonzero coefficients of the image of a polynomial are the residues of its own coefficients, as far
as these are not zero, whichever main variables the recursion runs through (`perm_entries`).  So there
is an image exactly when no denominator is divisible by the prime, and the test `Residue.reducesTo`,
which knows of no recursive form, decides whether a given list is the image (`reducesTo_iff`).
-/

namespace Cylindrical

/-- The members of a list, collected by a number below `n`. -/
theorem perm_flatMap_filter {α : Type*} (f : α → ℕ) {n : ℕ} {xs : List α} (h : ∀ x ∈ xs, f x < n) :
    ((List.range n).flatMap fun k => xs.filter fun x => f x == k).Perm xs := by
  induction n generalizing xs with
  | zero =>
    obtain rfl : xs = [] := List.eq_nil_iff_forall_not_mem.2 fun x hx => Nat.not_lt_zero _ (h x hx)
    exact .refl _
  | succ n ih =>
    have hbelow : ∀ k ∈ List.range n, (xs.filter fun x => f x == k) =
        (xs.filter fun x => f x != n).filter fun x => f x == k := by
      intro k hk
      rw [List.filter_filter]
      refine List.filter_congr fun x _ => ?_
      have := List.mem_range.1 hk
      by_cases hx : f x = k
      · simp [hx, this.ne]
      · simp [hx]
    rw [List.range_succ, List.flatMap_append, List.flatMap_congr hbelow, List.flatMap_singleton]
    refine ((ih fun x hx => ?_).append_right _).trans ?_
    · obtain ⟨hx, hne⟩ := List.mem_filter.1 hx
      have := h x hx
      simp only [bne_iff_ne] at hne
      omega
    · refine List.perm_append_comm.trans ?_
      simpa only [bne] using List.filter_append_perm (fun x => f x == n) xs

/-- Applying a partial function to all members. -/
theorem isSome_mapM_iff {α β : Type} {f : α → Option β} {xs : List α} :
    (xs.mapM f).isSome ↔ ∀ x ∈ xs, (f x).isSome := by
  induction xs with
  | nil => simp
  | cons x xs ih =>
    rw [List.mapM_cons, List.forall_mem_cons, ← ih]
    cases f x <;> cases xs.mapM f <;> simp

namespace Poly

/-! ## Terms of coefficients -/

theorem perm_terms_ofTerms (o : MonomialOrder) {ts : List Term}
    (hn : (ts.map Term.monomial).Nodup) (h0 : ∀ t ∈ ts, t.coeff ≠ 0) :
    (ofTerms o ts).terms.Perm ts := by
  refine (List.perm_ext_iff_of_nodup (.of_map _ (nodup_monomials _)) (.of_map _ hn)).2 fun t => ?_
  rw [mem_terms_iff]
  refine ⟨fun ⟨ht, hc⟩ => ?_, fun ht => ⟨h0 t ht, coeffAt_ofTerms_of_mem o hn ht⟩⟩
  have hmem : t.monomial ∈ ts.map Term.monomial := by
    by_contra hnot
    exact ht (hc.symm.trans (coeffAt_ofTerms_of_notMem o hnot))
  obtain ⟨s, hs, hst⟩ := List.mem_map.1 hmem
  obtain rfl : s = t := by
    rw [← hst, coeffAt_ofTerms_of_mem o hn hs] at hc
    cases s
    cases t
    cases hst
    cases hc
    rfl
  exact hs

theorem eq_of_without {v : ℕ} {m n : Monomial} (hd : m.degreeOf v = n.degreeOf v)
    (h : m.without v = n.without v) : m = n := by
  rw [← Monomial.toFinsupp_inj, Monomial.toFinsupp_eq_single_add_erase v,
    Monomial.toFinsupp_eq_single_add_erase v n, ← Monomial.toFinsupp_without,
    ← Monomial.toFinsupp_without, h, hd]

theorem perm_terms_coeff (v k : ℕ) (q : Poly) : (q.coeff v k).terms.Perm
    ((q.terms.filter fun t => t.monomial.degreeOf v == k).map fun t =>
      ⟨t.coeff, t.monomial.without v⟩) := by
  refine perm_terms_ofTerms _ ?_ fun t ht => ?_
  · rw [List.map_map]
    refine List.Nodup.map_on (fun s hs t ht hst => ?_) (q.nodup_terms.filter _)
    obtain ⟨hs, hsk⟩ := List.mem_filter.1 hs
    obtain ⟨ht, htk⟩ := List.mem_filter.1 ht
    rw [beq_iff_eq] at hsk htk
    exact List.inj_on_of_nodup_map q.nodup_monomials hs ht (eq_of_without (hsk.trans htk.symm) hst)
  · obtain ⟨s, hs, rfl⟩ := List.mem_map.1 ht
    exact q.valid.nonzero s (List.mem_filter.1 hs).1

/-- A number is the sum of at most one term. -/
theorem terms_of_isNumber {q : Poly} (hq : q.isNumber = true) :
    (q.terms = [] ∧ q.constantValue = 0) ∨
      ∃ t, q.terms = [t] ∧ t.monomial = 1 ∧ q.constantValue = t.coeff := by
  rw [isNumber, isZero, isConstant] at hq
  rw [constantValue]
  cases hts : q.terms with
  | nil => exact .inl ⟨rfl, rfl⟩
  | cons t ts =>
    cases ts with
    | cons u us => simp [hts] at hq
    | nil =>
      have hunit : t.monomial.isUnit = true := by simpa [hts] using hq
      refine .inr ⟨t, rfl, ?_, if_pos hunit⟩
      rw [← Monomial.toFinsupp_inj, (Monomial.isUnit_iff _).1 hunit, Monomial.toFinsupp_one]

end Poly

namespace Residue

variable {p : ℕ}

/-- The nonzero residues of the coefficients of terms, with their monomials multiplied by `m`. -/
def residues (p : ℕ) (m : Monomial) (ts : List Term) : List (Monomial × ℕ) :=
  (ts.map fun t => (m * t.monomial, (ofRat? p t.coeff).getD 0)).filter fun e => e.2 != 0

theorem residues_perm {m : Monomial} {ts us : List Term} (h : ts.Perm us) :
    (residues p m ts).Perm (residues p m us) := (h.map _).filter _

theorem residues_flatMap {α : Type*} (m : Monomial) (xs : List α) (f : α → List Term) :
    residues p m (xs.flatMap f) = xs.flatMap fun x => residues p m (f x) := by
  simp only [residues, List.map_flatMap, List.filter_flatMap]

theorem residues_one (ts : List Term) : residues p 1 ts =
    (ts.map fun t => (t.monomial, (ofRat? p t.coeff).getD 0)).filter fun e => e.2 != 0 := by
  have h : ∀ m : Monomial, 1 * m = m := fun m => by
    rw [← Monomial.toFinsupp_inj, Monomial.toFinsupp_mul, Monomial.toFinsupp_one, zero_add]
  simp only [residues, h]

theorem ofRat?_isSome_iff {x : ℚ} : (ofRat? p x).isSome ↔ ¬p ∣ x.den := by
  rw [ofRat?, inverse?, Option.isSome_map, Nat.dvd_iff_mod_eq_zero]
  split_ifs with h <;> simp [h]

theorem ofRat?_zero {r : ℕ} (h : ofRat? p 0 = some r) : r = 0 := by
  obtain ⟨s, -, rfl⟩ := Option.map_eq_some_iff.1 h
  simp [mul, ofInt]

end Residue

namespace ResiduePoly

open Residue

variable {p : ℕ}

/-! ## Images and their entries -/

theorem entries_of_isZero (powers : List (ℕ × ℕ)) {a : ResiduePoly} (h : a.isZero = true) :
    a.entries powers = [] := by
  cases a with
  | const a =>
    rw [isZero, beq_iff_eq] at h
    rw [h, entries, if_pos rfl]
  | node v cs => simp [isZero] at h

theorem entriesFrom_trim (powers : List (ℕ × ℕ)) (v i : ℕ) (cs : List ResiduePoly) :
    entriesFrom powers v i (trim cs) = entriesFrom powers v i cs := by
  induction cs generalizing i with
  | nil => rfl
  | cons c cs ih =>
    rw [trim, entriesFrom, ← ih]
    cases htrim : trim cs with
    | nil =>
      dsimp only
      split
      · rename_i hc
        rw [entriesFrom, entriesFrom, entries_of_isZero _ hc]
        rfl
      · rw [entriesFrom, entriesFrom, entriesFrom]
    | cons d ds => rw [entriesFrom]

theorem entries_ofCoeffs (powers : List (ℕ × ℕ)) (v : ℕ) (cs : List ResiduePoly) :
    entries powers (ofCoeffs v cs) = entriesFrom powers v 0 cs := by
  rw [ofCoeffs, ← entriesFrom_trim]
  split
  · rename_i heq
    rw [heq, entriesFrom, entries_of_isZero powers rfl]
  · rename_i heq
    rw [heq, entriesFrom, entriesFrom, if_pos rfl, List.append_nil]
  · rw [entries]

theorem ofPowers_mul_without {v i : ℕ} (powers : List (ℕ × ℕ)) {m : Monomial}
    (h : m.degreeOf v = i) :
    Monomial.ofPowers (if i = 0 then powers else (v, i) :: powers) * m.without v =
      .ofPowers powers * m := by
  have hm := Monomial.toFinsupp_eq_single_add_erase v m
  rw [h] at hm
  rw [← Monomial.toFinsupp_inj, Monomial.toFinsupp_mul, Monomial.toFinsupp_mul,
    Monomial.toFinsupp_without, Monomial.toFinsupp_ofPowers, Monomial.toFinsupp_ofPowers]
  conv_rhs => rw [hm]
  split_ifs with hi
  · rw [hi, Finsupp.single_zero, zero_add]
  · rw [exponentsOf_cons, add_assoc, add_left_comm]

theorem entries_const {q : Poly} (hq : q.isNumber = true) (powers : List (ℕ × ℕ)) {r : ℕ}
    (hr : ofRat? p q.constantValue = some r) :
    (const r).entries powers = residues p (.ofPowers powers) q.terms := by
  rcases Poly.terms_of_isNumber hq with ⟨hts, hc⟩ | ⟨t, hts, ht, hc⟩
  · rw [hc] at hr
    rw [hts, ofRat?_zero hr]
    exact entries_of_isZero powers rfl
  · rw [hc] at hr
    have hone : ∀ m : Monomial, m * t.monomial = m := fun m => by
      rw [ht, ← Monomial.toFinsupp_inj, Monomial.toFinsupp_mul, Monomial.toFinsupp_one, add_zero]
    rw [hts, entries, residues, List.map_singleton, hr, Option.getD_some, hone]
    split_ifs with h0 <;> simp [h0]

/-- The entries of the images of coefficients are those of the terms with these powers. -/
theorem perm_entriesFrom {n v : ℕ} {q : Poly} (powers : List (ℕ × ℕ))
    (hentries : ∀ {q : Poly} {a : ResiduePoly} (powers : List (ℕ × ℕ)),
      ofPolyUpTo? p n q = some a → (a.entries powers).Perm (residues p (.ofPowers powers) q.terms))
    {i len : ℕ} {cs : List ResiduePoly}
    (h : List.Forall₂ (fun k c => ofPolyUpTo? p n (q.coeff v k) = some c) (List.range' i len) cs) :
    (entriesFrom powers v i cs).Perm ((List.range' i len).flatMap fun k =>
      residues p (.ofPowers powers) (q.terms.filter fun t => t.monomial.degreeOf v == k)) := by
  induction len generalizing i cs with
  | zero =>
    cases h
    rw [entriesFrom]
    exact .refl _
  | succ len ih =>
    rw [List.range'_succ] at h ⊢
    obtain ⟨c, ds, hc, hds, rfl⟩ := List.forall₂_cons_left_iff.1 h
    rw [entriesFrom, List.flatMap_cons]
    refine ((hentries _ hc).trans ?_).append (ih hds)
    refine (residues_perm (q.perm_terms_coeff v i)).trans (.of_eq ?_)
    rw [residues, residues, List.map_map]
    congr 1
    refine List.map_congr_left fun t ht => ?_
    rw [Function.comp_apply, ofPowers_mul_without powers (by simpa using (List.mem_filter.1 ht).2)]

/-- The entries of an image are the nonzero residues of the coefficients. -/
theorem perm_entries {n : ℕ} {q : Poly} {a : ResiduePoly} (powers : List (ℕ × ℕ))
    (h : ofPolyUpTo? p n q = some a) :
    (a.entries powers).Perm (residues p (.ofPowers powers) q.terms) := by
  induction n generalizing q a powers with
  | zero => cases h
  | succ n ih =>
    cases hv : q.mainVar? with
    | none =>
      obtain ⟨r, hr, rfl⟩ := ofPolyUpTo?_of_isNumber hv h
      exact .of_eq (entries_const (Poly.mainVar?_eq_none_iff.1 hv) powers hr)
    | some v =>
      obtain ⟨cs, hcs, rfl⟩ := ofPolyUpTo?_of_mainVar? hv h
      rw [Poly.coeffs, List.forall₂_map_left_iff, List.range_eq_range'] at hcs
      rw [entries_ofCoeffs]
      refine (perm_entriesFrom powers ih hcs).trans ?_
      rw [← residues_flatMap, ← List.range_eq_range']
      exact residues_perm (perm_flatMap_filter _ fun t ht =>
        Nat.lt_succ_of_le (Poly.degreeOf_le_iff.1 le_rfl t ht))

/-- There is an image if the prime divides no denominator. -/
theorem isSome_ofPolyUpTo?_iff (hp : p.Prime) {n : ℕ} {q : Poly} (hn : q.toMv.vars.card < n) :
    (ofPolyUpTo? p n q).isSome ↔ ∀ t ∈ q.terms, ¬p ∣ t.coeff.den := by
  induction n generalizing q with
  | zero => omega
  | succ n ih =>
    rw [ofPolyUpTo?]
    cases hv : q.mainVar? with
    | none =>
      dsimp only
      rw [Option.isSome_map, ofRat?_isSome_iff]
      rcases Poly.terms_of_isNumber (Poly.mainVar?_eq_none_iff.1 hv) with ⟨hts, hc⟩ | ⟨t, hts, -, hc⟩
      · simp [hts, hc, hp.one_lt.ne']
      · simp [hts, hc]
    | some v =>
      have hcard : ∀ k, (q.coeff v k).toMv.vars.card < n := fun k => by
        have hsub := Finset.ssubset_iff_of_subset (Poly.vars_coeff_subset v k q) |>.2
          ⟨v, Poly.mem_vars_of_mainVar? hv, Poly.notMem_vars_coeff v k q⟩
        have := Finset.card_lt_card hsub
        omega
      dsimp only
      rw [Option.isSome_map, isSome_mapM_iff]
      simp only [Poly.coeffs, List.forall_mem_map, ih (hcard _)]
      constructor
      · intro h t ht
        have hk : t.monomial.degreeOf v < q.degreeOf v + 1 :=
          Nat.lt_succ_of_le (Poly.degreeOf_le_iff.1 le_rfl t ht)
        exact h _ (List.mem_range.2 hk) ⟨t.coeff, t.monomial.without v⟩
          ((q.perm_terms_coeff v _).mem_iff.2 (List.mem_map.2 ⟨t, List.mem_filter.2 ⟨ht, by simp⟩, rfl⟩))
      · intro h k _ t ht
        obtain ⟨s, hs, rfl⟩ := List.mem_map.1 ((q.perm_terms_coeff v k).mem_iff.1 ht)
        exact h s (List.mem_filter.1 hs).1

theorem isSome_ofPoly?_iff (hp : p.Prime) (q : Poly) :
    (ofPoly? p q).isSome ↔ ∀ t ∈ q.terms, ¬p ∣ t.coeff.den :=
  isSome_ofPolyUpTo?_iff hp (Nat.lt_succ_of_le (Poly.card_vars_le q))

theorem perm_image {q : Poly} {a : ResiduePoly} (h : ofPoly? p q = some a) :
    a.image.Perm (residues p 1 q.terms) := perm_entries [] h

end ResiduePoly

namespace Residue

variable {p : ℕ} {image : List (Monomial × ℕ)}

theorem nodup_residues_one (q : Poly) : ((residues p 1 q.terms).map Prod.fst).Nodup := by
  rw [residues_one]
  refine List.Nodup.sublist (List.filter_sublist.map Prod.fst) ?_
  rw [List.map_map]
  exact q.nodup_monomials

/-- A list is the image of a polynomial if they have the same nonzero entries. -/
theorem reducesTo_iff (hp : p.Prime) (q : Poly) (hn : (image.map Prod.fst).Nodup) :
    reducesTo q p image = true ↔
      ∃ a, ResiduePoly.ofPoly? p q = some a ∧ a.image.Perm (image.filter fun e => e.2 != 0) := by
  have hres := (nodup_residues_one (p := p) q).of_map
  rw [reducesTo, lastEntries_of_nodup (hn.sublist (List.filter_sublist.map Prod.fst))]
  dsimp only
  rw [← residues_one]
  simp only [Bool.and_eq_true, List.all_eq_true, bne_iff_ne, ne_eq, List.contains_iff_mem,
    beq_iff_eq, ← Nat.dvd_iff_mod_eq_zero]
  rw [← ResiduePoly.isSome_ofPoly?_iff hp, Option.isSome_iff_exists]
  constructor
  · rintro ⟨⟨a, ha⟩, hsub, hlen⟩
    exact ⟨a, ha, (ResiduePoly.perm_image ha).trans
      ((List.subperm_of_subset hres hsub).perm_of_length_le hlen.ge)⟩
  · rintro ⟨a, ha, hperm⟩
    have h := (ResiduePoly.perm_image ha).symm.trans hperm
    exact ⟨⟨a, ha⟩, fun e he => h.mem_iff.1 he, h.length_eq⟩

end Residue

end Cylindrical
