import Mathlib
import Cylindrical.RealRoot
import Cylindrical.Proofs.Poly.OneVariable
import Cylindrical.Proofs.Univariate.Parting

/-!
# Real roots

The linear factors of a polynomial in one variable and the product of the others have no root in
common, so every root is either one of the numbers that are exact, or in one of the intervals that
isolate the roots of that product (`value_eq_zero_iff`).  As the intervals end up apart from all exact
numbers, any two entries are apart, and sorting by the lower ends puts the roots in increasing order
(`realRoots_spec`).
-/

noncomputable section

open MvPolynomial

namespace Cylindrical

/-! ## Entries -/

namespace RealRoot

/-- The first entry lies to the left of the second; exact numbers are not in closed intervals. -/
def Before : RealRoot → RealRoot → Prop
  | exact x, exact y => x < y
  | exact x, within s => x < s.lo
  | within s, exact x => s.hi < x
  | within s, within t => s.hi ≤ t.lo

/-- The entry is the number, or an open interval in which the number is the only root of the
polynomial and whose ends are no roots. -/
def Describes (p : Poly) : RealRoot → ℝ → Prop
  | exact q, x => x = q
  | within s, x => x ∈ Set.Ioo (s.lo : ℝ) s.hi ∧
      (∀ y ∈ Set.Ioo (s.lo : ℝ) s.hi, p.value (fun _ => y) = 0 → y = x) ∧
      p.value (fun _ => (s.lo : ℝ)) ≠ 0 ∧ p.value (fun _ => (s.hi : ℝ)) ≠ 0

variable {p : Poly} {q r : RealRoot} {x y : ℝ}

theorem Describes.unique (h : q.Describes p x) (h' : q.Describes p y)
    (hy : p.value (fun _ => y) = 0) : y = x := by
  cases q with
  | exact a => exact Eq.trans h' (Eq.symm h)
  | within s => exact h.2.1 y h'.1 hy

/-- The numbers have the order of the entries. -/
theorem Before.lt (h : q.Before r) (hq : q.Describes p x) (hr : r.Describes p y) : x < y := by
  cases q with
  | exact a =>
    cases r with
    | exact b =>
      rw [show x = a from hq, show y = b from hr]
      exact Rat.cast_lt.2 h
    | within t =>
      rw [show x = a from hq]
      exact (Rat.cast_lt.2 h).trans hr.1.1
  | within s =>
    cases r with
    | exact b =>
      rw [show y = b from hr]
      exact hq.1.2.trans (Rat.cast_lt.2 h)
    | within t => exact (hq.1.2.trans_le (Rat.cast_le.2 h)).trans hr.1.1

/-- Of two entries that are apart, the one with the smaller lower end comes first. -/
theorem Before.of_lower_le (h : q.Before r ∨ r.Before q) (hle : q.lower ≤ r.lower)
    (hq : q.Describes p x) (hr : r.Describes p y) : q.Before r := by
  refine h.resolve_right fun hrq => ?_
  have hlt : r.lower < q.lower := by
    cases r with
    | exact b =>
      cases q with
      | exact a => exact hrq
      | within s => exact hrq
    | within t =>
      have hnonempty : t.lo < t.hi := by
        have := hr.1.1.trans hr.1.2
        exact_mod_cast this
      cases q with
      | exact a => exact hnonempty.trans hrq
      | within s => exact lt_of_lt_of_le hnonempty hrq
  exact absurd hle (not_le.2 hlt)

/-! ## Sorting -/

theorem perm_insert (r : RealRoot) (rs : List RealRoot) : (r.insert rs).Perm (r :: rs) := by
  induction rs with
  | nil => exact .refl _
  | cons q qs ih =>
    unfold insert
    split_ifs
    · exact .refl _
    · exact (ih.cons q).trans (.swap r q qs)

theorem pairwise_insert {rs : List RealRoot} (h : rs.Pairwise fun q r => q.lower ≤ r.lower) :
    (r.insert rs).Pairwise fun q r => q.lower ≤ r.lower := by
  induction rs with
  | nil => exact List.pairwise_singleton _ _
  | cons q qs ih =>
    obtain ⟨hq, hqs⟩ := List.pairwise_cons.1 h
    unfold insert
    split_ifs with hle
    · refine .cons (List.forall_mem_cons.2 ⟨hle, fun t ht => hle.trans (hq t ht)⟩) h
    · refine .cons (fun t ht => ?_) (ih hqs)
      rcases List.mem_cons.1 ((perm_insert r qs).mem_iff.1 ht) with rfl | ht
      · exact (not_le.1 hle).le
      · exact hq t ht

theorem perm_foldr_insert (rs : List RealRoot) : (rs.foldr insert []).Perm rs := by
  induction rs with
  | nil => exact .refl _
  | cons r rs ih => exact (perm_insert r _).trans (ih.cons r)

theorem pairwise_foldr_insert (rs : List RealRoot) :
    (rs.foldr insert []).Pairwise fun q r => q.lower ≤ r.lower := by
  induction rs with
  | nil => exact .nil
  | cons r rs ih => exact pairwise_insert ih

end RealRoot

/-- The entries describe exactly the real roots, and any two of them are apart. -/
structure FindsRoots (p : Poly) (roots : List RealRoot) : Prop where
  isRoot : ∀ r ∈ roots, ∃ x : ℝ, p.value (fun _ => x) = 0 ∧ r.Describes p x
  complete : ∀ x : ℝ, p.value (fun _ => x) = 0 → ∃ r ∈ roots, r.Describes p x
  apart : roots.Pairwise fun q r => q.Before r ∨ r.Before q

namespace FindsRoots

variable {p : Poly} {roots : List RealRoot}

/-- Sorting puts the entries in order. -/
theorem sorted (h : FindsRoots p roots) :
    FindsRoots p (roots.foldr RealRoot.insert []) ∧
      (roots.foldr RealRoot.insert []).Pairwise RealRoot.Before := by
  have hperm := RealRoot.perm_foldr_insert roots
  have hroot : ∀ r ∈ roots.foldr RealRoot.insert [], ∃ x : ℝ,
      p.value (fun _ => x) = 0 ∧ r.Describes p x := fun r hr => h.isRoot r (hperm.mem_iff.1 hr)
  have happart := (hperm.pairwise_iff fun {_ _} => Or.symm).2 h.apart
  refine ⟨⟨hroot, fun x hx => ?_, happart⟩, ?_⟩
  · obtain ⟨r, hr, hdescribes⟩ := h.complete x hx
    exact ⟨r, hperm.mem_iff.2 hr, hdescribes⟩
  · refine (happart.and (RealRoot.pairwise_foldr_insert roots)).imp_of_mem fun hq hr hqr => ?_
    obtain ⟨x, -, hx⟩ := hroot _ hq
    obtain ⟨y, -, hy⟩ := hroot _ hr
    exact .of_lower_le hqr.1 hqr.2 hx hy

/-- The roots themselves, one for each entry. -/
theorem exists_roots (h : FindsRoots p roots) (hbefore : roots.Pairwise RealRoot.Before) :
    ∃ xs : List ℝ, List.Forall₂ (RealRoot.Describes p) roots xs ∧ xs.Pairwise (· < ·) ∧
      ∀ x, x ∈ xs ↔ p.value (fun _ => x) = 0 := by
  obtain ⟨root, hroot⟩ : ∃ root : RealRoot → ℝ, ∀ r ∈ roots,
      p.value (fun _ => root r) = 0 ∧ r.Describes p (root r) := by
    choose! root hroot using h.isRoot
    exact ⟨root, hroot⟩
  refine ⟨roots.map root, ?_, ?_, fun x => ⟨fun hx => ?_, fun hx => ?_⟩⟩
  · rw [List.forall₂_map_right_iff, List.forall₂_same]
    exact fun r hr => (hroot r hr).2
  · refine List.pairwise_map.2 (hbefore.imp_of_mem fun hq hr hqr => ?_)
    exact hqr.lt (hroot _ hq).2 (hroot _ hr).2
  · obtain ⟨r, hr, rfl⟩ := List.mem_map.1 hx
    exact (hroot r hr).1
  · obtain ⟨r, hr, hdescribes⟩ := h.complete x hx
    exact List.mem_map.2 ⟨r, hr, hdescribes.unique (hroot r hr).2 (hroot r hr).1⟩

end FindsRoots

namespace Poly

open Univariate

variable {v : ℕ} {p q : Poly} {fs : List Poly} {cs : List ℚ}

/-! ## Linear factors and the others -/

/-- The coefficients of the product of the factors that are not linear. -/
def nonlinearCoeffs (v : ℕ) (F : Factorization) : List ℚ :=
  ((partLinear v (F.factors.map (·.1))).2.univariate? v).getD []

/-- The roots of the linear factors. -/
def linearRoots (v : ℕ) (F : Factorization) : List ℚ := (partLinear v (F.factors.map (·.1))).1

theorem associated_of_univariate? {f : Poly} {a b : ℚ} (hf : f.toMv ≠ 0)
    (h : f.univariate? v = some [a, b]) : Associated f.toMv (linearFactor v (-a / b)).toMv := by
  obtain ⟨c, hc, hlast⟩ := exists_getLast?_univariate? hf h
  obtain rfl : b = c := by simpa using hlast
  have hmul : f.toMv = C b * (X v - C (-a / b)) := by
    rw [toMv_of_univariate? h, mul_sub, ← C_mul, mul_div_cancel₀ _ hc]
    simp only [toPolynomial_cons, toPolynomial_nil, zero_mul, zero_add, map_add, map_mul,
      Polynomial.aeval_C, Polynomial.aeval_X, MvPolynomial.algebraMap_eq, C_neg]
    ring
  rw [hmul]
  exact (associated_unit_mul_left _ _ ((isUnit_iff_ne_zero.2 hc).map C)).trans
    (associated_linearFactor v _).symm

/-- One step of the separation of the linear factors. -/
def partStep (v : ℕ) (parts : List ℚ × Poly) (f : Poly) : List ℚ × Poly :=
  match f.univariate? v with
  | some [a, b] => (parts.1 ++ [-a / b], parts.2)
  | _ => (parts.1, parts.2 * f)

theorem partLinear_eq (v : ℕ) (fs : List Poly) : partLinear v fs = fs.foldl (partStep v) ([], 1) := rfl

theorem partStep_cases (v : ℕ) (parts : List ℚ × Poly) (f : Poly) :
    (∃ a b, f.univariate? v = some [a, b] ∧
      partStep v parts f = (parts.1 ++ [-a / b], parts.2)) ∨
      partStep v parts f = (parts.1, parts.2 * f) := by
  unfold partStep
  split
  · exact .inl ⟨_, _, by assumption, rfl⟩
  · exact .inr rfl

/-- What the linear roots and the product of the others stand for. -/
def joined (v : ℕ) (parts : List ℚ × Poly) : MvPolynomial ℕ ℚ :=
  product (parts.1.map (linearFactor v)) * parts.2.toMv

theorem associated_joined_partStep {f : Poly} (hf : f.toMv ≠ 0) (parts : List ℚ × Poly) :
    Associated (joined v parts * f.toMv) (joined v (partStep v parts f)) := by
  unfold joined
  rcases partStep_cases v parts f with ⟨a, b, hab, hstep⟩ | hstep
  · rw [hstep, List.map_append, product_append, List.map_singleton, product_cons, product_nil,
      mul_one, mul_right_comm]
    exact ((associated_of_univariate? hf hab).mul_left _).mul_right _
  · rw [hstep, toMv_mul, mul_assoc]

/-- Taking the roots of linear factors loses nothing but constants. -/
theorem associated_partLinear (hfs : ∀ f ∈ fs, f.toMv ≠ 0) :
    Associated (product fs) (joined v (partLinear v fs)) := by
  suffices hfold : ∀ parts : List ℚ × Poly,
      Associated (joined v parts * product fs) (joined v (fs.foldl (partStep v) parts)) by
    have h := hfold ([], 1)
    rwa [← partLinear_eq, joined, List.map_nil, product_nil, toMv_one, one_mul, one_mul] at h
  induction fs with
  | nil =>
    intro parts
    rw [product_nil, mul_one]
    rfl
  | cons f fs ih =>
    obtain ⟨hf, hfs⟩ := List.forall_mem_cons.1 hfs
    intro parts
    rw [List.foldl_cons, product_cons, ← mul_assoc]
    exact ((associated_joined_partStep hf parts).mul_right _).trans (ih hfs _)

/-- In another order the same factors are linear. -/
theorem alike_partStep {parts parts' : List ℚ × Poly} {f g : Poly} (h : Alike v f g)
    (hparts : parts.1 = parts'.1 ∧ Alike v parts.2 parts'.2) :
    (partStep v parts f).1 = (partStep v parts' g).1 ∧
      Alike v (partStep v parts f).2 (partStep v parts' g).2 := by
  unfold partStep
  rw [h.univariate?]
  split
  · exact ⟨by simp only [hparts.1], hparts.2⟩
  · exact ⟨hparts.1, hparts.2.mul h⟩

theorem alike_partLinear {gs : List Poly} (h : List.Forall₂ (Alike v) fs gs) :
    (partLinear v fs).1 = (partLinear v gs).1 ∧ Alike v (partLinear v fs).2 (partLinear v gs).2 := by
  suffices hfold : ∀ {parts parts' : List ℚ × Poly},
      parts.1 = parts'.1 ∧ Alike v parts.2 parts'.2 →
      (fs.foldl (partStep v) parts).1 = (gs.foldl (partStep v) parts').1 ∧
        Alike v (fs.foldl (partStep v) parts).2 (gs.foldl (partStep v) parts').2 by
    exact hfold ⟨rfl, .refl (by simp)⟩
  induction h with
  | nil => exact fun h => h
  | cons hfg _ ih => exact fun hparts => ih (alike_partStep hfg hparts)

/-! ## Values -/

theorem value_of_univariate? (h : p.univariate? v = some cs) (y : ℝ) :
    p.value (fun _ => y) = (toReal cs).eval y := by
  rw [value, toMv_of_univariate? h, ← Polynomial.aeval_algHom_apply, aeval_X, toReal,
    Polynomial.eval_map_algebraMap]

theorem squarefree_of_univariate? (h : p.univariate? v = some cs) (hp : Squarefree p.toMv) :
    Squarefree (toPolynomial cs) := by
  rw [toMv_of_univariate? h] at hp
  intro A hA
  have hunit : IsUnit (Polynomial.aeval (X v : MvPolynomial ℕ ℚ) A) :=
    hp _ (map_mul (Polynomial.aeval (X v : MvPolynomial ℕ ℚ)) A A ▸ map_dvd _ hA)
  obtain ⟨c, hc, heq⟩ := MvPolynomial.isUnit_iff_eq_C_of_isReduced.1 hunit
  have hconst : A = Polynomial.C c := by
    ext k
    rw [← coeff_single_aeval v, heq, MvPolynomial.coeff_C, Polynomial.coeff_C]
    simp [eq_comm]
  rw [hconst]
  exact hc.map Polynomial.C

theorem value_linearFactor_eq_zero_iff (v : ℕ) (x : ℚ) (y : ℝ) :
    (linearFactor v x).value (fun _ => y) = 0 ↔ y = x := by
  have hden : (x.den : ℝ) ≠ 0 := Nat.cast_ne_zero.2 x.den_ne_zero
  rw [value, toMv_linearFactor]
  simp [hden, sub_eq_zero]

theorem value_product_eq_zero_iff (x : ℕ → ℝ) (fs : List Poly) :
    aeval x (product fs) = 0 ↔ ∃ f ∈ fs, f.value x = 0 := by
  rw [product, map_list_prod, List.prod_eq_zero_iff, List.map_map, List.mem_map]
  rfl

theorem value_powerProduct_eq_zero_iff (x : ℕ → ℝ) {fs : List (Poly × ℕ)} (h : ∀ f ∈ fs, 0 < f.2) :
    aeval x (powerProduct fs) = 0 ↔ aeval x (product (fs.map (·.1))) = 0 := by
  rw [value_product_eq_zero_iff, powerProduct, map_list_prod, List.prod_eq_zero_iff]
  simp only [List.map_map, List.mem_map, exists_exists_and_eq_and]
  refine exists_congr fun f => and_congr_right fun hf => ?_
  rw [Function.comp_apply, map_pow, pow_eq_zero_iff (h f hf).ne']
  rfl

theorem value_joined_eq_zero_iff (v : ℕ) (parts : List ℚ × Poly) (y : ℝ) :
    aeval (fun _ => y) (joined v parts) = 0 ↔
      (∃ x ∈ parts.1, y = x) ∨ parts.2.value (fun _ => y) = 0 := by
  rw [joined, map_mul, mul_eq_zero, value_product_eq_zero_iff]
  simp only [List.mem_map, exists_exists_and_eq_and, value_linearFactor_eq_zero_iff]
  rfl

/-! ## The two kinds of roots -/

/-- The real roots are the exact numbers and the roots of a square-free polynomial that has none of
them. -/
structure Separated (p : Poly) (xs cs : List ℚ) : Prop where
  nodup : xs.Nodup
  squarefree : Squarefree (toPolynomial cs)
  eval_ne_zero : ∀ x ∈ xs, eval cs x ≠ 0
  value_eq_zero_iff : ∀ y : ℝ,
    p.value (fun _ => y) = 0 ↔ (∃ x ∈ xs, y = x) ∨ (toReal cs).IsRoot y

theorem separated_of_squarefree {parts : List ℚ × Poly} (h : Squarefree (joined v parts))
    (hcs : parts.2.univariate? v = some cs)
    (hvalue : ∀ y : ℝ, p.value (fun _ => y) = 0 ↔ aeval (fun _ => y) (joined v parts) = 0) :
    Separated p parts.1 cs where
  nodup := by
    have hpair := pairwise_isRelPrime_of_squarefree (h.squarefree_of_dvd (dvd_mul_right _ _))
    refine (List.pairwise_map.1 hpair).imp fun {x y} hrel hxy => ?_
    subst hxy
    exact not_isUnit_X_sub_C v x ((associated_linearFactor v x).isUnit (hrel dvd_rfl dvd_rfl))
  squarefree := squarefree_of_univariate? hcs (h.squarefree_of_dvd (dvd_mul_left _ _))
  eval_ne_zero x hx h0 := by
    rw [eval_univariate? hcs] at h0
    have hrest : X v - C x ∣ parts.2.toMv := X_sub_C_dvd (fun _ => mem_vars_of_univariate? hcs) h0
    have hlinear : X v - C x ∣ product (parts.1.map (linearFactor v)) :=
      (associated_linearFactor v x).symm.dvd.trans (dvd_product_of_mem (List.mem_map_of_mem hx))
    exact not_isUnit_X_sub_C v x (h _ (mul_dvd_mul hlinear hrest))
  value_eq_zero_iff y := by
    rw [hvalue, value_joined_eq_zero_iff, value_of_univariate? hcs]
    rfl

/-- In graded lexicographic order: the factors are distinct and square-free. -/
theorem returns_factor_separated_of_grLex (ho : p.order = .grLex) (hp0 : p.toMv ≠ 0)
    (hv : ∀ w ∈ p.toMv.vars, w = v) :
    Returns p.factor fun F => Separated p (linearRoots v F) (nonlinearCoeffs v F) := by
  obtain ⟨F, hF, hexpand, hd⟩ := returns_factor ho hp0
  have hne : ∀ f ∈ F.factors.map (·.1), f.toMv ≠ 0 :=
    List.forall_mem_map.2 fun f hf => (hd.forall_mem f hf).ne_zero
  have hassoc := associated_partLinear (v := v) hne
  have hrest : ∀ w ∈ (partLinear v (F.factors.map (·.1))).2.toMv.vars, w = v := fun w hw =>
    hv w (vars_subset_of_dvd hp0 (((dvd_mul_left _ _).trans hassoc.symm.dvd).trans hd.dvd) hw)
  obtain ⟨cs, hcs⟩ := exists_univariate? hrest
  have hnonlinear : nonlinearCoeffs v F = cs := by
    rw [nonlinearCoeffs, hcs, Option.getD_some]
  refine ⟨F, hF, ?_⟩
  change Separated p (linearRoots v F) (nonlinearCoeffs v F)
  rw [hnonlinear]
  refine separated_of_squarefree (hd.squarefree.squarefree_of_dvd hassoc.symm.dvd) hcs fun y => ?_
  calc p.value (fun _ => y) = 0
      ↔ aeval (fun _ => y) (powerProduct F.factors) = 0 :=
        ((associated_powerProduct hp0 hexpand).map _).eq_zero_iff
    _ ↔ aeval (fun _ => y) (product (F.factors.map (·.1))) = 0 :=
        value_powerProduct_eq_zero_iff _ (pos_of_mem_factor hF)
    _ ↔ aeval (fun _ => y) (joined v (partLinear v (F.factors.map (·.1)))) = 0 :=
        (hassoc.map _).eq_zero_iff

theorem returns_factor_separated (hp0 : p.toMv ≠ 0) (hv : ∀ w ∈ p.toMv.vars, w = v) :
    Returns p.factor fun F => Separated p (linearRoots v F) (nonlinearCoeffs v F) := by
  have htoMv := toMv_withOrder .grLex p
  have halike : Alike v p (p.withOrder .grLex) := .of_toMv hv htoMv.symm
  obtain ⟨G, hG, hsep⟩ := returns_factor_separated_of_grLex (v := v)
    (order_withOrder .grLex p) (htoMv.symm ▸ hp0) (htoMv.symm ▸ hv)
  obtain ⟨F, hF, -, hfactors⟩ := follows_factor halike G hG
  have hfs : List.Forall₂ (Alike v) (F.factors.map (·.1)) (G.factors.map (·.1)) := by
    rw [List.forall₂_map_left_iff, List.forall₂_map_right_iff]
    exact hfactors.imp fun _ _ h => h.1
  obtain ⟨hlinear, hrest⟩ := alike_partLinear hfs
  have hcoeffs : nonlinearCoeffs v F = nonlinearCoeffs v G := by
    rw [nonlinearCoeffs, nonlinearCoeffs, hrest.univariate?]
  have hroots : linearRoots v F = linearRoots v G := hlinear
  refine ⟨F, hF, ?_⟩
  simp only [hroots, hcoeffs]
  refine ⟨hsep.nodup, hsep.squarefree, hsep.eval_ne_zero, fun y => ?_⟩
  rw [value_eq_aeval_of_toMv_eq htoMv.symm]
  exact hsep.value_eq_zero_iff y

/-! ## The entries -/

/-- The interval after it has been parted from all numbers of a list. -/
def partedFrom (cs xs : List ℚ) (s : Interval) : Interval :=
  xs.foldl (fun s x => bisectAwayFrom cs x (separationSteps cs x s) s) s

/-- The entries before they are sorted. -/
def rootEntries (xs cs : List ℚ) : List RealRoot :=
  xs.map .exact ++ ((isolate cs).map (partedFrom cs xs)).map .within

theorem realRoots_eq {F : Factorization} (hp0 : p.toMv ≠ 0) (hv : ∀ w ∈ p.toMv.vars, w = v)
    (hF : p.factor = .ok F) :
    p.realRoots v =
      .ok ((rootEntries (linearRoots v F) (nonlinearCoeffs v F)).foldr RealRoot.insert []) := by
  obtain ⟨cs, hcs⟩ := exists_univariate? hv
  unfold realRoots
  rw [isZero_eq_false_iff.2 hp0, if_neg Bool.false_ne_true, hcs, Option.isNone_some,
    if_neg Bool.false_ne_true, hF]
  rfl

namespace Separated

variable {xs : List ℚ} {s : Interval} {ξ : ℝ}

theorem parted (h : Separated p xs cs) (hs : IsolatesRoot cs s ξ) :
    PartsFromAll cs xs s (partedFrom cs xs s) := partsFromAll_foldl hs h.eval_ne_zero

/-- An interval that is apart from the exact numbers isolates its root among all roots. -/
theorem describes (h : Separated p xs cs) (hs : IsolatesRoot cs s ξ)
    (happart : ∀ x ∈ xs, ¬(s.lo ≤ x ∧ x ≤ s.hi)) : (RealRoot.within s).Describes p ξ := by
  have hother : ∀ y : ℝ, (s.lo : ℝ) ≤ y → y ≤ s.hi → p.value (fun _ => y) = 0 →
      (toReal cs).IsRoot y := fun y hlo hhi hy => by
    rcases (h.value_eq_zero_iff y).1 hy with ⟨x, hx, rfl⟩ | hy
    · exact absurd ⟨Rat.cast_le.1 hlo, Rat.cast_le.1 hhi⟩ (happart x hx)
    · exact hy
  have hle : (s.lo : ℝ) ≤ s.hi := Rat.cast_le.2 hs.lo_lt_hi.le
  refine ⟨⟨hs.lo_lt, hs.lt_hi⟩, fun y hy hroot => ?_, fun hlo => ?_, fun hhi => ?_⟩
  · exact hs.unique y hy.1.le hy.2.le (hother y hy.1.le hy.2.le hroot)
  · exact hs.ends.1 (hother _ le_rfl hle hlo)
  · exact hs.ends.2 (hother _ hle le_rfl hhi)

theorem describes_partedFrom (h : Separated p xs cs) (hs : IsolatesRoot cs s ξ) :
    (RealRoot.within (partedFrom cs xs s)).Describes p ξ := by
  obtain ⟨hparted, -, -, happart⟩ := (h.parted hs).spec hs
  exact h.describes hparted happart

theorem findsRoots (h : Separated p xs cs) : FindsRoots p (rootEntries xs cs) where
  isRoot := by
    refine List.forall_mem_append.2 ⟨List.forall_mem_map.2 fun x hx => ?_,
      List.forall_mem_map.2 (List.forall_mem_map.2 fun s hs => ?_)⟩
    · exact ⟨x, (h.value_eq_zero_iff x).2 (.inl ⟨x, hx, rfl⟩), rfl⟩
    · obtain ⟨ξ, hξ⟩ := exists_isolatesRoot h.squarefree hs
      exact ⟨ξ, (h.value_eq_zero_iff ξ).2 (.inr hξ.isRoot), h.describes_partedFrom hξ⟩
  complete y hy := by
    rcases (h.value_eq_zero_iff y).1 hy with ⟨x, hx, rfl⟩ | hroot
    · exact ⟨.exact x, List.mem_append_left _ (List.mem_map_of_mem hx), rfl⟩
    · obtain ⟨s, hs, hmem⟩ := (isolate_spec h.squarefree).2.2 y hroot
      refine ⟨.within (partedFrom cs xs s), List.mem_append_right _
        (List.mem_map_of_mem (List.mem_map_of_mem hs)), h.describes_partedFrom ?_⟩
      exact .of_mem_isolate h.squarefree hs hmem hroot
  apart := by
    refine List.pairwise_append.2 ⟨?_, ?_, ?_⟩
    · exact List.pairwise_map.2 (h.nodup.imp fun hne => lt_or_gt_of_ne hne)
    · rw [List.pairwise_map, List.pairwise_map]
      refine (isolate_spec h.squarefree).2.1.imp_of_mem fun hs ht hle => .inl ?_
      obtain ⟨ξ, hξ⟩ := exists_isolatesRoot h.squarefree hs
      obtain ⟨ζ, hζ⟩ := exists_isolatesRoot h.squarefree ht
      obtain ⟨-, -, hhi, -⟩ := (h.parted hξ).spec hξ
      obtain ⟨-, hlo, -, -⟩ := (h.parted hζ).spec hζ
      exact (hhi.trans hle).trans hlo
    · refine List.forall_mem_map.2 fun x hx =>
        List.forall_mem_map.2 (List.forall_mem_map.2 fun s hs => ?_)
      obtain ⟨ξ, hξ⟩ := exists_isolatesRoot h.squarefree hs
      obtain ⟨-, -, -, happart⟩ := (h.parted hξ).spec hξ
      rcases lt_or_ge x (partedFrom cs xs s).lo with hlt | hle
      · exact .inl hlt
      · exact .inr (not_le.1 fun hhi => happart x hx ⟨hle, hhi⟩)

end Separated

/-- For every nonzero polynomial in one variable: the entries describe the distinct real roots, one for
each, in increasing order; no end of an interval is a root, let alone one of the nonlinear part; the
open intervals are disjoint, and no exact number is in a closed one.  Parting each isolating interval
from all exact numbers ends, with an interval of the list. -/
theorem realRoots_spec (hp0 : p.toMv ≠ 0) (hv : ∀ w ∈ p.toMv.vars, w = v) :
    ∃ roots xs F, p.realRoots v = .ok roots ∧ p.factor = .ok F ∧
      List.Forall₂ (RealRoot.Describes p) roots xs ∧ xs.Pairwise (· < ·) ∧
      (∀ x : ℝ, x ∈ xs ↔ p.value (fun _ => x) = 0) ∧
      roots.Pairwise RealRoot.Before ∧
      ∀ s ∈ isolate (nonlinearCoeffs v F), ∃ t,
        PartsFromAll (nonlinearCoeffs v F) (linearRoots v F) s t ∧ .within t ∈ roots := by
  obtain ⟨F, hF, hsep⟩ := returns_factor_separated hp0 hv
  obtain ⟨hfinds, hbefore⟩ := hsep.findsRoots.sorted
  obtain ⟨xs, hdescribes, hsorted, hroots⟩ := hfinds.exists_roots hbefore
  refine ⟨_, xs, F, realRoots_eq hp0 hv hF, hF, hdescribes, hsorted, hroots, hbefore, fun s hs => ?_⟩
  obtain ⟨ξ, hξ⟩ := exists_isolatesRoot hsep.squarefree hs
  refine ⟨_, hsep.parted hξ, (RealRoot.perm_foldr_insert _).mem_iff.2 (List.mem_append_right _ ?_)⟩
  exact List.mem_map_of_mem (List.mem_map_of_mem hs)

/-- The polynomial `(x - 1) * (x ^ 2 - 2) * (x + 1) ^ 2`. -/
def mixedRoots : Poly := (ofPower 0 1 - 1) * (ofPower 0 2 - const 2) * (ofPower 0 1 + 1 : Poly).pow 2

theorem realRoots_spec_mixedRoots :
    mixedRoots.toMv ≠ 0 ∧ (∀ w ∈ mixedRoots.toMv.vars, w = 0) ∧
      ∃ roots, mixedRoots.realRoots 0 = .ok roots ∧
        List.Forall₂ (RealRoot.Describes mixedRoots) roots [-√2, -1, 1, √2] := by
  have hp0 : mixedRoots.toMv ≠ 0 := isZero_eq_false_iff.1 (by decide +kernel)
  have hvars : ∀ w ∈ mixedRoots.toMv.vars, w = 0 := fun w hw => by
    have hlist : mixedRoots.vars = [0] := by decide +kernel
    rw [← mem_vars_iff, hlist] at hw
    exact List.mem_singleton.1 hw
  obtain ⟨roots, xs, -, hrun, -, hdescribes, hsorted, hroots, -⟩ := realRoots_spec hp0 hvars
  have hsqrt : 1 < √2 := Real.lt_sqrt_of_sq_lt (by norm_num)
  have hlist : [-√2, -1, 1, √2].Pairwise (· < ·) := by
    simp only [List.pairwise_cons, List.mem_cons, List.not_mem_nil, or_false, forall_eq_or_imp,
      forall_eq, IsEmpty.forall_iff, implies_true, List.Pairwise.nil, and_true]
    refine ⟨⟨?_, ?_, ?_⟩, ⟨?_, ?_⟩, ?_⟩ <;> linarith
  have hvalue : ∀ x : ℝ, mixedRoots.value (fun _ => x) = 0 ↔ x ∈ [-√2, -1, 1, √2] := fun x => by
    have hfactors : mixedRoots.value (fun _ => x) = (x - 1) * ((x - √2) * (x + √2)) * (x + 1) ^ 2 := by
      have hsq : √2 ^ 2 = (2 : ℝ) := Real.sq_sqrt (by norm_num)
      have hdiff : x ^ 2 - 2 = (x - √2) * (x + √2) := by linear_combination hsq
      rw [mixedRoots, ← hdiff]
      simp
    rw [hfactors]
    simp only [mul_eq_zero, pow_eq_zero_iff two_ne_zero, sub_eq_zero, add_eq_zero_iff_eq_neg,
      List.mem_cons, List.not_mem_nil, or_false]
    tauto
  have heq : xs = [-√2, -1, 1, √2] := by
    have hnodup : ∀ {ys : List ℝ}, ys.Pairwise (· < ·) → ys.Nodup := fun h => h.imp ne_of_lt
    refine List.Perm.eq_of_pairwise (fun _ _ _ _ hxy hyx => absurd (hxy.trans hyx) (lt_irrefl _))
      hsorted hlist ((List.perm_ext_iff_of_nodup (hnodup hsorted) (hnodup hlist)).2 fun x => ?_)
    rw [hroots, hvalue]
  exact ⟨hp0, hvars, roots, hrun, heq ▸ hdescribes⟩

end Poly

end Cylindrical

end
