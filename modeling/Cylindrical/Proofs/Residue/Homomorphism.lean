import Mathlib
import Cylindrical.Proofs.Poly.Subresultant
import Cylindrical.Proofs.Residue.Entries
import Cylindrical.Proofs.Residue.Separation

/-!
# Reduction modulo a prime is a homomorphism

A rational polynomial and a polynomial over the prime field are congruent when no denominator is
divisible by the prime and each coefficient of one is the residue of that of the other
(`ResiduePoly.congruence`).  Congruent pairs form a ring, closed under derivatives, and a normal form is
the image of every polynomial without the reserved variable that it is congruent to.
-/

noncomputable section

open MvPolynomial

namespace Cylindrical

namespace Poly

/-! ## The reserved variable -/

namespace Unreserved

variable {P Q : Poly}

theorem of_subset (hP : P.Unreserved) (hQ : Q.Unreserved) {R : Poly}
    (h : R.toMv.vars ⊆ P.toMv.vars ∪ Q.toMv.vars) : R.Unreserved := fun hr =>
  (Finset.mem_union.1 (h hr)).elim hP hQ

theorem add (hP : P.Unreserved) (hQ : Q.Unreserved) : (P + Q).Unreserved :=
  hP.of_subset hQ (toMv_add P Q ▸ vars_add_subset _ _)

theorem sub (hP : P.Unreserved) (hQ : Q.Unreserved) : (P - Q).Unreserved :=
  hP.of_subset hQ (toMv_sub P Q ▸ vars_sub_subset _)

theorem mul (hP : P.Unreserved) (hQ : Q.Unreserved) : (P * Q).Unreserved :=
  hP.of_subset hQ (toMv_mul P Q ▸ vars_mul _ _)

theorem neg (hP : P.Unreserved) : (-P).Unreserved := by
  rwa [Unreserved, toMv_neg, vars_neg]

theorem scale (hP : P.Unreserved) (c : ℚ) : (P.scale c).Unreserved := fun hr => by
  rw [toMv_scale] at hr
  rcases Finset.mem_union.1 (vars_mul _ _ hr) with hr | hr
  · simp at hr
  · exact hP hr

theorem derivative (hP : P.Unreserved) (v : ℕ) : (P.derivative v).Unreserved := fun hr =>
  hP (VarsIn.derivative (p := P) (v := v) (Finset.Subset.refl _) hr)

end Unreserved

end Poly

namespace ResiduePoly

open Residue

variable {p : ℕ} {S : Set ℕ}

/-! ## Denoted polynomials -/

theorem toMv_add (a b : ResiduePoly) : toMv p (ResiduePoly.add p a b) = toMv p a + toMv p b :=
  eval_add cast_eq_zero a b

theorem toMv_neg {n : ℕ} {a : ResiduePoly} (ha : Normal p S n a) :
    toMv p (ResiduePoly.neg p a) = -toMv p a := eval_neg cast_eq_zero ha

theorem toMv_sub {n : ℕ} (a : ResiduePoly) {b : ResiduePoly} (hb : Normal p S n b) :
    toMv p (ResiduePoly.sub p a b) = toMv p a - toMv p b := eval_sub cast_eq_zero a hb

theorem toMv_mul (a b : ResiduePoly) : toMv p (ResiduePoly.mul p a b) = toMv p a * toMv p b :=
  eval_mul cast_eq_zero a b

theorem toMv_scale (r : ℕ) (a : ResiduePoly) : toMv p (scale p r a) = C (r : ZMod p) * toMv p a := by
  rw [map_natCast]
  exact eval_scale cast_eq_zero r a

/-! ## Congruent polynomials -/

section

variable [Fact p.Prime]

theorem natCast_den_ne_zero {x : ℚ} : ((x.den : ℕ) : ZMod p) ≠ 0 ↔ ¬p ∣ x.den := by
  rw [Ne, ZMod.natCast_eq_zero_iff]

variable (p) in
/-- The rational numbers without the prime in their denominators, with their residues. -/
def residueGraph : Subring (ℚ × ZMod p) where
  carrier := {z | ¬p ∣ z.1.den ∧ (z.1 : ZMod p) = z.2}
  zero_mem' := ⟨by simpa using (Fact.out : p.Prime).one_lt.ne', by simp⟩
  one_mem' := ⟨by simpa using (Fact.out : p.Prime).one_lt.ne', by simp⟩
  add_mem' {z w} hz hw := by
    refine ⟨fun h => ?_, ?_⟩
    · exact ((Fact.out : p.Prime).dvd_mul.1 (h.trans (Rat.add_den_dvd z.1 w.1))).elim hz.1 hw.1
    · rw [Prod.fst_add, Prod.snd_add, ← hz.2, ← hw.2]
      exact Rat.cast_add_of_ne_zero (natCast_den_ne_zero.2 hz.1) (natCast_den_ne_zero.2 hw.1)
  mul_mem' {z w} hz hw := by
    refine ⟨fun h => ?_, ?_⟩
    · exact ((Fact.out : p.Prime).dvd_mul.1 (h.trans (Rat.mul_den_dvd z.1 w.1))).elim hz.1 hw.1
    · rw [Prod.fst_mul, Prod.snd_mul, ← hz.2, ← hw.2]
      exact Rat.cast_mul_of_ne_zero (natCast_den_ne_zero.2 hz.1) (natCast_den_ne_zero.2 hw.1)
  neg_mem' {z} hz := by
    refine ⟨by simpa using hz.1, ?_⟩
    rw [Prod.fst_neg, Prod.snd_neg, ← hz.2, Rat.cast_neg]

variable (p) in
/-- The pairs of polynomials whose coefficients are rational numbers and their residues. -/
def congruence : Subring (MvPolynomial ℕ ℚ × MvPolynomial ℕ (ZMod p)) where
  carrier := {z | ∀ m, (coeff m z.1, coeff m z.2) ∈ residueGraph p}
  zero_mem' _ := zero_mem (residueGraph p)
  one_mem' m := by
    simp only [Prod.fst_one, Prod.snd_one, coeff_one]
    split_ifs
    · exact one_mem _
    · exact zero_mem _
  add_mem' {z w} hz hw m := by simpa using add_mem (hz m) (hw m)
  mul_mem' {z w} hz hw m := by
    have hsum : (coeff m (z * w).1, coeff m (z * w).2) =
        ∑ x ∈ Finset.HasAntidiagonal.antidiagonal m,
          (coeff x.1 z.1, coeff x.1 z.2) * (coeff x.2 w.1, coeff x.2 w.2) :=
      Prod.ext (by simp [coeff_mul, Prod.fst_sum]) (by simp [coeff_mul, Prod.snd_sum])
    rw [hsum]
    exact sum_mem fun x _ => mul_mem (hz x.1) (hw x.2)
  neg_mem' {z} hz m := by simpa using neg_mem (hz m)

theorem eq_of_mem_congruence {P : MvPolynomial ℕ ℚ} {R R' : MvPolynomial ℕ (ZMod p)}
    (h : (P, R) ∈ congruence p) (h' : (P, R') ∈ congruence p) : R = R' := by
  ext m
  exact (h m).2.symm.trans (h' m).2

theorem monomial_mem_congruence (m : ℕ →₀ ℕ) {x : ℚ} {k : ZMod p} (h : (x, k) ∈ residueGraph p) :
    (monomial m x, monomial m k) ∈ congruence p := by
  intro n
  simp only [coeff_monomial]
  split_ifs
  · exact h
  · exact zero_mem _

theorem pderiv_mem_congruence (v : ℕ) {P : MvPolynomial ℕ ℚ} {R : MvPolynomial ℕ (ZMod p)}
    (h : (P, R) ∈ congruence p) : (pderiv v P, pderiv v R) ∈ congruence p := by
  intro m
  have hmul : (coeff m (pderiv v P), coeff m (pderiv v R)) =
      (coeff (m + Finsupp.single v 1) P, coeff (m + Finsupp.single v 1) R) *
        ((m v + 1 : ℕ) : ℚ × ZMod p) :=
    Prod.ext (by simp [coeff_pderiv]) (by simp [coeff_pderiv])
  rw [hmul]
  exact mul_mem (h _) (natCast_mem _ _)

/-! ## Images -/

theorem mem_residueGraph_of_ofRat? {x : ℚ} {r : ℕ} (h : ofRat? p x = some r) :
    (x, (r : ZMod p)) ∈ residueGraph p := by
  obtain ⟨hden, -, hr⟩ := ofRat?_spec (ZMod.natCast_self p) Fact.out h
  refine ⟨hden, ?_⟩
  change (x : ZMod p) = r
  rw [Rat.cast_def, div_eq_iff (natCast_den_ne_zero.2 hden), hr]

theorem mem_residueGraph_symmetric (r : ℕ) :
    (((symmetric p r : ℤ) : ℚ), (r : ZMod p)) ∈ residueGraph p := by
  refine ⟨by simpa using (Fact.out : p.Prime).one_lt.ne', ?_⟩
  change (((symmetric p r : ℤ) : ℚ) : ZMod p) = r
  rw [Rat.cast_intCast, symmetric]
  split_ifs <;> simp

end

/-- The polynomial with the given coefficients. -/
def sumOfEntries (p : ℕ) (es : List (Monomial × ℕ)) : MvPolynomial ℕ (ZMod p) :=
  (es.map fun e => monomial e.1.toFinsupp (e.2 : ZMod p)).sum

@[simp] theorem sumOfEntries_nil : sumOfEntries p [] = 0 := rfl

@[simp] theorem sumOfEntries_cons (e : Monomial × ℕ) (es : List (Monomial × ℕ)) :
    sumOfEntries p (e :: es) = monomial e.1.toFinsupp (e.2 : ZMod p) + sumOfEntries p es := by
  rw [sumOfEntries, List.map_cons, List.sum_cons, sumOfEntries]

@[simp] theorem sumOfEntries_append (es ds : List (Monomial × ℕ)) :
    sumOfEntries p (es ++ ds) = sumOfEntries p es + sumOfEntries p ds := by
  rw [sumOfEntries, List.map_append, List.sum_append, sumOfEntries, sumOfEntries]

theorem sumOfEntries_perm {es ds : List (Monomial × ℕ)} (h : es.Perm ds) :
    sumOfEntries p es = sumOfEntries p ds := (h.map _).sum_eq

theorem sumOfEntries_filter (es : List (Monomial × ℕ)) :
    sumOfEntries p (es.filter fun e => e.2 != 0) = sumOfEntries p es := by
  induction es with
  | nil => rfl
  | cons e es ih =>
    rw [List.filter_cons]
    split_ifs with h
    · rw [sumOfEntries_cons, sumOfEntries_cons, ih]
    · have h0 : e.2 = 0 := by simpa using h
      rw [ih, sumOfEntries_cons, h0, Nat.cast_zero, map_zero, zero_add]

mutual

theorem sumOfEntries_entries (powers : List (ℕ × ℕ)) (a : ResiduePoly) :
    sumOfEntries p (a.entries powers) = monomial (exponentsOf powers) 1 * toMv p a := by
  match a with
  | const a =>
    rw [entries, toMv, eval_const]
    split_ifs with h0
    · rw [h0, Nat.cast_zero, mul_zero, sumOfEntries_nil]
    · rw [sumOfEntries_cons, sumOfEntries_nil, add_zero, Monomial.toFinsupp_ofPowers,
        ← map_natCast (C : ZMod p →+* _), mul_comm, C_mul_monomial, mul_one]
  | node v cs =>
    rw [entries, sumOfEntries_entriesFrom, toMv, eval_node, pow_zero, one_mul]

theorem sumOfEntries_entriesFrom (powers : List (ℕ × ℕ)) (v i : ℕ) (cs : List ResiduePoly) :
    sumOfEntries p (entriesFrom powers v i cs) =
      monomial (exponentsOf powers) 1 * (X v ^ i * evalList X (X v) cs) := by
  match cs with
  | [] => rw [entriesFrom, sumOfEntries_nil, evalList_nil, mul_zero, mul_zero]
  | c :: cs =>
    have hpow : (monomial (exponentsOf (if i = 0 then powers else (v, i) :: powers)) 1 :
        MvPolynomial ℕ (ZMod p)) = monomial (exponentsOf powers) 1 * X v ^ i := by
      split_ifs with hi
      · rw [hi, pow_zero, mul_one]
      · rw [exponentsOf_cons, X_pow_eq_monomial, monomial_mul, add_comm, one_mul]
    rw [entriesFrom, sumOfEntries_append, sumOfEntries_entries, sumOfEntries_entriesFrom, hpow,
      evalList_cons, toMv, pow_succ]
    ring

end

theorem toMv_eq_sumOfEntries (a : ResiduePoly) : toMv p a = sumOfEntries p a.image := by
  rw [image, sumOfEntries_entries, exponentsOf_nil, ← C_apply, C_1, one_mul]

section

variable [Fact p.Prime]

theorem sumOf_mem_congruence {ts : List Term} (h : ∀ t ∈ ts, (ofRat? p t.coeff).isSome) :
    (sumOf ts, sumOfEntries p (residues p 1 ts)) ∈ congruence p := by
  rw [residues_one, sumOfEntries_filter]
  induction ts with
  | nil => exact zero_mem _
  | cons t ts ih =>
    obtain ⟨r, hr⟩ := Option.isSome_iff_exists.1 (h t (.head _))
    rw [sumOf_cons, List.map_cons, sumOfEntries_cons, hr, Option.getD_some, ← Prod.mk_add_mk]
    exact add_mem (monomial_mem_congruence _ (mem_residueGraph_of_ofRat? hr))
      (ih fun s hs => h s (.tail _ hs))

/-- A polynomial and its image are congruent. -/
theorem mem_congruence_of_ofPoly? {q : Poly} {a : ResiduePoly} (h : ofPoly? p q = some a) :
    (q.toMv, toMv p a) ∈ congruence p := by
  rw [toMv_eq_sumOfEntries, sumOfEntries_perm (perm_image h)]
  refine sumOf_mem_congruence fun t ht => ofRat?_isSome_iff.2 ?_
  exact (isSome_ofPoly?_iff Fact.out q).1 (by rw [h, Option.isSome_some]) t ht

theorem exists_ofPoly?_of_mem_congruence {q : Poly} {R : MvPolynomial ℕ (ZMod p)}
    (h : (q.toMv, R) ∈ congruence p) : ∃ a, ofPoly? p q = some a := by
  rw [← Option.isSome_iff_exists, isSome_ofPoly?_iff Fact.out]
  intro t ht
  have hden : ¬p ∣ (coeff t.monomial.toFinsupp q.toMv).den := (h _).1
  rwa [Poly.coeff_toMv ht] at hden

theorem normal_ofPoly? {q : Poly} {a : ResiduePoly} {b : ℕ} (hr : q.Unreserved)
    (hb : ∀ w ∈ q.toMv.vars, w < b) (h : ofPoly? p q = some a) :
    Normal p {w | w ∈ q.toMv.vars} b a :=
  normal_ofPolyUpTo? Fact.out hr (fun w hw => ⟨hb w hw, hw⟩) h

/-- The image is the normal form that is congruent to the polynomial. -/
theorem ofPoly?_eq_some {q : Poly} {a : ResiduePoly} {b : ℕ} (hr : q.Unreserved)
    (ha : Normal p Set.univ b a) (h : (q.toMv, toMv p a) ∈ congruence p) :
    ofPoly? p q = some a := by
  obtain ⟨c, hc⟩ := exists_ofPoly?_of_mem_congruence h
  have hcn := normal_ofPoly? (b := max b (q.toMv.vars.sup id + 1)) hr (fun w hw =>
    lt_max_of_lt_right (Nat.lt_succ_of_le (Finset.le_sup (f := id) hw))) hc
  have heq := eq_of_mem_congruence (mem_congruence_of_ofPoly? hc) h
  rw [hc, eq_of_toMv_eq (Fact.out : p.Prime).pos (hcn.mono_set fun w _ _ => Set.mem_univ w)
    (ha.mono (le_max_left b _)) heq]

end

/-! ## Variables -/

/-- In another variable than that of the node the degree is that of a coefficient. -/
theorem degreeOf_evalList_lt {v w n : ℕ} (hvw : v ≠ w) (hn : 0 < n) {cs : List ResiduePoly}
    (h : ∀ c ∈ cs, degreeOf w (toMv p c) < n) :
    degreeOf w (evalList X (X v) cs : MvPolynomial ℕ (ZMod p)) < n := by
  induction cs with
  | nil => rwa [evalList_nil, degreeOf_zero]
  | cons c cs ih =>
    rw [List.forall_mem_cons] at h
    rw [evalList_cons, mul_comm]
    refine (degreeOf_add_le _ _ _).trans_lt (max_lt h.1 ?_)
    rw [degreeOf_mul_X_of_ne _ hvw.symm]
    exact ih h.2

theorem degreeOf_toMv_of_normal {v b : ℕ} (hb : b ≤ v) {a : ResiduePoly} (ha : Normal p S b a) :
    degreeOf v (toMv p a) = 0 := by
  -- the coefficients of a node are normal forms below its variable
  induction b using Nat.strong_induction_on generalizing a with
  | _ b ih =>
    cases a with
    | const a => rw [toMv, eval_const, ← map_natCast C, degreeOf_C]
    | node w cs =>
      obtain ⟨hw, -, hcs⟩ := normal_node.1 ha
      rw [toMv, eval_node]
      refine Nat.lt_one_iff.1 (degreeOf_evalList_lt (hw.1.trans_le hb).ne one_pos fun c hc => ?_)
      rw [ih w hw.1 (hw.1.le.trans hb) (normalList_iff.1 hcs c hc)]
      exact one_pos

/-! ## Derivatives -/

theorem pderiv_toMv_of_normal {v b : ℕ} (hb : b ≤ v) {a : ResiduePoly} (ha : Normal p S b a) :
    pderiv v (toMv p a) = 0 :=
  pderiv_eq_zero_of_notMem_vars fun hv =>
    mem_vars_iff_degreeOf_ne_zero.1 hv (degreeOf_toMv_of_normal hb ha)

theorem evalList_derivative {v : ℕ} {cs : List ResiduePoly} (hcs : NormalList p S v cs) (k : ℕ) :
    X v ^ k * evalList X (X v) ((cs.zipIdx k).map fun c => scale p ((c.2 + 1) % p) c.1) =
      pderiv v (X v ^ (k + 1) * evalList (X : ℕ → MvPolynomial ℕ (ZMod p)) (X v) cs) := by
  induction cs generalizing k with
  | nil => simp
  | cons c cs ih =>
    rw [normalList_cons] at hcs
    have hc : pderiv v (X v ^ (k + 1) * toMv p c) =
        X v ^ k * (((k + 1 : ℕ) : MvPolynomial ℕ (ZMod p)) * toMv p c) := by
      rw [Derivation.leibniz, pderiv_toMv_of_normal le_rfl hcs.1, smul_zero, zero_add,
        Derivation.leibniz_pow, pderiv_X_self, Nat.add_sub_cancel]
      simp only [smul_eq_mul, nsmul_eq_mul]
      ring
    have hsplit : X v ^ (k + 1) * evalList X (X v) (c :: cs) = X v ^ (k + 1) * toMv p c +
        X v ^ (k + 1 + 1) * evalList (X : ℕ → MvPolynomial ℕ (ZMod p)) (X v) cs := by
      rw [evalList_cons, toMv]
      ring
    rw [hsplit, map_add, hc, ← ih hcs.2, List.zipIdx_cons, List.map_cons, evalList_cons,
      eval_scale cast_eq_zero, cast_mod cast_eq_zero, toMv, pow_succ]
    ring

theorem toMv_derivative {v : ℕ} {a : ResiduePoly} (ha : Normal p S (v + 1) a) :
    toMv p (derivative p v a) = pderiv v (toMv p a) := by
  by_cases hv : a.mainVar? = some v
  · obtain ⟨cs, rfl⟩ := exists_node_of_mainVar? hv
    obtain ⟨-, ⟨hlen, -⟩, hcs⟩ := normal_node.1 ha
    obtain ⟨c, ds, rfl⟩ : ∃ c ds, cs = c :: ds := List.exists_cons_of_length_pos (by omega)
    rw [normalList_cons] at hcs
    have hc := pderiv_toMv_of_normal le_rfl hcs.1
    have hds := evalList_derivative hcs.2 0
    rw [pow_zero, one_mul, zero_add, pow_one] at hds
    rw [toMv] at hc
    rw [derivative, if_pos rfl, toMv, eval_ofCoeffs, List.tail_cons, hds, toMv, eval_node,
      evalList_cons, map_add, hc, zero_add]
  -- a normal form with a smaller main variable does not have `v`
  · have hz : derivative p v a = 0 := by
      cases a with
      | const a => rfl
      | node w cs => exact if_neg fun he => hv (by rw [mainVar?, he])
    rw [hz, pderiv_toMv_of_normal le_rfl (ha.of_mainVar?_ne hv), toMv, eval_zero]

theorem normal_derivative (hp : p.Prime) {v : ℕ} (hS : v ∈ S) {a : ResiduePoly}
    (ha : Normal p S (v + 1) a) : Normal p S (v + 1) (derivative p v a) := by
  cases a with
  | const a => exact normal_zero hp.pos
  | node w cs =>
    obtain ⟨-, -, hcs⟩ := normal_node.1 ha
    rw [derivative]
    split_ifs with hw
    · refine normal_ofCoeffs hp.pos (Nat.lt_succ_self v) hS (normalList_iff.2 fun d hd => ?_)
      obtain ⟨c, hc, rfl⟩ := List.mem_map.1 hd
      have hmem := List.mem_of_mem_tail (List.fst_mem_of_mem_zipIdx hc)
      exact normal_scale hp (Nat.mod_lt _ hp.pos) (hw ▸ normalList_iff.1 hcs c.1 hmem)
    · exact normal_zero hp.pos

/-! ## Equality -/

/-- Normal forms are equal if they denote the same polynomial. -/
theorem beq_iff_toMv_eq (hp : 0 < p) {b : ℕ} {a c : ResiduePoly} (ha : Normal p S b a)
    (hc : Normal p S b c) : (a == c) = true ↔ toMv p a = toMv p c :=
  same_iff.trans ⟨fun h => h ▸ rfl, eq_of_toMv_eq hp ha hc⟩

/-! ## Representatives -/

mutual

theorem degreeOf_of_mem_entries_of_le {b w : ℕ} (hb : b ≤ w) {a : ResiduePoly}
    {powers : List (ℕ × ℕ)} (ha : Normal p S b a) {e : Monomial × ℕ} (he : e ∈ a.entries powers) :
    e.1.degreeOf w = exponentsOf powers w := by
  match a, ha with
  | const a, _ =>
    rw [entries] at he
    split_ifs at he
    · cases he
    · rw [List.mem_singleton.1 he, ← Monomial.toFinsupp_apply, Monomial.toFinsupp_ofPowers]
  | node v cs, ha =>
    obtain ⟨hv, -, hcs⟩ := normal_node.1 ha
    rw [entries] at he
    exact degreeOf_of_mem_entriesFrom_of_lt (hv.1.trans_le hb) hcs he

theorem degreeOf_of_mem_entriesFrom_of_lt {v i w : ℕ} (hv : v < w) {cs : List ResiduePoly}
    {powers : List (ℕ × ℕ)} (hcs : NormalList p S v cs) {e : Monomial × ℕ}
    (he : e ∈ entriesFrom powers v i cs) : e.1.degreeOf w = exponentsOf powers w := by
  match cs, hcs with
  | [], _ =>
    rw [entriesFrom] at he
    cases he
  | c :: cs, hcs =>
    rw [normalList_cons] at hcs
    rw [entriesFrom] at he
    rcases List.mem_append.1 he with he | he
    · rw [degreeOf_of_mem_entries_of_le hv.le hcs.1 he]
      split_ifs
      · rfl
      · rw [exponentsOf_cons, Finsupp.add_apply, Finsupp.single_eq_of_ne hv.ne', zero_add]
    · exact degreeOf_of_mem_entriesFrom_of_lt hv hcs.2 he

end

theorem lt_of_mem_vars_toPoly {b w : ℕ} {a : ResiduePoly} (ha : Normal p S b a)
    (hw : w ∈ (a.toPoly p).toMv.vars) : w < b := by
  by_contra hle
  obtain ⟨m, hm, hwm⟩ := (mem_vars_iff_mem_support w).1 hw
  rw [toPoly, Poly.toMv_ofTerms] at hm
  obtain ⟨t, ht, rfl⟩ := Poly.exists_of_mem_support_sumOf hm
  obtain ⟨e, he, rfl⟩ := List.mem_map.1 ht
  rw [Finsupp.mem_support_iff, Monomial.toFinsupp_apply] at hwm
  exact hwm (degreeOf_of_mem_entries_of_le (not_lt.1 hle) ha he)

section

variable [Fact p.Prime]

theorem toPoly_mem_congruence (a : ResiduePoly) :
    ((a.toPoly p).toMv, toMv p a) ∈ congruence p := by
  rw [toPoly, Poly.toMv_ofTerms, toMv_eq_sumOfEntries]
  induction a.image with
  | nil => exact zero_mem _
  | cons e es ih =>
    rw [List.map_cons, sumOf_cons, sumOfEntries_cons, ← Prod.mk_add_mk]
    exact add_mem (monomial_mem_congruence _ (mem_residueGraph_symmetric e.2)) ih

/-- A normal form is the image of the polynomial with its representatives as coefficients. -/
theorem ofPoly?_toPoly {a : ResiduePoly} (ha : Normal p S Poly.reservedVar a) :
    ofPoly? p (a.toPoly p) = some a :=
  ofPoly?_eq_some (fun hr => (lt_of_mem_vars_toPoly ha hr).false)
    (ha.mono_set fun w _ _ => Set.mem_univ w) (toPoly_mem_congruence a)

end

/-! ## The homomorphism -/

/-- The images of the results of the operations are the results of the operations on the images. -/
structure OperationsCommute (p : ℕ) (P Q : Poly) (a b : ResiduePoly) : Prop where
  add : ofPoly? p (P + Q) = some (ResiduePoly.add p a b)
  sub : ofPoly? p (P - Q) = some (ResiduePoly.sub p a b)
  neg : ofPoly? p (-P) = some (ResiduePoly.neg p a)
  mul : ofPoly? p (P * Q) = some (ResiduePoly.mul p a b)
  scale : ∀ c : ℚ, ¬p ∣ c.den →
    ∃ r, ofRat? p c = some r ∧ ofPoly? p (P.scale c) = some (ResiduePoly.scale p r a)
  derivative : ∀ v, P.mainVar? = some v ∨ a.mainVar? = some v →
    ofPoly? p (P.derivative v) = some (ResiduePoly.derivative p v a)

/-- The operations keep the normal forms with variables from `S` below `n`. -/
structure OperationsNormal (p : ℕ) (S : Set ℕ) (n : ℕ) (a b : ResiduePoly) : Prop where
  add : Normal p S n (ResiduePoly.add p a b)
  sub : Normal p S n (ResiduePoly.sub p a b)
  neg : Normal p S n (ResiduePoly.neg p a)
  mul : Normal p S n (ResiduePoly.mul p a b)
  scale : ∀ r < p, Normal p S n (ResiduePoly.scale p r a)
  derivative : ∀ v, Normal p S n (ResiduePoly.derivative p v a)

theorem Normal.of_mainVar? {n v : ℕ} {a : ResiduePoly} (ha : Normal p S n a)
    (h : a.mainVar? = some v) : (v < n ∧ v ∈ S) ∧ Normal p S (v + 1) a := by
  obtain ⟨cs, rfl⟩ := exists_node_of_mainVar? h
  obtain ⟨hv, hcs⟩ := normal_node.1 ha
  exact ⟨hv, normal_node.2 ⟨⟨Nat.lt_succ_self v, hv.2⟩, hcs⟩⟩

theorem operationsNormal (hp : p.Prime) {n : ℕ} {a b : ResiduePoly} (ha : Normal p S n a)
    (hb : Normal p S n b) : OperationsNormal p S n a b where
  add := normal_add hp.pos ha hb
  sub := normal_sub hp.pos ha hb
  neg := normal_neg hp.pos ha
  mul := normal_mul hp ha hb
  scale _ hr := normal_scale hp hr ha
  derivative v := by
    by_cases hv : a.mainVar? = some v
    · obtain ⟨⟨hlt, hS⟩, hav⟩ := ha.of_mainVar? hv
      exact (normal_derivative hp hS hav).mono hlt
    · cases a with
      | const a => exact normal_zero hp.pos
      | node w cs =>
        rw [ResiduePoly.derivative, if_neg fun he => hv (by rw [mainVar?, he])]
        exact normal_zero hp.pos

section

variable [Fact p.Prime]

theorem exists_normal_ofPoly? {P : Poly} {a : ResiduePoly} (hP : P.Unreserved)
    (ha : ofPoly? p P = some a) : ∃ n, Normal p Set.univ n a :=
  ⟨_, (normal_ofPoly? hP (fun _ hw =>
    Nat.lt_succ_of_le (Finset.le_sup (f := id) hw)) ha).mono_set fun w _ _ => Set.mem_univ w⟩

theorem ofPoly?_derivative {P : Poly} {a : ResiduePoly} {v : ℕ} (hP : P.Unreserved)
    (ha : ofPoly? p P = some a) (hv : P.mainVar? = some v ∨ a.mainVar? = some v) :
    ofPoly? p (P.derivative v) = some (derivative p v a) := by
  have hav : Normal p Set.univ (v + 1) a := by
    rcases hv with hv | hv
    · exact (normal_ofPoly? hP (fun w hw =>
        Nat.lt_succ_of_le (Poly.le_of_mainVar? hP hv hw)) ha).mono_set fun w _ _ => Set.mem_univ w
    · obtain ⟨n, hn⟩ := exists_normal_ofPoly? hP ha
      exact (hn.of_mainVar? hv).2
  refine ofPoly?_eq_some (hP.derivative v) (normal_derivative Fact.out (Set.mem_univ v) hav) ?_
  rw [Poly.toMv_derivative, toMv_derivative hav]
  exact pderiv_mem_congruence v (mem_congruence_of_ofPoly? ha)

theorem operationsCommute {P Q : Poly} {a b : ResiduePoly} (hP : P.Unreserved) (hQ : Q.Unreserved)
    (ha : ofPoly? p P = some a) (hb : ofPoly? p Q = some b) : OperationsCommute p P Q a b := by
  obtain ⟨n, hn⟩ := exists_normal_ofPoly? hP ha
  obtain ⟨k, hk⟩ := exists_normal_ofPoly? hQ hb
  have hops := operationsNormal Fact.out (hn.mono (le_max_left n k)) (hk.mono (le_max_right n k))
  have hPa := mem_congruence_of_ofPoly? ha
  have hQb := mem_congruence_of_ofPoly? hb
  refine ⟨ofPoly?_eq_some (hP.add hQ) hops.add ?_, ofPoly?_eq_some (hP.sub hQ) hops.sub ?_,
    ofPoly?_eq_some hP.neg hops.neg ?_, ofPoly?_eq_some (hP.mul hQ) hops.mul ?_, fun c hc => ?_,
    fun v hv => ofPoly?_derivative hP ha hv⟩
  · rw [Poly.toMv_add, toMv_add, ← Prod.mk_add_mk]
    exact add_mem hPa hQb
  · rw [Poly.toMv_sub, toMv_sub a hk, ← Prod.mk_sub_mk]
    exact sub_mem hPa hQb
  · rw [Poly.toMv_neg, toMv_neg hn, ← Prod.neg_mk]
    exact neg_mem hPa
  · rw [Poly.toMv_mul, toMv_mul, ← Prod.mk_mul_mk]
    exact mul_mem hPa hQb
  · obtain ⟨r, hr⟩ := Option.isSome_iff_exists.1 (ofRat?_isSome_iff.2 hc)
    have hlt := (ofRat?_spec (ZMod.natCast_self p) Fact.out hr).2.1
    refine ⟨r, hr, ofPoly?_eq_some (hP.scale c) (hops.scale r hlt) ?_⟩
    rw [Poly.toMv_scale, toMv_scale, ← Prod.mk_mul_mk]
    exact mul_mem (monomial_mem_congruence 0 (mem_residueGraph_of_ofRat? hr)) hPa

end

variable (p) in
/-- Taking images is a homomorphism of rings onto normal forms that represent the polynomials over
the prime field, and it agrees with the comparison of coefficients in reconstructions. -/
structure IsHomomorphism : Prop where
  exists_image : ∀ P : Poly, P.Unreserved → (∀ t ∈ P.terms, ¬p ∣ t.coeff.den) →
    ∃ a, ofPoly? p P = some a
  normal_image : ∀ (P : Poly) (a : ResiduePoly) (n : ℕ), P.Unreserved →
    (∀ w ∈ P.toMv.vars, w < n) → ofPoly? p P = some a → Normal p {w | w ∈ P.toMv.vars} n a
  operations : ∀ (P Q : Poly) (a b : ResiduePoly), P.Unreserved → Q.Unreserved →
    ofPoly? p P = some a → ofPoly? p Q = some b → OperationsCommute p P Q a b
  normal_operations : ∀ (S : Set ℕ) (n : ℕ) (a b : ResiduePoly), Normal p S n a →
    Normal p S n b → OperationsNormal p S n a b
  beq_iff : ∀ (S : Set ℕ) (n : ℕ) (a b : ResiduePoly), Normal p S n a → Normal p S n b →
    ((a == b) = true ↔ toMv p a = toMv p b)
  image_toPoly : ∀ (S : Set ℕ) (a : ResiduePoly), Normal p S Poly.reservedVar a →
    ofPoly? p (a.toPoly p) = some a
  reducesTo_iff : ∀ (P : Poly) (image : List (Monomial × ℕ)), (image.map Prod.fst).Nodup →
    (∀ e ∈ image, e.2 < p) → (reducesTo P p image = true ↔
      ∃ a, ofPoly? p P = some a ∧ a.image.Perm (image.filter fun e => e.2 != 0))

/-- Modulo each prime of the table images are a homomorphism. -/
theorem isHomomorphism_of_mem_primes (hp : p ∈ Residue.primes) : IsHomomorphism p := by
  have hprime := prime_of_mem_primes hp
  have := Fact.mk hprime
  exact
    { exists_image := fun P _ hden =>
        Option.isSome_iff_exists.1 ((isSome_ofPoly?_iff hprime P).2 hden)
      normal_image := fun P a n hP hn ha => normal_ofPoly? hP hn ha
      operations := fun P Q a b hP hQ ha hb => operationsCommute hP hQ ha hb
      normal_operations := fun S n a b ha hb => operationsNormal hprime ha hb
      beq_iff := fun S n a b ha hb => beq_iff_toMv_eq hprime.pos ha hb
      image_toPoly := fun S a ha => ofPoly?_toPoly ha
      reducesTo_iff := fun P image hn _ => Residue.reducesTo_iff hprime P hn }

theorem isHomomorphism_mersenne : 2147483647 ∈ Residue.primes ∧ IsHomomorphism 2147483647 := by
  have hmem : 2147483647 ∈ Residue.primes := by
    rw [primes, oddPrimesBelow]
    simp only [show 2 * (1073741822 + 1) + 1 = 2147483647 from rfl, isOddPrime_mersenne, if_true]
    exact .head _
  exact ⟨hmem, isHomomorphism_of_mem_primes hmem⟩

end ResiduePoly

end Cylindrical

end
