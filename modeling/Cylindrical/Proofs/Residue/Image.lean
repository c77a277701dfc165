import Mathlib
import Cylindrical.Proofs.Residue.Bounds
import Cylindrical.Proofs.Residue.Place

/-!
# Images modulo a prime

The image of a rational polynomial is a normal form, and its value at the residues of the coordinates
of a point is the residue of the value.  The image of a tower of defining polynomials is a valid tower.
-/

noncomputable section

namespace Cylindrical

/-! ## Horner's scheme -/

theorem foldr_map_range {A : Type*} [CommRing A] (f : ℕ → A) (y : A) (n : ℕ) :
    ((List.range n).map f).foldr (fun c s => c + y * s) 0 = ∑ k ∈ Finset.range n, f k * y ^ k := by
  induction n generalizing f with
  | zero => simp
  | succ n ih =>
    rw [List.range_succ_eq_map, List.map_cons, List.foldr_cons, List.map_map, ih (f ∘ Nat.succ),
      Finset.sum_range_succ', Finset.mul_sum, pow_zero, mul_one, add_comm]
    congr 1
    refine Finset.sum_congr rfl fun k _ => ?_
    rw [Function.comp_apply, pow_succ]
    ring

theorem Poly.value_eq_foldr {A : Type*} [CommRing A] [RationalAlgebra A] (v : ℕ) (x : ℕ → A)
    (q : Poly) :
    q.value x = ((q.coeffs v).map (·.value x)).foldr (fun c s => c + x v * s) 0 := by
  rw [Poly.coeffs, List.map_map, foldr_map_range, Poly.value_eq_sum_coeff v]
  rfl

/-- The reserved variable, which as a main variable gives way to any other, does not occur. -/
def Poly.Unreserved (q : Poly) : Prop := Poly.reservedVar ∉ q.toMv.vars

theorem Poly.Unreserved.of_lt {q : Poly} {b : ℕ} (hb : b ≤ Poly.reservedVar)
    (hq : ∀ w ∈ q.toMv.vars, w < b) : q.Unreserved := fun hr =>
  ((hq _ hr).trans_le hb).false

theorem Poly.Unreserved.coeff {q : Poly} (hq : q.Unreserved) (v k : ℕ) : (q.coeff v k).Unreserved :=
  fun hr => hq (Poly.vars_coeff_subset v k q hr)

/-- The coefficients have variables below the main one. -/
theorem Poly.Unreserved.lt_mainVar {q : Poly} (hq : q.Unreserved) {v w k : ℕ}
    (hv : q.mainVar? = some v) (hw : w ∈ (q.coeff v k).toMv.vars) : w < v := by
  refine lt_of_le_of_ne (Poly.le_of_mainVar? hq hv (Poly.vars_coeff_subset v k q hw)) ?_
  rintro rfl
  exact Poly.notMem_vars_coeff w k q hw

namespace ResiduePoly

variable {K : Type*} [Field K] [RationalAlgebra K] {p : ℕ} {S : Set ℕ}

/-- The images of the coefficients of a polynomial that is not a number. -/
theorem ofPolyUpTo?_of_mainVar? {n v : ℕ} {q : Poly} {a : ResiduePoly}
    (hv : q.mainVar? = some v) (h : ofPolyUpTo? p (n + 1) q = some a) :
    ∃ cs, List.Forall₂ (fun c d => ofPolyUpTo? p n c = some d) (q.coeffs v) cs ∧
      a = ofCoeffs v cs := by
  rw [ofPolyUpTo?, hv] at h
  obtain ⟨cs, hcs, rfl⟩ := Option.map_eq_some_iff.1 h
  exact ⟨cs, forall₂_of_mapM_eq_some hcs, rfl⟩

theorem ofPolyUpTo?_of_isNumber {n : ℕ} {q : Poly} {a : ResiduePoly} (hq : q.mainVar? = none)
    (h : ofPolyUpTo? p (n + 1) q = some a) :
    ∃ r, Residue.ofRat? p q.constantValue = some r ∧ a = const r := by
  rw [ofPolyUpTo?, hq] at h
  obtain ⟨r, hr, rfl⟩ := Option.map_eq_some_iff.1 h
  exact ⟨r, hr, rfl⟩

theorem mem_coeffs {v : ℕ} {q c : Poly} (hc : c ∈ q.coeffs v) : ∃ k, c = q.coeff v k := by
  obtain ⟨k, -, rfl⟩ := List.mem_map.1 hc
  exact ⟨k, rfl⟩

theorem normal_ofPolyUpTo? (hp : p.Prime) {n b : ℕ} {q : Poly} {a : ResiduePoly}
    (hr : q.Unreserved) (hq : ∀ w ∈ q.toMv.vars, w < b ∧ w ∈ S)
    (h : ofPolyUpTo? p n q = some a) : Normal p S b a := by
  induction n generalizing b q a with
  | zero => cases h
  | succ n ih =>
    cases hv : q.mainVar? with
    | none =>
      obtain ⟨r, hres, rfl⟩ := ofPolyUpTo?_of_isNumber hv h
      exact normal_const.2 (Residue.ofRat?_spec (K := ZMod p) (ZMod.natCast_self p) hp hres).2.1
    | some v =>
      obtain ⟨cs, hcs, rfl⟩ := ofPolyUpTo?_of_mainVar? hv h
      obtain ⟨hvb, hvS⟩ := hq v (Poly.mem_vars_of_mainVar? hv)
      refine normal_ofCoeffs hp.pos hvb hvS (normalList_iff.2 fun d hd => ?_)
      obtain ⟨c, hc, hcd⟩ := exists_mem_of_forall₂ hcs hd
      obtain ⟨k, rfl⟩ := mem_coeffs hc
      exact ih (hr.coeff v k) (fun w hw =>
        ⟨hr.lt_mainVar hv hw, (hq w (Poly.vars_coeff_subset v k q hw)).2⟩) hcd

/-- The image of a polynomial with the reserved variable is a form, though its variables may be out of
order. -/
theorem trimmed_ofPolyUpTo? (hp : p.Prime) {n : ℕ} {q : Poly} {a : ResiduePoly}
    (hq : ∀ w ∈ q.toMv.vars, w ∈ S) (h : ofPolyUpTo? p n q = some a) : Trimmed p S a := by
  induction n generalizing q a with
  | zero => cases h
  | succ n ih =>
    cases hv : q.mainVar? with
    | none =>
      obtain ⟨r, hres, rfl⟩ := ofPolyUpTo?_of_isNumber hv h
      exact trimmed_const.2 (Residue.ofRat?_spec (K := ZMod p) (ZMod.natCast_self p) hp hres).2.1
    | some v =>
      obtain ⟨cs, hcs, rfl⟩ := ofPolyUpTo?_of_mainVar? hv h
      refine (forms_trimmed p S).mem_ofCoeffs (n := 0) hp.pos (hq v (Poly.mem_vars_of_mainVar? hv))
        fun d hd => ?_
      obtain ⟨c, hc, hcd⟩ := exists_mem_of_forall₂ hcs hd
      obtain ⟨k, rfl⟩ := mem_coeffs hc
      exact ih (fun w hw => hq w (Poly.vars_coeff_subset v k q hw)) hcd

theorem ofCoeffs_mem_of_mainVar?_ne {v w : ℕ} (hvw : v ≠ w) {cs : List ResiduePoly}
    (h : (ofCoeffs v cs).mainVar? = some w) : ofCoeffs v cs ∈ cs := by
  rw [ofCoeffs] at h ⊢
  split at h
  · cases h
  · rename_i c hc
    exact mem_of_mem_trim (hc ▸ .head _)
  · exact absurd (Option.some.inj h) hvw

/-- An image in the reserved variable is a normal form even if other variables have been taken first, as
it is the image of one coefficient then. -/
theorem normal_of_mainVar?_reserved (hp : p.Prime) {n : ℕ} {q : Poly} {a : ResiduePoly}
    (hq : ∀ w ∈ q.toMv.vars, w ≤ Poly.reservedVar ∧ w ∈ S) (h : ofPolyUpTo? p n q = some a)
    (ha : a.mainVar? = some Poly.reservedVar) : Normal p S (Poly.reservedVar + 1) a := by
  induction n generalizing q with
  | zero => cases h
  | succ n ih =>
    cases hv : q.mainVar? with
    | none =>
      obtain ⟨r, -, rfl⟩ := ofPolyUpTo?_of_isNumber hv h
      cases ha
    | some v =>
      obtain ⟨cs, hcs, rfl⟩ := ofPolyUpTo?_of_mainVar? hv h
      have hvars : ∀ k, ∀ w ∈ (q.coeff v k).toMv.vars, w ≤ Poly.reservedVar ∧ w ∈ S :=
        fun k w hw => hq w (Poly.vars_coeff_subset v k q hw)
      -- coefficients in the reserved variable are free of it, and any other image is that of a coefficient
      by_cases hr : v = Poly.reservedVar
      · subst hr
        refine normal_ofCoeffs hp.pos (Nat.lt_succ_self _) (hq _ (Poly.mem_vars_of_mainVar? hv)).2
          (normalList_iff.2 fun d hd => ?_)
        obtain ⟨c, hc, hcd⟩ := exists_mem_of_forall₂ hcs hd
        obtain ⟨k, rfl⟩ := mem_coeffs hc
        have hfree := Poly.notMem_vars_coeff Poly.reservedVar k q
        exact normal_ofPolyUpTo? hp hfree (fun w hw => ⟨lt_of_le_of_ne (hvars k w hw).1 fun he =>
          hfree (he ▸ hw), (hvars k w hw).2⟩) hcd
      · obtain ⟨c, hc, hcd⟩ := exists_mem_of_forall₂ hcs (ofCoeffs_mem_of_mainVar?_ne hr ha)
        obtain ⟨k, rfl⟩ := mem_coeffs hc
        exact ih (hvars k) hcd

/-- The value of an image is the residue of the value. -/
theorem reduces_ofPolyUpTo? (hp : p.Prime) {P : Place K p} {x : ℕ → K} {y : ℕ → P.Residue} {n : ℕ}
    {q : Poly} {a : ResiduePoly} (hq : ∀ w ∈ q.toMv.vars, P.Reduces (x w) (y w))
    (h : ofPolyUpTo? p n q = some a) : P.Reduces (q.value x) (a.eval y) := by
  induction n generalizing q a with
  | zero => cases h
  | succ n ih =>
    cases hv : q.mainVar? with
    | none =>
      obtain ⟨r, hr, rfl⟩ := ofPolyUpTo?_of_isNumber hv h
      rw [Poly.value_of_isNumber x (Poly.mainVar?_eq_none_iff.1 hv), eval_const, eq_ratCast]
      exact Place.reduces_ofRat? (P := P) hp hr
    | some v =>
      obtain ⟨cs, hcs, rfl⟩ := ofPolyUpTo?_of_mainVar? hv h
      have hxv := hq v (Poly.mem_vars_of_mainVar? hv)
      rw [eval_ofCoeffs, Poly.value_eq_foldr v]
      have hmem : ∀ c ∈ q.coeffs v, ∀ d, ofPolyUpTo? p n c = some d →
          P.Reduces (c.value x) (d.eval y) := by
        intro c hc d hd
        obtain ⟨k, rfl⟩ := mem_coeffs hc
        exact ih (fun w hw => hq w (Poly.vars_coeff_subset v k q hw)) hd
      clear h ih
      generalize q.coeffs v = ds at hcs hmem
      induction hcs with
      | nil => simpa using Place.reduces_zero
      | cons hcd _ ih =>
        rw [List.map_cons, List.foldr_cons, evalList_cons]
        exact (hmem _ (.head _) _ hcd).add (hxv.mul (ih fun c hc => hmem c (.tail _ hc)))

end ResiduePoly

/-! ## Towers -/

namespace ResidueTower

open ResiduePoly

variable {p : ℕ}

theorem level?_eq_some {v : ℕ} {d : Poly} {l : ResidueLevel} (h : level? p v d = some l) :
    l.var = v ∧ ofPoly? p d = some l.defining ∧ l.defining.mainVar? = some v ∧
      l.defining.degreeIn v = d.degreeOf v ∧ l.defining.leadingCoeffIn v = 1 := by
  rw [level?] at h
  split at h
  · cases h
  · rename_i a ha
    split_ifs at h with hc
    obtain rfl := Option.some.inj h
    simp only [Bool.and_eq_true, decide_eq_true_eq, beq_iff_eq] at hc
    exact ⟨rfl, ha, hc.1.1, hc.1.2, eq_one_of_beq hc.2⟩

/-- The defining polynomials of a tower, with their variables: these increase up to the last index, and
each polynomial has its own and lower variables of the tower. -/
structure IsTower (ds : List (ℕ × Poly)) : Prop where
  increasing : ds.Pairwise fun d e => d.1 < e.1
  le_reserved : ∀ d ∈ ds, d.1 ≤ Poly.reservedVar
  vars : ∀ d ∈ ds, ∀ w ∈ d.2.toMv.vars, w ≤ d.1 ∧ ∃ e ∈ ds, e.1 = w

section

variable {ds : List (ℕ × Poly)} {t : ResidueTower}

theorem ofPolys?_eq_some (h : ofPolys? p ds = some t) : t.prime = p ∧
    List.Forall₂ (fun d l => level? p d.1 d.2 = some l) ds t.levels := by
  obtain ⟨ls, hls, rfl⟩ := Option.map_eq_some_iff.1 h
  exact ⟨rfl, forall₂_of_mapM_eq_some hls⟩

theorem mem_vars_ofPolys? (h : ofPolys? p ds = some t) {v : ℕ} :
    v ∈ t.vars ↔ ∃ d ∈ ds, d.1 = v := by
  obtain ⟨-, hls⟩ := ofPolys?_eq_some h
  constructor
  · rintro ⟨l, hl, rfl⟩
    obtain ⟨d, hd, hdl⟩ := exists_mem_of_forall₂ hls hl
    exact ⟨d, hd, (level?_eq_some hdl).1.symm⟩
  · rintro ⟨d, hd, rfl⟩
    obtain ⟨l, hl, hdl⟩ := exists_mem_of_forall₂' hls hd
    exact ⟨l, hl, (level?_eq_some hdl).1⟩

theorem normal_defining_ofPolys? (hp : p.Prime) (hds : IsTower ds) (h : ofPolys? p ds = some t)
    {d : ℕ × Poly} (hd : d ∈ ds) {l : ResidueLevel} (hl : level? p d.1 d.2 = some l) :
    Normal p t.vars (l.var + 1) l.defining := by
  obtain ⟨hvar, hof, hmain, -⟩ := level?_eq_some hl
  have hvars : ∀ w ∈ d.2.toMv.vars, w < d.1 + 1 ∧ w ∈ t.vars := fun w hw =>
    ⟨Nat.lt_succ_of_le (hds.vars d hd w hw).1, (mem_vars_ofPolys? h).2 (hds.vars d hd w hw).2⟩
  rw [hvar]
  rcases Nat.lt_or_eq_of_le (hds.le_reserved d hd) with hlt | heq
  · exact normal_ofPolyUpTo? hp (.of_lt hlt fun w hw => (hvars w hw).1) hvars hof
  · rw [heq] at hmain hvars ⊢
    exact normal_of_mainVar?_reserved hp (fun w hw =>
      ⟨Nat.lt_succ_iff.1 (hvars w hw).1, (hvars w hw).2⟩) hof hmain

/-- The image of a tower is valid. -/
theorem valid_ofPolys? (hp : p.Prime) (hds : IsTower ds) (h : ofPolys? p ds = some t) : t.Valid := by
  obtain ⟨hprime, hls⟩ := ofPolys?_eq_some h
  have hlevel : ∀ l ∈ t.levels, ∃ d ∈ ds, level? p d.1 d.2 = some l := fun l hl =>
    exists_mem_of_forall₂ hls hl
  refine ⟨hprime ▸ hp, ?_, fun l hl => ?_, fun l hl => ?_, fun l hl => ?_⟩
  · have hvar : List.Forall₂ (· = ·) (ds.map (·.1)) (t.levels.map (·.var)) := by
      rw [List.forall₂_map_left_iff, List.forall₂_map_right_iff]
      exact hls.imp fun d l hdl => (level?_eq_some hdl).1.symm
    rw [List.forall₂_eq_eq_eq] at hvar
    have hincr : (ds.map (·.1)).Pairwise (· < ·) := List.pairwise_map.2 hds.increasing
    rw [hvar] at hincr
    exact List.pairwise_map.1 hincr
  · obtain ⟨d, hd, hdl⟩ := hlevel l hl
    rw [hprime]
    exact normal_defining_ofPolys? hp hds h hd hdl
  · obtain ⟨d, -, hdl⟩ := hlevel l hl
    obtain ⟨hvar, -, hmain, -⟩ := level?_eq_some hdl
    exact hvar ▸ hmain
  · obtain ⟨d, -, hdl⟩ := hlevel l hl
    obtain ⟨hvar, -, -, -, hlead⟩ := level?_eq_some hdl
    exact hvar ▸ hlead

end

end ResidueTower

end Cylindrical

end
