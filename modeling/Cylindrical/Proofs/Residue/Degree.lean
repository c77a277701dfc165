import Mathlib
import Cylindrical.Proofs.Residue.Euclid

/-!
# Degrees over a prime field

At the point of the polynomial ring in `v` over the ring in all other variables, a normal form has as
its degree what `ResiduePoly.degreeIn` reads off.  So a division by a polynomial that is monic in `v`
ends with a remainder of smaller degree.
-/

noncomputable section

namespace Cylindrical

namespace ResiduePoly

variable {p v : ℕ} {S : Set ℕ}

/-! ## Change of the point -/

section

variable {K : Type*} [CommRing K] {x y : ℕ → K}

mutual

theorem eval_congr {b : ℕ} (h : ∀ w < b, x w = y w) {a : ResiduePoly} (ha : Normal p S b a) :
    eval x a = eval y a := by
  match a, ha with
  | const a, _ => rw [eval_const, eval_const]
  | node v cs, ha =>
    obtain ⟨hv, -, hcs⟩ := normal_node.1 ha
    rw [eval_node, eval_node, h v hv.1, evalList_congr (fun w hw => h w (hw.trans hv.1)) hcs]

theorem evalList_congr {b : ℕ} (h : ∀ w < b, x w = y w) {z : K} {cs : List ResiduePoly}
    (hcs : NormalList p S b cs) : evalList x z cs = evalList y z cs := by
  match cs, hcs with
  | [], _ => rw [evalList_nil, evalList_nil]
  | c :: cs, hcs =>
    rw [normalList_cons] at hcs
    rw [evalList_cons, evalList_cons, eval_congr h hcs.1, evalList_congr h hcs.2]

end

end

/-! ## The generic point -/

/-- The variables as elements of the polynomial ring in `v` over the ring in all of them. -/
def genericPoint (p v : ℕ) : ℕ → Polynomial (MvPolynomial ℕ (ZMod p)) := fun w =>
  if w = v then Polynomial.X else Polynomial.C (MvPolynomial.X w)

/-- The polynomial in `v` that a normal form denotes. -/
def inVar (p v : ℕ) (a : ResiduePoly) : Polynomial (MvPolynomial ℕ (ZMod p)) :=
  eval (genericPoint p v) a

/-- The polynomial in all variables that a normal form denotes. -/
def toMv (p : ℕ) (a : ResiduePoly) : MvPolynomial ℕ (ZMod p) := eval MvPolynomial.X a

theorem cast_eq_zero : (p : MvPolynomial ℕ (ZMod p)) = 0 := by
  rw [← map_natCast (algebraMap (ZMod p) _), ZMod.natCast_self, map_zero]

theorem cast_eq_zero' : (p : Polynomial (MvPolynomial ℕ (ZMod p))) = 0 := by
  rw [← map_natCast Polynomial.C, cast_eq_zero, map_zero]

theorem inVar_of_normal {a : ResiduePoly} (ha : Normal p S v a) :
    inVar p v a = Polynomial.C (toMv p a) := by
  rw [toMv, map_eval]
  exact eval_congr (fun w hw => if_neg hw.ne) ha

theorem inVar_node (cs : List ResiduePoly) :
    inVar p v (node v cs) = evalList (genericPoint p v) Polynomial.X cs := by
  rw [inVar, eval_node, genericPoint, if_pos rfl]

theorem evalList_genericPoint {cs : List ResiduePoly} (hcs : NormalList p S v cs) :
    evalList (genericPoint p v) Polynomial.X cs =
      evalList (fun w => Polynomial.C (MvPolynomial.X w : MvPolynomial ℕ (ZMod p))) Polynomial.X cs :=
  evalList_congr (fun _ hw => if_neg hw.ne) hcs

/-- A normal form denotes zero only if it is zero. -/
theorem toMv_ne_zero {b : ℕ} {a : ResiduePoly} (ha : Normal p S b a) (hz : a.isZero = false) :
    toMv p a ≠ 0 := by
  match a, ha, hz with
  | const a, ha, hz =>
    rw [isZero, beq_eq_false_iff_ne] at hz
    rw [toMv, eval_const, ← map_natCast MvPolynomial.C, Ne,
      map_eq_zero_iff _ (MvPolynomial.C_injective ℕ (ZMod p)), ZMod.natCast_eq_zero_iff]
    exact Nat.not_dvd_of_pos_of_lt (Nat.pos_of_ne_zero hz) (normal_const.1 ha)
  | node v cs, ha, _ =>
    obtain ⟨hv, ⟨hlen, htrim⟩, hcs⟩ := normal_node.1 ha
    obtain ⟨c, hlast⟩ : ∃ c, cs.getLast? = some c := by
      cases h : cs.getLast? with
      | some c => exact ⟨c, rfl⟩
      | none => simp [List.getLast?_eq_none_iff.1 h] at hlen
    have hmem := List.mem_of_getLast? hlast
    have hne := toMv_ne_zero (normalList_iff.1 hcs c hmem) (trim_eq_self_iff.1 htrim c hlast)
    have hdeg := (natDegree_evalList (x := MvPolynomial.X) hlast hne).2
    rw [← evalList_genericPoint hcs, ← inVar_node] at hdeg
    intro h0
    have hmap := map_eval (x := MvPolynomial.X) (MvPolynomial.eval₂Hom
      (algebraMap (ZMod p) (Polynomial (MvPolynomial ℕ (ZMod p)))) (genericPoint p v)) (node v cs)
    simp only [MvPolynomial.eval₂Hom_X'] at hmap
    rw [show eval MvPolynomial.X (node v cs) = toMv p (node v cs) from rfl, h0, map_zero] at hmap
    rw [show inVar p v (node v cs) = 0 from hmap.symm, Polynomial.leadingCoeff_zero] at hdeg
    exact hne hdeg.symm
termination_by sizeOf a
decreasing_by
  have := List.sizeOf_lt_of_mem hmem
  simp only [node.sizeOf_spec]
  omega

/-- The degree and the leading coefficient of what a normal form denotes. -/
theorem natDegree_inVar {a : ResiduePoly} (ha : Normal p S (v + 1) a) :
    (inVar p v a).natDegree = a.degreeIn v ∧
      (inVar p v a).leadingCoeff = toMv p (a.leadingCoeffIn v) := by
  by_cases h : a.mainVar? = some v
  · obtain ⟨cs, hcs, hlen, hlast⟩ := exists_getLast?_of_mainVar? ha h
    obtain ⟨hl, hz⟩ := leadingCoeffIn_spec ha h
    generalize a.leadingCoeffIn v = c at hlast hl hz ⊢
    subst hcs
    rw [inVar_node, evalList_genericPoint (normal_node.1 ha).2.2, degreeIn, if_pos rfl]
    exact natDegree_evalList hlast (toMv_ne_zero hl hz)
  · rw [inVar_of_normal (ha.of_mainVar?_ne h), Polynomial.natDegree_C, Polynomial.leadingCoeff_C]
    cases a with
    | const a => exact ⟨rfl, rfl⟩
    | node w cs =>
      have hw : w ≠ v := fun he => h (by rw [mainVar?, he])
      rw [degreeIn, leadingCoeffIn, if_neg hw, if_neg hw]
      exact ⟨rfl, rfl⟩

/-! ## Remainders -/

theorem degreeIn_of_normal {a : ResiduePoly} (ha : Normal p S v a) : a.degreeIn v = 0 := by
  cases a with
  | const a => rfl
  | node w cs => rw [degreeIn, if_neg (normal_node.1 ha).1.1.ne]

theorem degreeIn_ofCoeffs_le {n : ℕ} {cs : List ResiduePoly} (hcs : NormalList p S v cs)
    (h : cs.length ≤ n + 1) : (ofCoeffs v cs).degreeIn v ≤ n := by
  have hmem : ∀ c ∈ trim cs, Normal p S v c := fun c hc => normalList_iff.1 hcs c (mem_of_mem_trim hc)
  have hlen := length_trim_le cs
  rw [ofCoeffs]
  generalize trim cs = ds at hmem hlen
  rcases ds with _ | ⟨c, _ | ⟨d, ds⟩⟩
  · exact Nat.zero_le n
  · rw [degreeIn_of_normal (hmem c (.head _))]
    exact Nat.zero_le n
  · rw [degreeIn, if_pos rfl]
    omega

theorem degreeIn_reduceCoeffs_le {f : ResiduePoly → ResiduePoly}
    (hf : ∀ c, Normal p S v c → Normal p S v (f c)) {a : ResiduePoly} (ha : Normal p S (v + 1) a) :
    (reduceCoeffs v f a).degreeIn v ≤ a.degreeIn v := by
  have hother : a.mainVar? ≠ some v → (f a).degreeIn v ≤ a.degreeIn v := fun h => by
    rw [degreeIn_of_normal (hf a (ha.of_mainVar?_ne h))]
    exact Nat.zero_le _
  cases a with
  | const a => exact hother (by simp [mainVar?])
  | node w cs =>
    rw [reduceCoeffs]
    split_ifs with hw
    · subst hw
      rw [degreeIn, if_pos rfl]
      have hlen := (normal_node.1 ha).2.1.1
      have hmap : NormalList p S w (cs.map f) := by
        refine normalList_iff.2 fun d hd => ?_
        obtain ⟨c, hc, rfl⟩ := List.mem_map.1 hd
        exact hf c (normalList_iff.1 (normal_node.1 ha).2.2 c hc)
      exact degreeIn_ofCoeffs_le hmap (by rw [List.length_map]; omega)
    · exact hother (by simpa [mainVar?] using hw)

theorem normal_reduceCoeffs (hp : 0 < p) (hS : v ∈ S) {f : ResiduePoly → ResiduePoly}
    (hf : ∀ c, Normal p S v c → Normal p S v (f c)) {a : ResiduePoly} (ha : Normal p S (v + 1) a) :
    Normal p S (v + 1) (reduceCoeffs v f a) :=
  (keeps_reduceCoeffs (x := fun _ => ()) (forms_normal p S) hp (below_succ hS)
    (fun c hc => ⟨hf c hc, rfl⟩) a ha).1

/-- One step of a division by a monic polynomial cancels the leading coefficient. -/
theorem degreeIn_sub_lt (hp : p.Prime) (hS : v ∈ S) {d r : ResiduePoly}
    (hd : Normal p S (v + 1) d) (hmonic : d.leadingCoeffIn v = 1) (hdv : d.degreeIn v ≠ 0)
    (hr : Normal p S (v + 1) r) (hle : d.degreeIn v ≤ r.degreeIn v) :
    (ResiduePoly.sub p r ((ResiduePoly.mul p (r.leadingCoeffIn v) d).shift v
      (r.degreeIn v - d.degreeIn v))).degreeIn v < r.degreeIn v := by
  have hrv : r.mainVar? = some v := (degreeIn_ne_zero_iff hr).1 (by omega)
  obtain ⟨hc, hz⟩ := leadingCoeffIn_spec hr hrv
  have hne := toMv_ne_zero hc hz
  obtain ⟨hrdeg, hrlead⟩ := natDegree_inVar hr
  obtain ⟨hddeg, hdlead⟩ := natDegree_inVar hd
  rw [hmonic] at hdlead
  have hdmonic : (inVar p v d).Monic := hdlead.trans (eval_one _)
  have hcin := inVar_of_normal hc
  have hcd := normal_shift hp.pos hS (r.degreeIn v - d.degreeIn v)
    (normal_mul hp (hc.mono (Nat.le_succ v)) hd)
  have heval : inVar p v (ResiduePoly.sub p r ((ResiduePoly.mul p (r.leadingCoeffIn v) d).shift v
      (r.degreeIn v - d.degreeIn v))) = inVar p v r -
        Polynomial.X ^ (r.degreeIn v - d.degreeIn v) * (inVar p v (r.leadingCoeffIn v) * inVar p v d) := by
    rw [inVar, eval_sub cast_eq_zero' _ hcd, eval_shift, eval_mul cast_eq_zero', genericPoint,
      if_pos rfl]
    rfl
  rw [← (natDegree_inVar (normal_sub hp.pos hr hcd)).1, heval, hcin, ← hrlead, ← hddeg]
  rw [← hrdeg] at hle ⊢
  rw [← hddeg] at hle hdv
  have hr0 : inVar p v r ≠ 0 := Polynomial.leadingCoeff_ne_zero.1 (hrlead ▸ hne)
  have hd0 : inVar p v d ≠ 0 := fun h0 => hdv (by rw [h0, Polynomial.natDegree_zero])
  have hdeg : (inVar p v d).degree ≤ (inVar p v r).degree := by
    rw [Polynomial.degree_eq_natDegree hr0, Polynomial.degree_eq_natDegree hd0]
    exact_mod_cast hle
  have hlt := Polynomial.div_wf_lemma ⟨hdeg, hr0⟩ hdmonic
  rw [mul_comm, mul_comm (Polynomial.C _), mul_assoc] at hlt
  by_cases h0 : inVar p v r - Polynomial.X ^ ((inVar p v r).natDegree - (inVar p v d).natDegree) *
      (Polynomial.C (inVar p v r).leadingCoeff * inVar p v d) = 0
  · rw [h0, Polynomial.natDegree_zero]
    omega
  · exact Polynomial.natDegree_lt_natDegree h0 hlt

/-- The steps of a division by a monic polynomial suffice. -/
theorem degreeIn_divideMonic_lt (hp : p.Prime) (hS : v ∈ S) {f : ResiduePoly → ResiduePoly}
    (hf : ∀ c, Normal p S v c → Normal p S v (f c)) {d : ResiduePoly}
    (hd : Normal p S (v + 1) d) (hmonic : d.leadingCoeffIn v = 1) (hdv : d.degreeIn v ≠ 0)
    (steps : ℕ) (q : ResiduePoly) {r : ResiduePoly} (hr : Normal p S (v + 1) r)
    (hsteps : r.degreeIn v < steps) :
    (divideMonic p v f d steps q r).2.degreeIn v < d.degreeIn v := by
  induction steps generalizing q r with
  | zero => omega
  | succ steps ih =>
    rw [divideMonic]
    split_ifs with h
    · rw [Bool.and_eq_true, decide_eq_true_eq, decide_eq_true_eq] at h
      have hlt := degreeIn_sub_lt hp hS hd hmonic hdv hr h.2
      have hc := (leadingCoeffIn_spec hr h.1).1.mono (Nat.le_succ v)
      have hn := normal_sub hp.pos hr (normal_shift hp.pos hS (r.degreeIn v - d.degreeIn v)
        (normal_mul hp hc hd))
      exact ih _ (normal_reduceCoeffs hp.pos hS hf hn)
        (((degreeIn_reduceCoeffs_le hf hn).trans_lt hlt).trans_le (Nat.lt_succ_iff.1 hsteps))
    · simp only [Bool.and_eq_true, decide_eq_true_eq, not_and, not_le] at h
      by_cases hrv : r.mainVar? = some v
      · exact h hrv
      · rw [degreeIn_of_normal (hr.of_mainVar?_ne hrv)]
        exact Nat.pos_of_ne_zero hdv

end ResiduePoly

end Cylindrical

end
