import Mathlib
import Cylindrical.Proofs.Residue.Coefficients
import Cylindrical.Proofs.Residue.Tower

/-!
# Remainders modulo a tower over a prime field

The levels below a variable generate an ideal.  A remainder is reduced: at every node it has fewer
powers than the polynomial of the level.  Reduced normal forms are equal when they are
congruent (`separates_point`), since each level adjoins a root of a monic polynomial to a ring
where the elements below it differ.
-/

noncomputable section

open MvPolynomial (X eval₂Hom)

namespace Cylindrical

namespace ResiduePoly

variable {K L : Type*} [CommRing K] [CommRing L] {x : ℕ → K} {p v : ℕ} {S : Set ℕ}
  {Q : ResiduePoly → Prop}

theorem eval_update_of_normal (f : K →+* L) (y : L) {a : ResiduePoly} (ha : Normal p S v a) :
    eval (Function.update (fun w => f (x w)) v y) a = f (eval x a) := by
  rw [map_eval]
  exact eval_congr (fun w hw => Function.update_of_ne hw.ne _ _) ha

theorem Separates.mono {b c : ℕ} (h : Separates x p c Q) (hbc : b ≤ c) : Separates x p b Q :=
  fun a d ha hd => h a d (ha.mono hbc) (hd.mono hbc)

end ResiduePoly

namespace ResidueTower

open ResiduePoly

variable {t : ResidueTower} {v : ℕ} {S : Set ℕ} {p : ℕ}

/-! ## Levels below a variable -/

theorem eq_of_var_eq (ht : t.Valid) {k l : ResidueLevel} (hk : k ∈ t.levels) (hl : l ∈ t.levels)
    (h : k.var = l.var) : k = l :=
  List.inj_on_of_nodup_map (List.pairwise_map.2 (ht.increasing.imp fun hlt => hlt.ne)) hk hl h

theorem degreeIn_defining_ne_zero (ht : t.Valid) {l : ResidueLevel} (hl : l ∈ t.levels) :
    l.defining.degreeIn l.var ≠ 0 :=
  (degreeIn_ne_zero_iff (ht.normal l hl)).2 (ht.mainVar? l hl)

theorem mem_take_countBelow {l : ResidueLevel} (hl : l ∈ t.levels.take (t.countBelow v)) :
    l ∈ t.levels ∧ l.var < v := by
  have hstart := List.takeWhile_prefix (fun l : ResidueLevel => decide (l.var < v)) (l := t.levels)
  rw [countBelow, ← List.prefix_iff_eq_take.1 hstart] at hl
  exact ⟨hstart.subset hl, by simpa using List.mem_takeWhile_imp hl⟩

/-- The ideal of the levels below a variable. -/
def idealBelow (t : ResidueTower) (v : ℕ) : Ideal (MvPolynomial ℕ (ZMod t.prime)) :=
  Ideal.span {P | ∃ l ∈ t.levels, l.var < v ∧ toMv t.prime l.defining = P}

/-- The variables modulo the levels below `v`. -/
def point (t : ResidueTower) (v : ℕ) : ℕ → MvPolynomial ℕ (ZMod t.prime) ⧸ t.idealBelow v :=
  fun w => Ideal.Quotient.mk _ (X w)

theorem eval_point (a : ResiduePoly) :
    a.eval (t.point v) = Ideal.Quotient.mk (t.idealBelow v) (toMv t.prime a) :=
  (map_eval (Ideal.Quotient.mk (t.idealBelow v)) a).symm

theorem cast_point : (t.prime : MvPolynomial ℕ (ZMod t.prime) ⧸ t.idealBelow v) = 0 := by
  rw [← map_natCast (Ideal.Quotient.mk (t.idealBelow v)), cast_eq_zero, map_zero]

theorem eval_point_defining {l : ResidueLevel} (hl : l ∈ t.levels) (hv : l.var < v) :
    l.defining.eval (t.point v) = 0 := by
  rw [eval_point, Ideal.Quotient.eq_zero_iff_mem]
  exact Ideal.subset_span ⟨l, hl, hv, rfl⟩

theorem vanishesBelow_point : t.VanishesBelow (t.countBelow v) (t.point v) :=
  ⟨cast_point, fun _ hl => eval_point_defining (mem_take_countBelow hl).1 (mem_take_countBelow hl).2⟩

/-- Congruent polynomials have equal values wherever the levels vanish. -/
theorem eval₂Hom_eq_of_mk_eq {K : Type*} [CommRing K] (f : ZMod t.prime →+* K) {x : ℕ → K}
    (hx : ∀ l ∈ t.levels, l.var < v → l.defining.eval x = 0)
    {P R : MvPolynomial ℕ (ZMod t.prime)}
    (h : Ideal.Quotient.mk (t.idealBelow v) P = Ideal.Quotient.mk (t.idealBelow v) R) :
    eval₂Hom f x P = eval₂Hom f x R := by
  have hker : t.idealBelow v ≤ RingHom.ker (eval₂Hom f x) := by
    refine Ideal.span_le.2 ?_
    rintro P ⟨l, hl, hv, rfl⟩
    exact (RingHom.mem_ker).2 ((eval₂Hom_toMv f x _).trans (hx l hl hv))
  have hmem := hker (Ideal.Quotient.eq.1 h)
  rwa [RingHom.mem_ker, map_sub, sub_eq_zero] at hmem

/-! ## Reduced normal forms -/

mutual

/-- At every node in the variable of a level there are at most as many coefficients as the degree
of the level. -/
def Reduced (t : ResidueTower) : ResiduePoly → Prop
  | .const _ => True
  | .node v cs =>
    (∀ l ∈ t.levels, l.var = v → cs.length ≤ l.defining.degreeIn v) ∧ ReducedList t cs

/-- All members are reduced. -/
def ReducedList (t : ResidueTower) : List ResiduePoly → Prop
  | [] => True
  | c :: cs => Reduced t c ∧ ReducedList t cs

end

theorem reducedList_iff {cs : List ResiduePoly} : t.ReducedList cs ↔ ∀ c ∈ cs, t.Reduced c := by
  induction cs with
  | nil => simp [ReducedList]
  | cons c cs ih => simp [ReducedList, ih]

@[simp] theorem reduced_const {a : ℕ} : t.Reduced (.const a) := by rw [Reduced]; trivial

theorem reduced_zero : t.Reduced 0 := reduced_const

theorem reduced_one : t.Reduced 1 := reduced_const

theorem reduced_node {cs : List ResiduePoly} : t.Reduced (.node v cs) ↔
    (∀ l ∈ t.levels, l.var = v → cs.length ≤ l.defining.degreeIn v) ∧ ∀ c ∈ cs, t.Reduced c := by
  rw [Reduced, reducedList_iff]

theorem Reduced.coeffs {a : ResiduePoly} (h : t.Reduced a) : CoeffsSatisfy t.Reduced v a := by
  cases a with
  | const a => exact fun c hc => List.mem_singleton.1 hc ▸ h
  | node w cs =>
    rw [CoeffsSatisfy, coeffsIn]
    split_ifs
    · exact (reduced_node.1 h).2
    · exact fun c hc => List.mem_singleton.1 hc ▸ h

theorem Reduced.degreeIn_lt (ht : t.Valid) {a : ResiduePoly} (h : t.Reduced a) {l : ResidueLevel}
    (hl : l ∈ t.levels) : a.degreeIn l.var < l.defining.degreeIn l.var := by
  have hpos := Nat.pos_of_ne_zero (degreeIn_defining_ne_zero ht hl)
  cases a with
  | const a => exact hpos
  | node w cs =>
    rw [degreeIn]
    split_ifs with hw
    · have := (reduced_node.1 h).1 l hl hw.symm
      rw [hw] at this
      omega
    · exact hpos

/-- What is reduced in its main variable and in its coefficients. -/
theorem reduced_of_coeffs {a : ResiduePoly} (ha : Normal p S (v + 1) a)
    (hdeg : ∀ l ∈ t.levels, l.var = v → a.degreeIn v < l.defining.degreeIn v)
    (h : CoeffsSatisfy t.Reduced v a) : t.Reduced a := by
  by_cases hv : a.mainVar? = some v
  · obtain ⟨cs, rfl⟩ := exists_node_of_mainVar? hv
    rw [CoeffsSatisfy, coeffsIn, if_pos rfl] at h
    refine reduced_node.2 ⟨fun l hl hlv => ?_, h⟩
    have := hdeg l hl hlv
    rw [degreeIn, if_pos rfl] at this
    omega
  · exact h.of_mainVar?_ne ha hv

/-! ## Remainders are reduced -/

/-- In the ring with one element all levels vanish. -/
theorem vanishesAt_trivial : t.VanishesAt fun _ => PUnit.unit.{1} := ⟨rfl, fun _ _ => rfl⟩

/-- A remainder modulo all levels below its variables is reduced. -/
theorem reduced_reduceBelow (ht : t.Valid) {limit b : ℕ} (hlimit : t.countBelow b ≤ limit)
    (a : ResiduePoly) (ha : Normal t.prime t.vars b a) : t.Reduced (t.reduceBelow limit a) := by
  match a, ha with
  | .const a, _ =>
    rw [reduceBelow]
    exact reduced_const
  | .node v cs, ha =>
    obtain ⟨hv, -, hcs⟩ := normal_node.1 ha
    obtain ⟨i, hi⟩ := exists_levelOf? hv.2
    obtain ⟨l, hl, rfl, -, hdef⟩ := levelOf?_eq_some hi
    have hlt := (lt_countBelow ht hi hv.1).trans_le hlimit
    have hle := countBelow_le hi
    have D := division_reduceBelow ht (vanishesAt_trivial.below i) hv.2
    have hs : SendsTo t.prime t.vars l.var t.Reduced (t.reduceBelow i) :=
      ⟨reduced_zero, reduced_one, fun c hc => ⟨(D.reduce c hc).1, reduced_reduceBelow ht hle c hc⟩⟩
    have hnorm : Normal t.prime t.vars (l.var + 1) (ofCoeffs l.var (cs.map (t.reduceBelow limit))) := by
      refine normal_ofCoeffs ht.prime.pos (Nat.lt_succ_self _) hv.2 (normalList_iff.2 fun d hd => ?_)
      obtain ⟨c, hc, rfl⟩ := List.mem_map.1 hd
      exact (keeps_reduceBelow ht (vanishesAt_trivial.below limit) l.var c
        (normalList_iff.1 hcs c hc)).1
    have hd := ht.normal l hl
    rw [reduceBelow, reduceList_eq_map, hi]
    simp only
    rw [if_pos hlt, hdef]
    refine reduced_of_coeffs (D.divRemMonic_spec hnorm hd).1.2 (fun k hk hkl => ?_)
      (D.coeffsSatisfy_divRemMonic hs hnorm hd)
    rw [eq_of_var_eq ht hk hl hkl]
    exact D.degreeIn_divRemMonic_lt hnorm hd (ht.monic l hl) (degreeIn_defining_ne_zero ht hl)
termination_by (limit, sizeOf a)

theorem sendsTo_reduceBelow (ht : t.Valid) {limit : ℕ} (hlimit : t.countBelow v ≤ limit) :
    SendsTo t.prime t.vars v t.Reduced (t.reduceBelow limit) :=
  ⟨reduced_zero, reduced_one, fun c hc =>
    ⟨(keeps_reduceBelow ht (vanishesAt_trivial.below limit) v c hc).1,
      reduced_reduceBelow ht hlimit c hc⟩⟩

/-! ## Congruent reduced normal forms -/

/-- A point where the levels below `v` vanish and reduced normal forms with variables below `b`
differ. -/
theorem exists_separates_reduced (ht : t.Valid) (v b : ℕ) :
    ∃ (K : Type) (_ : CommRing K) (_ : ZMod t.prime →+* K) (x : ℕ → K),
      Separates x t.prime b t.Reduced ∧
        ∀ l ∈ t.levels, l.var < v → l.var < b → l.defining.eval x = 0 := by
  induction b with
  | zero =>
    exact ⟨ZMod t.prime, inferInstance, RingHom.id _, _, separates_const t.prime t.Reduced,
      fun l _ _ h => absurd h (Nat.not_lt_zero _)⟩
  | succ b ih =>
    obtain ⟨K, _, f, x, hx, hvan⟩ := ih
    -- a level below `v` is given a root of its polynomial, any other variable is a new one
    by_cases hlevel : b < v ∧ ∃ l ∈ t.levels, l.var = b
    · obtain ⟨hbv, l, hl, rfl⟩ := hlevel
      have := hx.nontrivial ht.prime.one_lt reduced_zero reduced_one
      have hd := ht.normal l hl
      refine ⟨AdjoinRoot (fiber x l.var l.defining), inferInstance, (AdjoinRoot.of _).comp f, _,
        hx.adjoinRoot ht.prime.pos hd (ht.mainVar? l hl) (ht.monic l hl) (R := t.Reduced)
          fun a ha => ⟨ha.degreeIn_lt ht hl, fun i => coeffIn_of_forall_mem reduced_zero ha.coeffs i⟩,
        fun k hk hkv hkb => ?_⟩
      rcases Nat.lt_succ_iff_lt_or_eq.1 hkb with hkb | hkb
      · rw [eval_update_of_normal _ _ ((ht.normal k hk).mono hkb), hvan k hk hkv hkb, map_zero]
      · rw [eq_of_var_eq ht hk hl hkb, eval_adjoinRoot hd, AdjoinRoot.mk_self]
    · refine ⟨Polynomial K, inferInstance, Polynomial.C.comp f, _,
        hx.polynomial ht.prime.pos (R := t.Reduced)
          fun a ha i => coeffIn_of_forall_mem reduced_zero ha.coeffs i, fun k hk hkv hkb => ?_⟩
      have hkb : k.var < b := lt_of_le_of_ne (Nat.lt_succ_iff.1 hkb) fun he =>
        hlevel ⟨he ▸ hkv, k, hk, he⟩
      rw [eval_update_of_normal _ _ ((ht.normal k hk).mono hkb), hvan k hk hkv hkb, map_zero]

/-- Reduced normal forms are equal if they are congruent. -/
theorem separates_point (ht : t.Valid) (v b : ℕ) :
    Separates (t.point v) t.prime b t.Reduced := by
  obtain ⟨K, _, f, x, hx, hvan⟩ := exists_separates_reduced ht v (max v b)
  intro a c ha hc hQa hQc he
  refine hx.mono (le_max_right v b) a c ha hc hQa hQc ?_
  rw [eval_point, eval_point] at he
  rw [← eval₂Hom_toMv f, ← eval₂Hom_toMv f]
  exact eval₂Hom_eq_of_mk_eq f (fun l hl hlv => hvan l hl hlv (lt_max_of_lt_left hlv)) he

theorem nontrivial_quotient (ht : t.Valid) (v : ℕ) :
    Nontrivial (MvPolynomial ℕ (ZMod t.prime) ⧸ t.idealBelow v) :=
  (separates_point ht v 0).nontrivial ht.prime.one_lt reduced_zero reduced_one

end ResidueTower

end Cylindrical

end
