import Mathlib
import Cylindrical.Proofs.Residue.Homomorphism
import Cylindrical.Proofs.Residue.TowerImage

/-!
# Normal forms modulo a tower

The remainder of an element modulo all levels is congruent to it and has a degree below that of the
defining polynomial in the variable of every level.  Two elements have the same remainder exactly if they
are congruent (`reduce_isNormalForm`): the reduced elements are a basis of the quotient.  Division by
a polynomial that is monic in a variable, or one, is exact modulo the levels below it
(`Division.divRemMonic_isDivision`), where division by one makes all of the dividend the quotient.
-/

noncomputable section

open MvPolynomial (X C)

namespace Cylindrical

namespace ResiduePoly

/-! ## Degrees -/

section

variable {p v : ℕ} {S : Set ℕ} {a c : ResiduePoly} {cs : List ResiduePoly}

/-- The degree of a list of coefficients whose last one does not denote zero. -/
theorem degreeOf_evalList (hcs : NormalList p S v cs) (hlast : cs.getLast? = some c)
    (hc : toMv p c ≠ 0) :
    (evalList X (X v) cs : MvPolynomial ℕ (ZMod p)) ≠ 0 ∧
      MvPolynomial.degreeOf v (evalList X (X v) cs : MvPolynomial ℕ (ZMod p)) = cs.length - 1 := by
  induction cs with
  | nil => simp at hlast
  | cons d ds ih =>
    obtain ⟨hd, hds⟩ := normalList_cons.1 hcs
    have hd0 := degreeOf_toMv_of_normal le_rfl hd
    rw [toMv] at hd0
    cases ds with
    | nil =>
      obtain rfl := Option.some.inj hlast
      rw [evalList_cons, evalList_nil, mul_zero, add_zero]
      exact ⟨hc, hd0⟩
    | cons e es =>
      obtain ⟨hne, hdeg⟩ := ih hds (by rwa [List.getLast?_cons_cons] at hlast)
      rw [evalList_cons, mul_comm]
      generalize (evalList X (X v) (e :: es) : MvPolynomial ℕ (ZMod p)) = s at hne hdeg ⊢
      have hmul : MvPolynomial.degreeOf v (s * X v) = (e :: es).length := by
        rw [(MvPolynomial.degreeOf_mul_X_eq_degreeOf_add_one_iff v s).2 hne, hdeg]
        simp
      have hsum : MvPolynomial.degreeOf v (eval X d + s * X v) = (e :: es).length := by
        rw [add_comm, MvPolynomial.degreeOf_add_eq_of_degreeOf_lt (by rw [hd0, hmul]; simp), hmul]
      refine ⟨fun h0 => ?_, by rw [hsum]; simp⟩
      rw [h0, MvPolynomial.degreeOf_zero] at hsum
      simp at hsum

/-- The degree that is read off is that of the denoted polynomial. -/
theorem degreeOf_toMv (ha : Normal p S (v + 1) a) :
    MvPolynomial.degreeOf v (toMv p a) = a.degreeIn v := by
  by_cases h : a.mainVar? = some v
  · obtain ⟨cs, hcs, -, hlast⟩ := exists_getLast?_of_mainVar? ha h
    obtain ⟨hl, hz⟩ := leadingCoeffIn_spec ha h
    generalize a.leadingCoeffIn v = c at hlast hl hz
    subst hcs
    rw [toMv, eval_node, degreeIn, if_pos rfl]
    exact (degreeOf_evalList (normal_node.1 ha).2.2 hlast (toMv_ne_zero hl hz)).2
  · rw [degreeOf_toMv_of_normal le_rfl (ha.of_mainVar?_ne h),
      degreeIn_of_normal (ha.of_mainVar?_ne h)]

end

/-! ## Division -/

/-- Dividing by one leaves no remainder, and the steps only move parts of the dividend to the quotient. -/
theorem Division.eval_divRemMonic_one {K : Type*} [CommRing K] {x : ℕ → K} {p v : ℕ}
    {A : ℕ → ℕ → Prop} {F : ℕ → ResiduePoly → Prop} {reduce : ResiduePoly → ResiduePoly}
    (D : Division x p A F v reduce) {a : ResiduePoly} (ha : F (v + 1) a) :
    eval x (a.divRemMonic p v reduce 1).1 = eval x a := by
  have hra := D.coeffs a ha
  have hone : degreeIn v 1 = 0 := rfl
  rw [divRemMonic]
  generalize stepLimit + ((reduceCoeffs v reduce a).degreeIn v + 1) = steps
  obtain ⟨⟨hq, hr⟩, he⟩ := D.divideMonic_spec (D.forms.mem_one D.prime.one_lt) steps
    (D.forms.mem_zero D.prime.pos) hra.1
  generalize divideMonic p v reduce 1 steps 0 (reduceCoeffs v reduce a) = s at hq hr he
  obtain ⟨q, r⟩ := s
  simp only at hq hr he ⊢
  rw [if_pos hone, (D.coeffs _ (D.forms.mem_add D.prime.pos hq hr)).2, eval_add D.cast, ← hra.2]
  rw [eval_one, mul_one, eval_zero, zero_mul, zero_add] at he
  exact he

/-- Quotient and remainder by a polynomial that is monic in `v`, or one. -/
theorem Division.divRemMonic_isDivision {K : Type*} [CommRing K] {x : ℕ → K} {p v : ℕ} {S : Set ℕ}
    {reduce : ResiduePoly → ResiduePoly} (D : Division x p (Below S) (Normal p S) v reduce)
    {a d : ResiduePoly} (ha : Normal p S (v + 1) a) (hd : Normal p S (v + 1) d)
    (hmonic : d = 1 ∨ IsMonicIn v d) :
    eval x a = eval x (a.divRemMonic p v reduce d).1 * eval x d +
        eval x (a.divRemMonic p v reduce d).2 ∧
      ((a.divRemMonic p v reduce d).2 = 0 ∨
        (a.divRemMonic p v reduce d).2.degreeIn v < d.degreeIn v) := by
  rcases hmonic with rfl | hmonic
  · have hrem : (a.divRemMonic p v reduce 1).2 = 0 := divRemMonic_snd_of_degreeIn_eq_zero rfl
    refine ⟨?_, .inl hrem⟩
    rw [hrem, D.eval_divRemMonic_one ha, eval_one, mul_one, eval_zero, add_zero]
  · have hdeg := hmonic.degreeIn_ne_zero hd
    exact ⟨(D.divRemMonic_spec ha hd).2 hdeg,
      .inr (D.degreeIn_divRemMonic_lt ha hd hmonic.leadingCoeffIn hdeg)⟩

end ResiduePoly

namespace ResidueTower

open ResiduePoly

variable {t : ResidueTower} {v b : ℕ} {a c d : ResiduePoly}

/-! ## The ideal of all levels -/

/-- The ideal of the defining polynomials. -/
def ideal (t : ResidueTower) : Ideal (MvPolynomial ℕ (ZMod t.prime)) :=
  Ideal.span {P | ∃ l ∈ t.levels, toMv t.prime l.defining = P}

/-- It is the ideal of the levels below a variable that exceeds all of them. -/
theorem exists_idealBelow_eq (t : ResidueTower) (b : ℕ) :
    ∃ v, b ≤ v ∧ t.countBelow v = t.levels.length ∧ t.idealBelow v = t.ideal := by
  obtain ⟨v, hbv, hv⟩ := t.exists_countBelow_eq_length b
  refine ⟨v, hbv, hv, congrArg Ideal.span (Set.ext fun P => ?_)⟩
  have hlt : ∀ l ∈ t.levels, l.var < v := fun l hl =>
    (mem_take_countBelow (v := v) (by rwa [hv, List.take_length])).2
  exact ⟨fun ⟨l, hl, _, hP⟩ => ⟨l, hl, hP⟩, fun ⟨l, hl, hP⟩ => ⟨l, hl, hlt l hl, hP⟩⟩

/-! ## Remainders -/

/-- A remainder is a normal form in the same variables, and congruent. -/
theorem reduce_spec (ht : t.Valid) (ha : Normal t.prime t.vars b a) :
    Normal t.prime t.vars b (t.reduce a) ∧
      toMv t.prime (t.reduce a) - toMv t.prime a ∈ t.ideal := by
  obtain ⟨v, -, hcount, hideal⟩ := t.exists_idealBelow_eq b
  obtain ⟨hn, he⟩ := keeps_reduceBelow ht (vanishesBelow_point (v := v)) b a ha
  rw [hcount] at hn he
  rw [eval_point, eval_point, Ideal.Quotient.eq, hideal] at he
  exact ⟨hn, he⟩

/-- What is reduced has a smaller degree than the level, in the variable of each level. -/
theorem Reduced.degreeOf_lt (ht : t.Valid) {b : ℕ} {a : ResiduePoly} (ha : Normal t.prime t.vars b a)
    (h : t.Reduced a) {l : ResidueLevel} (hl : l ∈ t.levels) :
    MvPolynomial.degreeOf l.var (toMv t.prime a) < l.defining.degreeIn l.var := by
  induction b using Nat.strong_induction_on generalizing a with
  | _ b ih =>
    cases a with
    | const a =>
      rw [degreeOf_toMv (normal_const.2 (normal_const.1 ha) : Normal t.prime t.vars (l.var + 1) _)]
      exact h.degreeIn_lt ht hl
    | node v cs =>
      obtain ⟨hv, hlen, hcs⟩ := normal_node.1 ha
      by_cases hle : v ≤ l.var
      · rw [degreeOf_toMv (normal_node.2 ⟨⟨Nat.lt_succ_of_le hle, hv.2⟩, hlen, hcs⟩)]
        exact h.degreeIn_lt ht hl
      · rw [toMv, eval_node]
        refine degreeOf_evalList_lt (by omega) (Nat.pos_of_ne_zero (degreeIn_defining_ne_zero ht hl))
          fun c hc => ?_
        exact ih v hv.1 (normalList_iff.1 hcs c hc) ((reduced_node.1 h).2 c hc)

/-- Congruent elements have the same remainder, and no others. -/
theorem reduce_eq_reduce_iff (ht : t.Valid) (ha : Normal t.prime t.vars b a)
    (hc : Normal t.prime t.vars b c) :
    t.reduce a = t.reduce c ↔ toMv t.prime a - toMv t.prime c ∈ t.ideal := by
  obtain ⟨han, hae⟩ := reduce_spec ht ha
  obtain ⟨hcn, hce⟩ := reduce_spec ht hc
  constructor
  · intro h
    rw [h] at hae
    convert sub_mem hce hae using 1
    ring
  · intro h
    obtain ⟨v, -, -, hideal⟩ := t.exists_idealBelow_eq b
    refine (separates_point ht v b).eq han hcn (reduced_reduce ht ha) (reduced_reduce ht hc) ?_
    rw [eval_point, eval_point, Ideal.Quotient.eq, hideal]
    convert add_mem (sub_mem hae hce) h using 1
    ring

/-! ## Division -/

/-- Division modulo the levels below `v`, by a polynomial that is monic in `v` or one. -/
theorem divRem_spec (ht : t.Valid) (ha : Normal t.prime (insert v t.vars) (v + 1) a)
    (hd : Normal t.prime (insert v t.vars) (v + 1) d) (hmonic : d = 1 ∨ IsMonicIn v d) :
    (Normal t.prime (insert v t.vars) (v + 1) (t.divRem v (t.countBelow v) a d).1 ∧
      Normal t.prime (insert v t.vars) (v + 1) (t.divRem v (t.countBelow v) a d).2) ∧
    toMv t.prime a - (toMv t.prime (t.divRem v (t.countBelow v) a d).1 * toMv t.prime d +
      toMv t.prime (t.divRem v (t.countBelow v) a d).2) ∈ t.idealBelow v ∧
    ((t.divRem v (t.countBelow v) a d).2 = 0 ∨
      MvPolynomial.degreeOf v (toMv t.prime (t.divRem v (t.countBelow v) a d).2) <
        MvPolynomial.degreeOf v (toMv t.prime d)) := by
  have D := (exact_reduceBelow ht v).toDivision
  obtain ⟨hn, -⟩ := D.divRemMonic_spec ha hd
  obtain ⟨he, hdeg⟩ := D.divRemMonic_isDivision ha hd hmonic
  simp only [eval_point, ← map_mul, ← map_add] at he
  refine ⟨hn, Ideal.Quotient.eq.1 he, hdeg.imp_right fun hlt => ?_⟩
  rw [degreeOf_toMv hd]
  exact (degreeOf_toMv hn.2).trans_lt hlt

/-! ## Images of towers -/

variable {p : ℕ} {ds : List (ℕ × Poly)}

/-- In the image of a tower reduction is a normal form: the remainder is congruent, its degrees are below
those of the levels, and it is the same for congruent elements only.  Division by a polynomial in a
variable and those below it, monic or one, is exact modulo the levels below the variable. -/
theorem reduce_isNormalForm (hp : p.Prime) (hds : IsTower ds) (ht : ofPolys? p ds = some t) :
    (∀ b a, Normal t.prime t.vars b a →
      Normal t.prime t.vars b (t.reduce a) ∧
      toMv t.prime (t.reduce a) - toMv t.prime a ∈ t.ideal ∧
      ∀ l ∈ t.levels, MvPolynomial.degreeOf l.var (toMv t.prime (t.reduce a)) <
        MvPolynomial.degreeOf l.var (toMv t.prime l.defining)) ∧
    (∀ b a c, Normal t.prime t.vars b a → Normal t.prime t.vars b c →
      (t.reduce a = t.reduce c ↔ toMv t.prime a - toMv t.prime c ∈ t.ideal)) ∧
    ∀ v a d, Normal t.prime (insert v t.vars) (v + 1) a →
      Normal t.prime (insert v t.vars) (v + 1) d → d = 1 ∨ IsMonicIn v d →
      ∃ q r, t.divRem v (t.countBelow v) a d = (q, r) ∧
        Normal t.prime (insert v t.vars) (v + 1) q ∧ Normal t.prime (insert v t.vars) (v + 1) r ∧
        toMv t.prime a - (toMv t.prime q * toMv t.prime d + toMv t.prime r) ∈ t.idealBelow v ∧
        (r = 0 ∨ MvPolynomial.degreeOf v (toMv t.prime r) <
          MvPolynomial.degreeOf v (toMv t.prime d)) := by
  have hvalid := valid_ofPolys? hp hds ht
  refine ⟨fun b a ha => ?_, fun b a c ha hc => reduce_eq_reduce_iff hvalid ha hc,
    fun v a d ha hd hmonic => ?_⟩
  · obtain ⟨hn, he⟩ := reduce_spec hvalid ha
    refine ⟨hn, he, fun l hl => ?_⟩
    rw [degreeOf_toMv (hvalid.normal l hl)]
    exact (reduced_reduce hvalid ha).degreeOf_lt hvalid hn hl
  · obtain ⟨⟨hq, hr⟩, hmem, hdeg⟩ := divRem_spec hvalid ha hd hmonic
    exact ⟨_, _, rfl, hq, hr, hmem, hdeg⟩

/-- Modulo seven the square of the root of two reduces to two, and `y² - 2` is divided by `y + x`. -/
theorem reduce_isNormalForm_rootOfTwo :
    rootOfTwo.reduce (.node 0 [.const 0, .const 0, .const 1]) = .const 2 ∧
      ∃ q r, rootOfTwo.divRem 1 1 (.node 1 [.const 5, .const 0, .const 1])
          (.node 1 [.node 0 [.const 0, .const 1], .const 1]) = (q, r) ∧
        toMv 7 (.node 1 [.const 5, .const 0, .const 1]) - (toMv 7 q *
          toMv 7 (.node 1 [.node 0 [.const 0, .const 1], .const 1]) + toMv 7 r) ∈
            rootOfTwo.idealBelow 1 := by
  obtain ⟨-, hiff, hdivision⟩ := reduce_isNormalForm (p := 7) (by decide) isTower_squareMinusTwo
    ofPolys?_squareMinusTwo
  have hdefining : toMv 7 (.node 0 [.const 5, .const 0, .const 1]) =
      toMv 7 (.node 0 [.const 0, .const 0, .const 1]) - toMv 7 (.const 2) := by
    have hseven : (7 : MvPolynomial ℕ (ZMod 7)) = 0 := cast_eq_zero
    simp only [toMv, eval_node, evalList_cons, evalList_nil, eval_const]
    push_cast
    linear_combination hseven
  have hideal : toMv 7 (.node 0 [.const 0, .const 0, .const 1]) - toMv 7 (.const 2) ∈
      rootOfTwo.ideal := Ideal.subset_span ⟨_, .head _, hdefining⟩
  refine ⟨?_, ?_⟩
  · rw [(hiff 1 _ (.const 2) ?_ ?_).2 hideal, reduce, reduceBelow]
    · rw [vars_rootOfTwo]
      simp [normal_node, rootOfTwo, trim, isZero]
    · simp [rootOfTwo]
  · obtain ⟨q, r, hdiv, -, -, hmem, -⟩ := hdivision 1 (.node 1 [.const 5, .const 0, .const 1])
      (.node 1 [.node 0 [.const 0, .const 1], .const 1])
      (by rw [vars_rootOfTwo]; simp [normal_node, rootOfTwo, trim, isZero])
      (by rw [vars_rootOfTwo]; simp [normal_node, rootOfTwo, trim, isZero])
      (.inr ⟨rfl, rfl⟩)
    exact ⟨q, r, hdiv, hmem⟩

end ResidueTower

end Cylindrical

end
