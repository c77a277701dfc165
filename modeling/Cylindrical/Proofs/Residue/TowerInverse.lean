import Mathlib
import Cylindrical.Proofs.Residue.Remainder
import Cylindrical.Proofs.Residue.ZeroDivisor

/-!
# Inverses and greatest common divisors modulo a tower

The product of a reduced element and its inverse has the remainder one (`reduce_mul_inverse`).  An
element without an inverse exposes a proper factor of the polynomial of some level, modulo the levels below
(`inverseUpTo_eq_error`), and the split that is recorded for the level is a factorisation
(`reduceBelow_mul_cofactor`).

A greatest common divisor in `v` over the levels below it is a common divisor and a combination of the
two polynomials modulo these levels, and it is monic, one, or zero for two zeros (`IsGcdBelow`).  Where
none is found, a coefficient without an inverse has exposed a proper factor of the polynomial of a level
below `v` (`gcd_eq_error`).
-/

noncomputable section

namespace Cylindrical

namespace ResidueTower

open ResiduePoly

variable {t : ResidueTower} {v : ℕ}

/-! ## Exact division below a variable -/

/-- All levels are below some variable. -/
theorem exists_countBelow_eq_length (t : ResidueTower) (b : ℕ) :
    ∃ c, b ≤ c ∧ t.countBelow c = t.levels.length := by
  refine ⟨b + ((t.levels.map (·.var)).sum + 1), Nat.le_add_right _ _, ?_⟩
  rw [countBelow, List.takeWhile_eq_self_iff.2 fun l hl => ?_]
  have := List.le_sum_of_mem (List.mem_map_of_mem (f := fun l : ResidueLevel => l.var) hl)
  rw [decide_eq_true_eq]
  omega

theorem normal_insert_iff {p b : ℕ} (hb : b ≤ v) {S : Set ℕ} {c : ResiduePoly} :
    Normal p (insert v S) b c ↔ Normal p S b c :=
  ⟨fun h => h.mono_set fun _ hw hS => hS.resolve_left (hw.trans_le hb).ne,
    fun h => h.mono_set fun _ _ hS => .inr hS⟩

theorem keeps_insert_iff {K : Type*} [CommRing K] {x : ℕ → K} {p : ℕ} {S : Set ℕ}
    {f : ResiduePoly → ResiduePoly} : Keeps x (Normal p (insert v S) v) f ↔ Keeps x (Normal p S v) f := by
  simp only [Keeps, normal_insert_iff le_rfl]

/-- Reduction modulo the levels below a variable, at the point of the quotient ring. -/
theorem exact_reduceBelow (ht : t.Valid) (v : ℕ) :
    Exact (t.point v) t.prime (insert v t.vars) v t.Reduced (t.reduceBelow (t.countBelow v)) where
  forms := forms_normal t.prime _
  prime := ht.prime
  cast := cast_point
  mem := below_succ (Set.mem_insert v _)
  reduce := keeps_insert_iff.2 (keeps_reduceBelow ht vanishesBelow_point v)
  zero := reduced_zero
  one := reduced_one
  sends c hc := by
    rw [normal_insert_iff le_rfl] at hc ⊢
    exact (sendsTo_reduceBelow ht le_rfl).sends c hc
  separates := separates_point ht v v

theorem inverts_point (ht : t.Valid) (v n : ℕ) :
    Inverts (t.point v) (Normal t.prime (insert v t.vars) v) (t.inverseUpTo n) := by
  intro a c ha
  rw [normal_insert_iff le_rfl] at ha ⊢
  exact inverts_inverseUpTo ht vanishesBelow_point n a c ha

/-! ## Inverses -/

/-- The product of an element and its inverse has the remainder one. -/
theorem reduce_mul_inverse (ht : t.Valid) {b : ℕ} {c i : ResiduePoly}
    (hc : Normal t.prime t.vars b c) (h0 : c.isZero = false) (h : t.inverse c = .ok i) :
    t.reduce (ResiduePoly.mul t.prime c i) = 1 := by
  obtain ⟨v, hbv, hv⟩ := t.exists_countBelow_eq_length b
  have hcv := (normal_insert_iff le_rfl).2 (hc.mono hbv)
  obtain ⟨hin, hone⟩ := inverts_point ht v _ c i hcv h0 h
  have E := exact_reduceBelow ht v
  rw [reduce, ← hv]
  exact E.reduce_eq_one (normal_mul ht.prime hcv hin) ((eval_mul E.cast c i).trans hone)

/-! ## Zero divisors -/

/-- A monic factor of the polynomial of a level modulo the levels below, of smaller degree and not
one. -/
structure IsProperFactor (t : ResidueTower) (l : ResidueLevel) (f : ResiduePoly) : Prop where
  normal : Normal t.prime t.vars (l.var + 1) f
  mainVar? : f.mainVar? = some l.var
  monic : f.leadingCoeffIn l.var = 1
  coeffs : CoeffsSatisfy t.Reduced l.var f
  degreeIn_pos : 0 < f.degreeIn l.var
  degreeIn_lt : f.degreeIn l.var < l.defining.degreeIn l.var
  dvd : ∃ q, Normal t.prime t.vars (l.var + 1) q ∧
    toMv t.prime l.defining - toMv t.prime q * toMv t.prime f ∈ t.idealBelow l.var

/-- An element that divides at the point of the quotient ring divides modulo the ideal. -/
theorem exists_mul_of_values {S : Set ℕ} {b : ℕ} {hp : t.prime.Prime} {a g : ResiduePoly}
    (h : ∃ k ∈ values hp cast_point (t.point v) S b, a.eval (t.point v) = k * g.eval (t.point v)) :
    ∃ q, Normal t.prime S b q ∧
      toMv t.prime a - toMv t.prime q * toMv t.prime g ∈ t.idealBelow v := by
  obtain ⟨-, ⟨q, hq, rfl⟩, ha⟩ := h
  rw [eval_point, eval_point, eval_point, ← map_mul] at ha
  exact ⟨q, hq, Ideal.Quotient.eq.1 ha⟩

/-- What is met in place of an inverse of a reduced element is a proper factor of the polynomial of a
level. -/
theorem inverseUpTo_eq_error (ht : t.Valid) (n : ℕ) {b : ℕ} (hb : t.countBelow b ≤ n)
    {a : ResiduePoly} (ha : Normal t.prime t.vars b a) (hr : t.Reduced a) {z : ZeroDivisor}
    (hz : t.inverseUpTo n a = .error z) :
    ∃ l, t.levels[z.level]? = some l ∧ l.var < b ∧ t.IsProperFactor l z.factor := by
  induction n generalizing b a with
  | zero =>
    cases a with
    | const a => simp [inverseUpTo] at hz
    | node v cs =>
      obtain ⟨i, hi⟩ := exists_levelOf? (normal_node.1 ha).1.2
      have := lt_countBelow ht hi (normal_node.1 ha).1.1
      omega
  | succ n ih =>
    cases a with
    | const a => simp [inverseUpTo] at hz
    | node v cs =>
      obtain ⟨hv, hcs⟩ := normal_node.1 ha
      obtain ⟨i, hi⟩ := exists_levelOf? hv.2
      obtain ⟨l, hl, rfl, hli, hdef⟩ := levelOf?_eq_some hi
      have hlt := lt_countBelow ht hi hv.1
      have hcount := countBelow_eq ht hli
      have hnontriv := nontrivial_quotient ht l.var
      have hinv := inverts_point ht l.var n
      have E := exact_reduceBelow ht l.var
      have hd := ht.normal l hl
      have han : Normal t.prime t.vars (l.var + 1) (node l.var cs) :=
        normal_node.2 ⟨⟨Nat.lt_succ_self _, hv.2⟩, hcs⟩
      have hdegree : (node l.var cs).degreeIn l.var < stepLimit + (cs.length + 1) := by
        rw [degreeIn, if_pos rfl]
        omega
      rw [inverseUpTo, hi] at hz
      dsimp only at hz
      rw [hdef, ← hcount] at hz
      rw [Set.insert_eq_of_mem hv.2] at E hinv
      rcases E.invertLoop_eq_error hinv _ hd han hr.coeffs le_rfl (.inl rfl) hdegree hz with
        ⟨hlevel, hg⟩ | ⟨e, he, -, hre, hez⟩
      · refine ⟨l, by rw [hlevel, hcount, hli], hv.1, hg.normal, hg.monic.mainVar?,
          hg.monic.leadingCoeffIn, hg.coeffs, Nat.pos_of_ne_zero (hg.monic.degreeIn_ne_zero hg.normal),
          hg.degreeIn_le.trans_lt (hr.degreeIn_lt ht hl), exists_mul_of_values hg.gcd.dvd_left⟩
      · obtain ⟨k, hk, hkv, hfactor⟩ := ih (by omega) he hre hez
        exact ⟨k, hk, hkv.trans hv.1, hfactor⟩

/-! ## Splits -/

/-- The levels below `v` reduce the coefficients of a polynomial in `v`. -/
theorem reduceBelow_eq_reduceCoeffs (t : ResidueTower) (v : ℕ) (a : ResiduePoly) :
    t.reduceBelow (t.countBelow v) a = a.reduceCoeffs v (t.reduceBelow (t.countBelow v)) := by
  cases a with
  | const a => rfl
  | node w cs =>
    rw [reduceCoeffs]
    split_ifs with hw
    · subst hw
      rw [reduceBelow, reduceList_eq_map]
      split
      · rfl
      · rename_i i hi
        rw [if_neg (countBelow_le hi).not_gt]
    · rfl

theorem coeffsSatisfy_reduceBelow (ht : t.Valid) {a : ResiduePoly}
    (ha : Normal t.prime t.vars (v + 1) a) :
    CoeffsSatisfy t.Reduced v (t.reduceBelow (t.countBelow v) a) := by
  rw [reduceBelow_eq_reduceCoeffs]
  exact coeffsSatisfy_reduceCoeffs (sendsTo_reduceBelow ht le_rfl) ha

/-- Division by a monic factor leaves no remainder, as it has a smaller degree in `v` and the factor
divides it. -/
theorem eval_eq_quotient_mul {K : Type*} [CommRing K] [Nontrivial K] {x : ℕ → K} {p : ℕ} {S : Set ℕ}
    {f : ResiduePoly → ResiduePoly}
    (D : Division (Function.update (fun w => Polynomial.C (x w)) v Polynomial.X) p (Below S)
      (Normal p S) v f)
    {d g : ResiduePoly} (hd : Normal p S (v + 1) d) (hg : Normal p S (v + 1) g)
    (hmain : g.mainVar? = some v) (hmonic : g.leadingCoeffIn v = 1) {k : Polynomial K}
    (h : fiber x v d = k * fiber x v g) :
    fiber x v d = fiber x v (d.divRemMonic p v f g).1 * fiber x v g := by
  have hdeg := (degreeIn_ne_zero_iff hg).2 hmain
  have hlt := D.degreeIn_divRemMonic_lt hd hg hmonic hdeg
  obtain ⟨⟨hqn, hrn⟩, hdiv⟩ := D.divRemMonic_spec hd hg
  have hdiv := hdiv hdeg
  rw [eval_polynomial hd, eval_polynomial hg, eval_polynomial hqn, eval_polynomial hrn] at hdiv
  have hrem : fiber x v (d.divRemMonic p v f g).2 = 0 := by
    by_contra hne
    refine (monic_fiber (x := x) hg hmain hmonic).not_dvd_of_degree_lt hne
      ((degree_fiber_lt hlt).trans_le (le_degree_fiber hg hmain hmonic))
      ⟨k - fiber x v (d.divRemMonic p v f g).1, ?_⟩
    linear_combination h - hdiv
  rw [hrem, add_zero] at hdiv
  exact hdiv

/-- A proper factor and its cofactor have the product of the defining polynomial, modulo the
levels below. -/
theorem reduceBelow_mul_cofactor (ht : t.Valid) {i : ℕ} {l : ResidueLevel}
    (hl : t.levels[i]? = some l) {f : ResiduePoly} (hf : t.IsProperFactor l f) :
    t.reduceBelow i (ResiduePoly.mul t.prime f (t.divRem l.var i l.defining f).1) =
      t.reduceBelow i l.defining := by
  -- the variable of the level is a new one over such a point, so that degrees in it can be compared
  obtain ⟨K, _, φ, x, hx, hvan⟩ := exists_separates_reduced ht l.var l.var
  have := hx.nontrivial ht.prime.one_lt reduced_zero reduced_one
  have hmem := List.mem_of_getElem? hl
  have hy : ∀ k ∈ t.levels, k.var < l.var → k.defining.eval
      (Function.update (fun w => Polynomial.C (x w)) l.var Polynomial.X) = 0 := fun k hk hkl => by
    rw [eval_update_of_normal Polynomial.C _ ((ht.normal k hk).mono hkl), hvan k hk hkl hkl, map_zero]
  have hcast : (t.prime : Polynomial K) = 0 := by
    rw [← map_natCast (Polynomial.C.comp φ), ZMod.natCast_self, map_zero]
  have hbelow : t.VanishesBelow (t.countBelow l.var)
      (Function.update (fun w => Polynomial.C (x w)) l.var Polynomial.X) :=
    ⟨hcast, fun k hk => hy k (mem_take_countBelow hk).1 (mem_take_countBelow hk).2⟩
  have D := division_reduceBelow ht hbelow ⟨l, hmem, rfl⟩
  have hd := ht.normal l hmem
  obtain ⟨q, hq, hdvd⟩ := hf.dvd
  have hfiber : fiber x l.var l.defining = fiber x l.var q * fiber x l.var f := by
    have h := eval₂Hom_eq_of_mk_eq (Polynomial.C.comp φ) hy (Ideal.Quotient.eq.2 hdvd)
    rwa [map_mul, eval₂Hom_toMv, eval₂Hom_toMv, eval₂Hom_toMv, eval_polynomial hd,
      eval_polynomial hq, eval_polynomial hf.normal] at h
  have hquot := eval_eq_quotient_mul D hd hf.normal hf.mainVar? hf.monic hfiber
  obtain ⟨⟨hgn, -⟩, -⟩ := D.divRemMonic_spec hd hf.normal
  have hmul := normal_mul ht.prime hf.normal hgn
  have hkeeps := keeps_reduceBelow ht hbelow (l.var + 1)
  rw [← countBelow_eq ht hl]
  refine (hx.polynomial ht.prime.pos (R := CoeffsSatisfy t.Reduced l.var) fun a ha i =>
    coeffIn_of_forall_mem reduced_zero ha i).eq (hkeeps _ hmul).1 (hkeeps _ hd).1
      (coeffsSatisfy_reduceBelow ht hmul) (coeffsSatisfy_reduceBelow ht hd) ?_
  refine (hkeeps _ hmul).2.trans (Eq.trans ?_ (hkeeps _ hd).2.symm)
  rw [eval_mul hcast, eval_polynomial hf.normal, eval_polynomial hgn, eval_polynomial hd, hquot,
    mul_comm]

/-- The recorded split keeps the factor and its cofactor, and leaves the other levels alone. -/
theorem levels_recordSplit {z : ZeroDivisor} {l : ResidueLevel} (hl : t.levels[z.level]? = some l) :
    (t.recordSplit z).levels = t.levels.set z.level
      { l with split := some (z.factor, (t.divRem l.var z.level l.defining z.factor).1) } := by
  refine List.ext_getElem? fun i => ?_
  rw [recordSplit, List.getElem?_mapIdx, List.getElem?_set]
  by_cases hi : z.level = i
  · obtain rfl := hi
    rw [hl, Option.map_some, if_pos rfl, if_pos rfl, if_pos (List.getElem?_eq_some_iff.1 hl).1]
  · rw [if_neg hi]
    cases t.levels[i]? with
    | none => rfl
    | some k => rw [Option.map_some, if_neg (Ne.symm hi)]

/-! ## Greatest common divisors -/

variable {a b g : ResiduePoly}

/-- A greatest common divisor modulo the levels below `v`: a common divisor that is a combination,
zero if both polynomials reduce to zero, and otherwise one or monic in `v`. -/
structure IsGcdBelow (t : ResidueTower) (v : ℕ) (g a b : ResiduePoly) : Prop where
  eq_zero : t.reduceBelow (t.countBelow v) a = 0 → t.reduceBelow (t.countBelow v) b = 0 → g = 0
  monic : t.reduceBelow (t.countBelow v) a ≠ 0 ∨ t.reduceBelow (t.countBelow v) b ≠ 0 →
    g = 1 ∨ IsMonicIn v g
  dvd_left : ∃ q, Normal t.prime (insert v t.vars) (v + 1) q ∧
    toMv t.prime a - toMv t.prime q * toMv t.prime g ∈ t.idealBelow v
  dvd_right : ∃ q, Normal t.prime (insert v t.vars) (v + 1) q ∧
    toMv t.prime b - toMv t.prime q * toMv t.prime g ∈ t.idealBelow v
  combination : ∃ u w, Normal t.prime (insert v t.vars) (v + 1) u ∧
    Normal t.prime (insert v t.vars) (v + 1) w ∧ toMv t.prime g -
      (toMv t.prime u * toMv t.prime a + toMv t.prime w * toMv t.prime b) ∈ t.idealBelow v

theorem IsGcdBelow.symm (h : t.IsGcdBelow v g a b) : t.IsGcdBelow v g b a := by
  obtain ⟨u, w, hu, hw, hg⟩ := h.combination
  exact ⟨fun hb ha => h.eq_zero ha hb, fun hn => h.monic hn.symm, h.dvd_right, h.dvd_left, w, u, hw,
    hu, by rwa [add_comm]⟩

section

variable (ht : t.Valid) (ha : Normal t.prime (insert v t.vars) (v + 1) a)
  (hb : Normal t.prime (insert v t.vars) (v + 1) b)

include ht ha hb

/-- What Euclid's algorithm returns on the reduced polynomials. -/
theorem isGcdBelow_of_gcdLoop {steps : ℕ}
    (hsteps : (t.reduceBelow (t.countBelow v) b).degreeIn v < steps)
    (hg : gcdLoop t.prime v (t.reduceBelow (t.countBelow v)) t.inverse steps
      (t.reduceBelow (t.countBelow v) a) (t.reduceBelow (t.countBelow v) b) = .ok g) :
    t.IsGcdBelow v g a b := by
  have := nontrivial_quotient ht v
  have E := exact_reduceBelow ht v
  have hinv := inverts_point ht v (stepLimit + t.levels.length)
  obtain ⟨hra, hea⟩ := E.coeffs a ha
  obtain ⟨hrb, heb⟩ := E.coeffs b hb
  rw [← reduceBelow_eq_reduceCoeffs] at hra hea hrb heb
  obtain ⟨hzero, hmonic, hgcd⟩ := E.gcdLoop_spec hinv steps hra hrb hsteps hg
  rw [hea, heb] at hgcd
  obtain ⟨-, ⟨u, hu, rfl⟩, -, ⟨w, hw, rfl⟩, hcomb⟩ := hgcd.combination
  refine ⟨hzero, hmonic, exists_mul_of_values hgcd.dvd_left, exists_mul_of_values hgcd.dvd_right,
    u, w, hu, hw, ?_⟩
  simp only [eval_point, ← map_mul, ← map_add] at hcomb
  exact Ideal.Quotient.eq.1 hcomb

theorem isGcdBelow_gcd (hg : t.gcd v a b = .ok g) : t.IsGcdBelow v g a b := by
  rw [gcd] at hg
  simp only [← reduceBelow_eq_reduceCoeffs] at hg
  split_ifs at hg
  · exact (isGcdBelow_of_gcdLoop ht hb ha (by omega) hg).symm
  · exact isGcdBelow_of_gcdLoop ht ha hb (by omega) hg

/-- The coefficients are reduced. -/
theorem coeffsSatisfy_gcd (hg : t.gcd v a b = .ok g) :
    Normal t.prime (insert v t.vars) (v + 1) g ∧ CoeffsSatisfy t.Reduced v g := by
  have E := exact_reduceBelow ht v
  have hinv := inverts_point ht v (stepLimit + t.levels.length)
  have hQa := coeffsSatisfy_reduceCoeffs E.toSendsTo ha
  have hQb := coeffsSatisfy_reduceCoeffs E.toSendsTo hb
  rw [gcd] at hg
  split_ifs at hg
  · exact E.coeffsSatisfy_gcdLoop E.toSendsTo hinv _ (E.coeffs b hb).1 hQb (E.coeffs a ha).1 hQa hg
  · exact E.coeffsSatisfy_gcdLoop E.toSendsTo hinv _ (E.coeffs a ha).1 hQa (E.coeffs b hb).1 hQb hg

/-- What keeps a greatest common divisor from being found. -/
theorem gcd_eq_error {z : ZeroDivisor} (hz : t.gcd v a b = .error z) :
    ∃ l, t.levels[z.level]? = some l ∧ l.var < v ∧ t.IsProperFactor l z.factor := by
  have E := exact_reduceBelow ht v
  have hn := (t.countBelow_le_length v).trans (Nat.le_add_left _ stepLimit)
  have hinv := inverts_point ht v (stepLimit + t.levels.length)
  have hQa := coeffsSatisfy_reduceCoeffs E.toSendsTo ha
  have hQb := coeffsSatisfy_reduceCoeffs E.toSendsTo hb
  have hfails : Fails t.prime (insert v t.vars) v t.Reduced t.inverse z := by
    rw [gcd] at hz
    split_ifs at hz
    · exact E.gcdLoop_eq_error E.toSendsTo hinv _ (E.coeffs b hb).1 hQb (E.coeffs a ha).1 hQa hz
    · exact E.gcdLoop_eq_error E.toSendsTo hinv _ (E.coeffs a ha).1 hQa (E.coeffs b hb).1 hQb hz
  obtain ⟨e, he, -, hre, hez⟩ := hfails
  exact inverseUpTo_eq_error ht _ hn ((normal_insert_iff le_rfl).1 he) hre hez

end

end ResidueTower

end Cylindrical

end
