import Mathlib
import Cylindrical.Residue.Tower
import Cylindrical.Proofs.Focus
import Cylindrical.Proofs.Residue.Normal

/-!
# Euclid's algorithm over a prime field

Division by a polynomial in the variable `v`, inverses and greatest common divisors, with coefficients that
are reduced and inverted by functions that keep values and yield inverses at a point.  What is
found holds at this point: zero divisors do no harm, an inverse is missing then.  All this is true of
every family of forms, with or without an order of the variables.
-/

namespace Cylindrical

namespace ResiduePoly

variable {K : Type*} [CommRing K] {x : ℕ → K} {p v : ℕ} {A : ℕ → ℕ → Prop}
  {F : ℕ → ResiduePoly → Prop}

/-! ## Leading coefficients -/

theorem ofCoeffs_of_getLast? {c : ResiduePoly} {cs : List ResiduePoly} (hlen : 2 ≤ cs.length)
    (hlast : cs.getLast? = some c) (hc : c.isZero = false) : ofCoeffs v cs = node v cs := by
  have htrim : trim cs = cs := trim_eq_self_iff.2 fun d hd => by
    obtain rfl := Option.some.inj (hlast.symm.trans hd)
    exact hc
  rw [ofCoeffs_of_two_le (htrim.symm ▸ hlen), htrim]

theorem isZero_eq_false_of_eval_ne_zero {a : ResiduePoly} (h : eval x a ≠ 0) :
    a.isZero = false := by
  cases hz : a.isZero with
  | false => rfl
  | true => exact absurd (eval_of_isZero hz) h

/-- Reducing the coefficients keeps the degree if it keeps the leading coefficient from vanishing. -/
theorem reduceCoeffs_spec (hF : Forms p A F) {n : ℕ} {f : ResiduePoly → ResiduePoly}
    {a : ResiduePoly} (ha : F n a) (h : a.mainVar? = some v)
    (hf : (f (a.leadingCoeffIn v)).isZero = false) :
    (reduceCoeffs v f a).mainVar? = some v ∧
      (reduceCoeffs v f a).leadingCoeffIn v = f (a.leadingCoeffIn v) ∧
        (reduceCoeffs v f a).degreeIn v = a.degreeIn v := by
  obtain ⟨cs, hcs, hlen, hlast⟩ := hF.exists_getLast?_of_mainVar? ha h
  generalize a.leadingCoeffIn v = c at hlast hf ⊢
  have hlast' : (cs.map f).getLast? = some (f c) := by
    rw [List.getLast?_map, hlast, Option.map_some]
  rw [hcs, reduceCoeffs, if_pos rfl, ofCoeffs_of_getLast? (by simpa using hlen) hlast' hf]
  refine ⟨rfl, ?_, ?_⟩
  · rw [leadingCoeffIn, if_pos rfl, hlast', Option.getD_some]
  · rw [degreeIn, degreeIn, if_pos rfl, if_pos rfl, List.length_map]

theorem mulColumn_eq_map (cs : List ResiduePoly) (d : ResiduePoly) :
    mulColumn p cs d = cs.map fun c => ResiduePoly.mul p c d := by
  induction cs with
  | nil => rw [mulColumn, List.map_nil]
  | cons c cs ih => rw [mulColumn, ih, List.map_cons]

theorem addList_replicate_zero (cs : List ResiduePoly) :
    addList p (List.replicate cs.length 0) cs = cs.map (ResiduePoly.add p 0) := by
  induction cs with
  | nil => rw [List.length_nil, List.replicate_zero, addList, List.map_nil]
  | cons c cs ih => rw [List.length_cons, List.replicate_succ, addList, ih, List.map_cons]

/-- A product keeps the main variable and the degree where the product of the leading coefficients is
not zero. -/
theorem leadingCoeffIn_mul {S : Set ℕ} (hp : (p : K) = 0) {n : ℕ} {a c : ResiduePoly} (ha : Normal p S n a)
    (h : a.mainVar? = some v) (hc : Normal p S v c)
    (hne : eval x (a.leadingCoeffIn v) * eval x c ≠ 0) :
    ((ResiduePoly.mul p a c).mainVar? = some v ∧
        (ResiduePoly.mul p a c).degreeIn v = a.degreeIn v) ∧
      eval x ((ResiduePoly.mul p a c).leadingCoeffIn v) =
        eval x (a.leadingCoeffIn v) * eval x c := by
  obtain ⟨cs, hcs, hlen, hlast⟩ := exists_getLast?_of_mainVar? ha h
  generalize a.leadingCoeffIn v = d at hlast hne ⊢
  subst hcs
  cases c with
  | const k =>
    rw [eval_const] at hne ⊢
    have hk : k ≠ 0 := by
      rintro rfl
      exact hne (by rw [Nat.cast_zero, mul_zero])
    have hmul : ResiduePoly.mul p (node v cs) (const k) = scale p k (node v cs) := by
      rw [ResiduePoly.mul]
      simp
    rw [hmul, scale, if_neg hk, scaleCoeffs, mainVar?, degreeIn, degreeIn, leadingCoeffIn,
      if_pos rfl, if_pos rfl, if_pos rfl, scaleCoeffsList_eq_map, List.getLast?_map, hlast,
      Option.map_some, Option.getD_some, eval_scaleCoeffs hp, List.length_map]
    exact ⟨⟨rfl, rfl⟩, rfl⟩
  | node u es =>
    have hu := (normal_node.1 hc).1.1
    have hmul : eval x (ResiduePoly.add p 0 (ResiduePoly.mul p d (node u es))) =
        eval x d * eval x (node u es) := by
      rw [eval_add hp, eval_zero, zero_add, eval_mul hp]
    have hmap := addList_replicate_zero (p := p) (mulColumn p cs (node u es))
    rw [mulColumn_eq_map, List.length_map, List.map_map] at hmap
    have hlast' : ((cs.map ((ResiduePoly.add p 0) ∘ fun c => ResiduePoly.mul p c (node u es)))).getLast?
        = some (ResiduePoly.add p 0 (ResiduePoly.mul p d (node u es))) := by
      rw [List.getLast?_map, hlast, Option.map_some, Function.comp_apply]
    rw [ResiduePoly.mul, if_neg hu.ne', if_neg hu.not_gt, mulColumn_eq_map, hmap,
      ofCoeffs_of_getLast? (by simpa using hlen) hlast'
        (isZero_eq_false_of_eval_ne_zero (by rw [hmul]; exact hne)),
      mainVar?, degreeIn, degreeIn, leadingCoeffIn, if_pos rfl, if_pos rfl, if_pos rfl, hlast',
      Option.getD_some, hmul, List.length_map]
    exact ⟨⟨rfl, rfl⟩, rfl⟩

/-! ## Products as polynomials in a new variable -/

/-- The coefficients of a polynomial of positive degree in a new variable make a node. -/
theorem ofCoeffs_of_natDegree_pos {cs : List ResiduePoly}
    (h : 0 < (evalList (fun w => Polynomial.C (x w)) Polynomial.X cs).natDegree) :
    ofCoeffs v cs = node v (trim cs) := by
  rw [← evalList_trim] at h
  have hle := natDegree_evalList_le (x := x) (trim cs)
  exact ofCoeffs_of_two_le (by omega)

/-- A product by a polynomial whose main variable is at most `v`, of positive degree in `v`. -/
theorem exists_mul_eq_node (hp : (p : K) = 0) (cs : List ResiduePoly) {c : ResiduePoly}
    (hc : ∀ u, c.mainVar? = some u → u ≤ v) :
    ∃ P : Polynomial K, P.eval (x v) = eval x c ∧
      (0 < (evalList (fun w => Polynomial.C (x w)) Polynomial.X cs * P).natDegree →
        ∃ ds, ResiduePoly.mul p (node v cs) c = node v ds ∧
          evalList (fun w => Polynomial.C (x w)) Polynomial.X ds =
            evalList (fun w => Polynomial.C (x w)) Polynomial.X cs * P) := by
  have hpX : (p : Polynomial K) = 0 := by rw [← map_natCast Polynomial.C, hp, map_zero]
  cases c with
  | const k =>
    refine ⟨(k : Polynomial K), by simp, fun h => ?_⟩
    have hk : k ≠ 0 := by
      rintro rfl
      simp at h
    refine ⟨scaleCoeffsList p k cs, ?_, evalList_scaleCoeffsList hpX k _ cs⟩
    rw [ResiduePoly.mul, scale, if_neg hk, scaleCoeffs]
    simp
  | node u es =>
    rcases eq_or_lt_of_le (hc u rfl) with rfl | hu
    · refine ⟨evalList (fun w => Polynomial.C (x w)) Polynomial.X es, ?_, fun h => ?_⟩
      · have hmap := map_evalList (x := fun w => Polynomial.C (x w))
          (Polynomial.evalRingHom (x u)) Polynomial.X es
        simpa using hmap
      · rw [← zero_add (_ * _), ← one_mul (_ * _), ← pow_zero Polynomial.X,
          ← evalList_replicate_zero Polynomial.X (cs.length + es.length - 1),
          ← evalList_mulRows hpX _ _ _ _ _ (by simp; omega)] at h ⊢
        exact ⟨_, by rw [ResiduePoly.mul, if_pos rfl, ofCoeffs_of_natDegree_pos h],
          evalList_trim _ _⟩
    · refine ⟨Polynomial.C (eval x (node u es)), Polynomial.eval_C, fun h => ?_⟩
      rw [map_eval, ← zero_add (_ * _), ← evalList_replicate_zero Polynomial.X cs.length,
        ← evalList_mulColumn hpX, ← evalList_addList hpX] at h ⊢
      exact ⟨_, by rw [ResiduePoly.mul, if_neg hu.ne', if_neg hu.not_gt, ofCoeffs_of_natDegree_pos h],
        evalList_trim _ _⟩

/-! ## Division -/

/-- A function on the forms of a class keeps their values. -/
def Keeps (x : ℕ → K) (C : ResiduePoly → Prop) (f : ResiduePoly → ResiduePoly) : Prop :=
  ∀ c, C c → C (f c) ∧ eval x (f c) = eval x c

theorem keeps_reduceCoeffs (hF : Forms p A F) (hp : 0 < p) (hv : A v (v + 1))
    {f : ResiduePoly → ResiduePoly} (hf : Keeps x (F v) f) :
    Keeps x (F (v + 1)) (reduceCoeffs v f) := by
  intro a ha
  have hother : a.mainVar? ≠ some v → F (v + 1) (f a) ∧ eval x (f a) = eval x a := fun h =>
    ⟨hF.mono hv (hf a (hF.of_mainVar?_ne ha h)).1, (hf a (hF.of_mainVar?_ne ha h)).2⟩
  cases a with
  | const a => exact hother (by simp [mainVar?])
  | node w cs =>
    rw [reduceCoeffs]
    split_ifs with hw
    · subst hw
      obtain ⟨-, -, hcs⟩ := hF.node_iff.1 ha
      refine ⟨hF.mem_ofCoeffs hp hv (List.forall_mem_map.2 fun c hc => (hf c (hcs c hc)).1), ?_⟩
      rw [eval_ofCoeffs, eval_node]
      exact evalList_map fun c hc => (hf c (hcs c hc)).2
    · exact hother (by simpa [mainVar?] using hw)

/-- What makes division by polynomials in `v` possible: coefficients are reduced by a function that
keeps their values. -/
structure Division (x : ℕ → K) (p : ℕ) (A : ℕ → ℕ → Prop) (F : ℕ → ResiduePoly → Prop) (v : ℕ)
    (reduce : ResiduePoly → ResiduePoly) : Prop where
  forms : Forms p A F
  prime : p.Prime
  cast : (p : K) = 0
  mem : A v (v + 1)
  reduce : Keeps x (F v) reduce

namespace Division

variable {reduce : ResiduePoly → ResiduePoly} (D : Division x p A F v reduce)

include D

theorem coeffs : Keeps x (F (v + 1)) (reduceCoeffs v reduce) :=
  keeps_reduceCoeffs D.forms D.prime.pos D.mem D.reduce

theorem mono {a : ResiduePoly} (ha : F v a) : F (v + 1) a := D.forms.mono D.mem ha

theorem divideMonic_spec {d : ResiduePoly} (hd : F (v + 1) d) (steps : ℕ) {q r : ResiduePoly}
    (hq : F (v + 1) q) (hr : F (v + 1) r) :
    (F (v + 1) (divideMonic p v reduce d steps q r).1 ∧
      F (v + 1) (divideMonic p v reduce d steps q r).2) ∧
      eval x (divideMonic p v reduce d steps q r).1 * eval x d +
        eval x (divideMonic p v reduce d steps q r).2 = eval x q * eval x d + eval x r := by
  induction steps generalizing q r with
  | zero => exact ⟨⟨hq, hr⟩, rfl⟩
  | succ steps ih =>
    rw [divideMonic]
    split_ifs with h
    · rw [Bool.and_eq_true, decide_eq_true_eq] at h
      have hc := D.mono (D.forms.leadingCoeffIn_spec hr h.1).1
      generalize r.leadingCoeffIn v = c at hc
      generalize r.degreeIn v - d.degreeIn v = k
      have hcd := D.forms.mem_shift D.prime.pos D.mem k (D.forms.mem_mul D.prime hc hd)
      have hs := D.coeffs _ (D.forms.mem_sub D.prime.pos hr hcd)
      obtain ⟨hn, he⟩ := ih (D.forms.mem_add D.prime.pos hq
        (D.forms.mem_shift D.prime.pos D.mem k hc)) hs.1
      refine ⟨hn, ?_⟩
      rw [he, hs.2, eval_add D.cast, D.forms.eval_sub D.cast _ hcd, eval_shift, eval_shift,
        eval_mul D.cast]
      ring
    · exact ⟨⟨hq, hr⟩, rfl⟩

theorem divRemMonic_spec {a d : ResiduePoly} (ha : F (v + 1) a) (hd : F (v + 1) d) :
    (F (v + 1) (a.divRemMonic p v reduce d).1 ∧ F (v + 1) (a.divRemMonic p v reduce d).2) ∧
      (d.degreeIn v ≠ 0 → eval x a = eval x (a.divRemMonic p v reduce d).1 * eval x d +
        eval x (a.divRemMonic p v reduce d).2) := by
  have hra := D.coeffs a ha
  rw [divRemMonic]
  generalize stepLimit + ((reduceCoeffs v reduce a).degreeIn v + 1) = steps
  obtain ⟨⟨hq, hr⟩, he⟩ := D.divideMonic_spec hd steps (D.forms.mem_zero D.prime.pos) hra.1
  generalize divideMonic p v reduce d steps 0 (reduceCoeffs v reduce a) = s at hq hr he
  obtain ⟨q, r⟩ := s
  simp only at hq hr he ⊢
  split_ifs with h
  · exact ⟨⟨(D.coeffs _ (D.forms.mem_add D.prime.pos hq hr)).1, D.forms.mem_zero D.prime.pos⟩,
      fun hn => absurd h hn⟩
  · refine ⟨⟨(D.coeffs q hq).1, hr⟩, fun _ => ?_⟩
    rw [(D.coeffs q hq).2, he, hra.2, eval_zero, zero_mul, zero_add]

omit D in
theorem divRemMonic_snd_of_degreeIn_eq_zero {a d : ResiduePoly} (h : d.degreeIn v = 0) :
    (a.divRemMonic p v reduce d).2 = 0 := by
  rw [divRemMonic]
  generalize stepLimit + ((reduceCoeffs v reduce a).degreeIn v + 1) = steps
  generalize divideMonic p v reduce d steps 0 (reduceCoeffs v reduce a) = s
  obtain ⟨q, r⟩ := s
  simp only
  rw [if_pos h]

/-- A remainder has the common zeros of dividend and divisor. -/
theorem eval_divRemMonic_snd_eq_zero {a d : ResiduePoly} (ha : F (v + 1) a) (hd : F (v + 1) d)
    (hza : eval x a = 0) (hzd : eval x d = 0) : eval x (a.divRemMonic p v reduce d).2 = 0 := by
  by_cases h : d.degreeIn v = 0
  · rw [divRemMonic_snd_of_degreeIn_eq_zero h, eval_zero]
  · have := (D.divRemMonic_spec ha hd).2 h
    rwa [hza, hzd, mul_zero, zero_add, eq_comm] at this

end Division

/-! ## Inverses and greatest common divisors -/

/-- The results of a function are inverses of the nonzero forms of a class. -/
def Inverts (x : ℕ → K) (C : ResiduePoly → Prop)
    (inverse : ResiduePoly → Except ZeroDivisor ResiduePoly) : Prop :=
  ∀ a c, C a → a.isZero = false → inverse a = .ok c → C c ∧ eval x a * eval x c = 1

/-- A remainder zero leaves no inverse to be found. -/
theorem invertLoop_zero_ne_ok {reduce reduceTop : ResiduePoly → ResiduePoly} {level : ℕ}
    {inverse : ResiduePoly → Except ZeroDivisor ResiduePoly} {steps : ℕ}
    {r₀ s₀ s₁ c : ResiduePoly} :
    invertLoop p v level reduce reduceTop inverse steps r₀ s₀ 0 s₁ ≠ .ok c := by
  cases steps with
  | zero => exact nofun
  | succ steps =>
    rw [invertLoop, if_neg (show mainVar? 0 ≠ some v from nofun), if_pos (show isZero 0 = true from rfl)]
    exact nofun

namespace Division

variable {reduce : ResiduePoly → ResiduePoly} (D : Division x p A F v reduce)
  {inverse : ResiduePoly → Except ZeroDivisor ResiduePoly} (hinv : Inverts x (F v) inverse)

include D hinv

/-- The product with the inverse of the leading coefficient. -/
theorem scaled_spec {a c : ResiduePoly} (ha : F (v + 1) a) (h : a.mainVar? = some v)
    (hc : inverse (a.leadingCoeffIn v) = .ok c) :
    F (v + 1) (reduceCoeffs v reduce (ResiduePoly.mul p a c)) ∧
      eval x (reduceCoeffs v reduce (ResiduePoly.mul p a c)) = eval x a * eval x c := by
  obtain ⟨hl, hz⟩ := D.forms.leadingCoeffIn_spec ha h
  have hred := D.coeffs _ (D.forms.mem_mul D.prime ha (D.mono (hinv _ c hl hz hc).1))
  exact ⟨hred.1, by rw [hred.2, eval_mul D.cast]⟩

/-- What keeps the cofactors: each remainder is the product of its cofactor with the element. -/
theorem invertLoop_spec {reduceTop : ResiduePoly → ResiduePoly} (htop : Keeps x (F (v + 1)) reduceTop)
    {level : ℕ} (e : K) (steps : ℕ) {r₀ s₀ r₁ s₁ c : ResiduePoly} (hr₀ : F (v + 1) r₀)
    (hs₀ : F (v + 1) s₀) (hr₁ : F (v + 1) r₁) (hs₁ : F (v + 1) s₁)
    (h₀ : eval x r₀ = eval x s₀ * e) (h₁ : eval x r₁ = eval x s₁ * e)
    (hc : invertLoop p v level reduce reduceTop inverse steps r₀ s₀ r₁ s₁ = .ok c) :
    F (v + 1) c ∧ e * eval x c = 1 := by
  induction steps generalizing r₀ s₀ r₁ s₁ with
  | zero => cases hc
  | succ steps ih =>
    rw [invertLoop] at hc
    split_ifs at hc with hv hz
    · obtain ⟨k, hk, hc⟩ := bind_eq_ok hc
      obtain ⟨hl, hlz⟩ := D.forms.leadingCoeffIn_spec hr₁ hv
      have hkn := D.mono (hinv _ k hl hlz hk).1
      obtain ⟨hn, he⟩ := D.scaled_spec hinv hr₁ hv hk
      have hs := htop _ (D.forms.mem_mul D.prime hs₁ hkn)
      obtain ⟨⟨hqn, hrn⟩, hdiv⟩ := D.divRemMonic_spec hr₀ hn
      have hmul := D.forms.mem_mul D.prime hqn hs.1
      have ht := htop _ (D.forms.mem_sub D.prime.pos hs₀ hmul)
      -- without the variable in the divisor the remainder is zero, and the loop ends
      by_cases hdeg : (reduceCoeffs v reduce (ResiduePoly.mul p r₁ k)).degreeIn v = 0
      · dsimp only at hc
        rw [divRemMonic_snd_of_degreeIn_eq_zero hdeg] at hc
        exact absurd hc invertLoop_zero_ne_ok
      have hdiv := hdiv hdeg
      refine ih hn hs.1 hrn ht.1 ?_ ?_ hc
      · rw [he, hs.2, eval_mul D.cast, h₁]
        ring
      · rw [he, h₀, h₁] at hdiv
        rw [ht.2, D.forms.eval_sub D.cast _ hmul, eval_mul D.cast, hs.2, eval_mul D.cast]
        linear_combination -hdiv
    · obtain ⟨k, hk, hc⟩ := bind_eq_ok hc
      obtain rfl := Except.ok.inj hc
      obtain ⟨hkn, hone⟩ := hinv r₁ k (D.forms.of_mainVar?_ne hr₁ hv) (by simpa using hz) hk
      have hs := htop _ (D.forms.mem_mul D.prime hs₁ (D.mono hkn))
      refine ⟨hs.1, ?_⟩
      rw [hs.2, eval_mul D.cast, ← hone, h₁]
      ring

section

variable [Nontrivial K] (hle : ∀ u, A u v → u ≤ v)

include hle

/-- The product with the inverse of the leading coefficient is still a polynomial in `v`: as one in a
new variable it is a product by a polynomial with an invertible leading coefficient. -/
theorem mainVar?_scaled {a c : ResiduePoly} (ha : F (v + 1) a) (h : a.mainVar? = some v)
    (hc : inverse (a.leadingCoeffIn v) = .ok c) :
    (reduceCoeffs v reduce (ResiduePoly.mul p a c)).mainVar? = some v := by
  obtain ⟨hl, hz⟩ := D.forms.leadingCoeffIn_spec ha h
  obtain ⟨hcn, hone⟩ := hinv _ c hl hz hc
  have hmul := D.forms.mem_mul D.prime ha (D.mono hcn)
  obtain ⟨cs, hcs, hlen, hlast⟩ := D.forms.exists_getLast?_of_mainVar? ha h
  generalize a.leadingCoeffIn v = l at hlast hone
  subst hcs
  have hl0 : eval x l ≠ 0 := fun h0 => by simp [h0] at hone
  obtain ⟨hdeg, hlead⟩ := natDegree_evalList hlast hl0
  obtain ⟨P, hP, hmulP⟩ := exists_mul_eq_node D.cast cs (v := v) (x := x) (c := c) fun u hu => by
    obtain ⟨es, rfl⟩ := exists_node_of_mainVar? hu
    exact hle u (D.forms.node_iff.1 hcn).1
  have hP0 : P ≠ 0 := by
    rintro rfl
    rw [Polynomial.eval_zero] at hP
    simp [← hP] at hone
  have hprod : eval x l * P.leadingCoeff ≠ 0 := fun h0 => hP0 (Polynomial.leadingCoeff_eq_zero.1 (by
    linear_combination eval x c * h0 - P.leadingCoeff * hone))
  have hpos : 0 < (evalList (fun w => Polynomial.C (x w)) Polynomial.X cs * P).natDegree := by
    rw [Polynomial.natDegree_mul' (by rwa [hlead]), hdeg]
    omega
  obtain ⟨ds, hds, heval⟩ := hmulP hpos
  rw [hds] at hmul ⊢
  have hreduce : evalList (fun w => Polynomial.C (x w)) Polynomial.X (ds.map reduce) =
      evalList (fun w => Polynomial.C (x w)) Polynomial.X ds := evalList_map fun d hd => by
    rw [← map_eval Polynomial.C, ← map_eval Polynomial.C,
      (D.reduce d ((D.forms.node_iff.1 hmul).2.2 d hd)).2]
  rw [← heval, ← hreduce] at hpos
  rw [reduceCoeffs, if_pos rfl, ofCoeffs_of_natDegree_pos hpos, mainVar?]

theorem monicModulo_spec {a b : ResiduePoly} (ha : F (v + 1) a) (h : a.mainVar? = some v)
    (hb : monicModulo p v reduce inverse a = .ok b) :
    (F (v + 1) b ∧ b.mainVar? = some v) ∧ (eval x a = 0 → eval x b = 0) := by
  rw [monicModulo] at hb
  split_ifs at hb with hone
  · obtain rfl := Except.ok.inj hb
    exact ⟨⟨ha, h⟩, id⟩
  · obtain ⟨c, hc, hb⟩ := bind_eq_ok hb
    obtain rfl := Except.ok.inj hb
    obtain ⟨hn, he⟩ := D.scaled_spec hinv ha h hc
    exact ⟨⟨hn, D.mainVar?_scaled hinv hle ha h hc⟩, fun hz => by rw [he, hz, zero_mul]⟩

/-- What keeps both arguments of Euclid's algorithm: the first one is a polynomial in `v`, and they
share a zero. -/
theorem gcdLoop_spec (steps : ℕ) {a b g : ResiduePoly} (ha : F (v + 1) a) (h : a.mainVar? = some v)
    (hb : F (v + 1) b) (hza : eval x a = 0) (hzb : eval x b = 0)
    (hg : gcdLoop p v reduce inverse steps a b = .ok g) : F (v + 1) g ∧ g.mainVar? = some v := by
  induction steps generalizing a b with
  | zero =>
    obtain rfl := Except.ok.inj hg
    exact ⟨ha, h⟩
  | succ steps ih =>
    rw [gcdLoop] at hg
    split_ifs at hg with h₁ h₂ h₃
    · obtain rfl := Except.ok.inj hg
      exact ⟨ha, h⟩
    · exact (D.monicModulo_spec hinv hle ha h hg).1
    · obtain ⟨c, hc, hg⟩ := bind_eq_ok hg
      obtain ⟨⟨hcn, hcv⟩, hcz⟩ := D.monicModulo_spec hinv hle hb h₃ hc
      exact ih hcn hcv (D.divRemMonic_spec ha hcn).1.2 (hcz hzb)
        (D.eval_divRemMonic_snd_eq_zero ha hcn hza (hcz hzb)) hg
    · obtain ⟨c, hc, -⟩ := bind_eq_ok hg
      have hone := (hinv b c (D.forms.of_mainVar?_ne hb h₃) (by simpa using h₁) hc).2
      rw [hzb, zero_mul] at hone
      exact absurd hone zero_ne_one

end

end Division

end ResiduePoly

end Cylindrical
