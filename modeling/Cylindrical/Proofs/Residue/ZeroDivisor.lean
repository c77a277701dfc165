import Mathlib
import Cylindrical.Proofs.Residue.Coefficients

/-!
# Euclid's algorithm with zero divisors

Where coefficients are reduced to representatives that differ in value, Euclid's algorithm in `v` knows
the degrees of its remainders although the ring has zero divisors: a remainder that has been
divided by its leading coefficient is monic.  So a greatest common divisor that is found is monic, one or
zero, and where an inverse is missing either a coefficient has none, or the last remainder is a monic common
divisor.
-/

namespace Cylindrical

/-! ## Greatest common divisors in a subring -/

/-- A common divisor that is a combination of two elements, with quotients and cofactors from a
subring. -/
structure IsGcdIn {K : Type*} [CommRing K] (A : Subring K) (g a b : K) : Prop where
  dvd_left : ∃ q ∈ A, a = q * g
  dvd_right : ∃ q ∈ A, b = q * g
  combination : ∃ u ∈ A, ∃ w ∈ A, g = u * a + w * b

namespace IsGcdIn

variable {K : Type*} [CommRing K] {A : Subring K} {g a b : K}

theorem symm (h : IsGcdIn A g a b) : IsGcdIn A g b a := by
  obtain ⟨u, hu, w, hw, hg⟩ := h.combination
  exact ⟨h.dvd_right, h.dvd_left, w, hw, u, hu, by rw [hg, add_comm]⟩

/-- The greatest common divisor with zero. -/
theorem of_zero {k l : K} (hk : k ∈ A) (hl : l ∈ A) (hg : g = a * k) (ha : a = g * l) :
    IsGcdIn A g a 0 :=
  ⟨⟨l, hl, ha.trans (mul_comm g l)⟩, ⟨0, zero_mem A, (zero_mul g).symm⟩, k, hk, 0, zero_mem A, by
    rw [hg, mul_comm a k, mul_zero, add_zero]⟩

/-- The greatest common divisor with an element that has an inverse. -/
theorem of_isUnit {k : K} (ha : a ∈ A) (hb : b ∈ A) (hk : k ∈ A) (h : b * k = 1) :
    IsGcdIn A 1 a b :=
  ⟨⟨a, ha, (mul_one a).symm⟩, ⟨b, hb, (mul_one b).symm⟩, 0, zero_mem A, k, hk, by
    rw [zero_mul, zero_add, mul_comm, h]⟩

/-- One step of Euclid's algorithm: `b` is replaced by an associate `c`, and `a` by a remainder. -/
theorem divide {c q r k l : K} (hq : q ∈ A) (hk : k ∈ A) (hl : l ∈ A) (hc : c = b * k)
    (hb : b = c * l) (ha : a = q * c + r) (h : IsGcdIn A g c r) : IsGcdIn A g a b := by
  obtain ⟨⟨m, hm, hcm⟩, ⟨n, hn, hrn⟩, u, hu, w, hw, hg⟩ := h
  refine ⟨⟨q * m + n, add_mem (mul_mem hq hm) hn, ?_⟩, ⟨l * m, mul_mem hl hm, ?_⟩, w, hw,
    (u - w * q) * k, mul_mem (sub_mem hu (mul_mem hw hq)) hk, ?_⟩
  · rw [ha, hrn]
    linear_combination q * hcm
  · rw [hb]
    linear_combination l * hcm
  · linear_combination hg - w * ha + (u - w * q) * hc

end IsGcdIn

namespace ResiduePoly

variable {K : Type*} [CommRing K] {x : ℕ → K} {p v : ℕ} {S : Set ℕ} {Q : ResiduePoly → Prop}

/-! ## Values of normal forms -/

/-- The values of the normal forms with variables from `S` below `b`. -/
def values (hp : p.Prime) (hx : (p : K) = 0) (x : ℕ → K) (S : Set ℕ) (b : ℕ) : Subring K where
  carrier := {k | ∃ a, Normal p S b a ∧ eval x a = k}
  zero_mem' := ⟨0, normal_zero hp.pos, eval_zero x⟩
  one_mem' := ⟨1, normal_one hp.one_lt, eval_one x⟩
  add_mem' := by
    rintro - - ⟨a, ha, rfl⟩ ⟨b, hb, rfl⟩
    exact ⟨_, normal_add hp.pos ha hb, eval_add hx a b⟩
  mul_mem' := by
    rintro - - ⟨a, ha, rfl⟩ ⟨b, hb, rfl⟩
    exact ⟨_, normal_mul hp ha hb, eval_mul hx a b⟩
  neg_mem' := by
    rintro - ⟨a, ha, rfl⟩
    exact ⟨_, normal_neg hp.pos ha, eval_neg hx ha⟩

/-- Monic in `v`, which is the main variable. -/
structure IsMonicIn (v : ℕ) (a : ResiduePoly) : Prop where
  mainVar? : a.mainVar? = some v
  leadingCoeffIn : a.leadingCoeffIn v = 1

theorem IsMonicIn.degreeIn_ne_zero {n : ℕ} {a : ResiduePoly} (h : IsMonicIn v a)
    (ha : Normal p S n a) : a.degreeIn v ≠ 0 := (degreeIn_ne_zero_iff ha).2 h.mainVar?

theorem eq_zero_of_isZero {a : ResiduePoly} (h : a.isZero = true) : a = 0 := by
  cases a with
  | const a =>
    rw [isZero, beq_iff_eq] at h
    rw [h]
    rfl
  | node w cs => simp [isZero] at h

theorem reduceCoeffs_of_mainVar?_ne {f : ResiduePoly → ResiduePoly} {a : ResiduePoly}
    (h : a.mainVar? ≠ some v) : reduceCoeffs v f a = f a := by
  cases a with
  | const a => rfl
  | node w cs => exact if_neg fun he => h (by rw [ResiduePoly.mainVar?, he])

theorem mainVar?_ne_of_normal {a : ResiduePoly} (ha : Normal p S v a) : a.mainVar? ≠ some v := by
  cases a with
  | const a => simp [ResiduePoly.mainVar?]
  | node w cs => exact fun h => (normal_node.1 ha).1.1.ne (Option.some.inj h)

/-! ## Exact division -/

/-- Division with coefficients that are reduced to representatives which differ in value. -/
structure Exact (x : ℕ → K) (p : ℕ) (S : Set ℕ) (v : ℕ) (Q : ResiduePoly → Prop)
    (f : ResiduePoly → ResiduePoly) : Prop extends Division x p (Below S) (Normal p S) v f,
    SendsTo p S v Q f where
  separates : Separates x p v Q

/-- What division by the leading coefficient gives: an associate that is monic or one. -/
structure Scaled (x : ℕ → K) (p : ℕ) (S : Set ℕ) (v : ℕ) (A : Subring K) (a b : ResiduePoly) :
    Prop where
  normal : Normal p S (v + 1) b
  monic : b = 1 ∨ IsMonicIn v b
  degreeIn : b.degreeIn v = a.degreeIn v
  associate : ∃ k ∈ A, ∃ l ∈ A, eval x b = eval x a * k ∧ eval x a = eval x b * l

theorem Scaled.isMonicIn {A : Subring K} {a b : ResiduePoly} (h : Scaled x p S v A a b)
    (ha : Normal p S (v + 1) a) (hv : a.mainVar? = some v) : IsMonicIn v b := by
  refine h.monic.resolve_left fun h1 => (degreeIn_ne_zero_iff ha).2 hv ?_
  rw [← h.degreeIn, h1]
  rfl

/-- A monic common divisor with reduced coefficients, of degree at most `d`. -/
structure IsMonicGcd (x : ℕ → K) (p : ℕ) (S : Set ℕ) (v : ℕ) (Q : ResiduePoly → Prop) (A : Subring K)
    (d : ℕ) (g a b : ResiduePoly) : Prop where
  normal : Normal p S (v + 1) g
  monic : IsMonicIn v g
  degreeIn_le : g.degreeIn v ≤ d
  coeffs : CoeffsSatisfy Q v g
  gcd : IsGcdIn A (eval x g) (eval x a) (eval x b)

namespace Exact

variable {reduce : ResiduePoly → ResiduePoly} (E : Exact x p S v Q reduce)
  {inverse : ResiduePoly → Except ZeroDivisor ResiduePoly} (hinv : Inverts x (Normal p S v) inverse)

include E

theorem reduce_eq_one {c : ResiduePoly} (hc : Normal p S v c) (h : eval x c = 1) : reduce c = 1 :=
  E.separates.eq (E.sends c hc).1 (normal_one E.prime.one_lt) (E.sends c hc).2 E.one
    ((E.reduce c hc).2.trans (h.trans (eval_one x).symm))

variable [Nontrivial K]

/-- The product with an inverse of the leading coefficient is monic, or one if `v` does not
occur. -/
theorem scaled_monic {a c : ResiduePoly} (ha : Normal p S (v + 1) a) (hc : Normal p S v c)
    (hone : eval x (a.leadingCoeffIn v) * eval x c = 1) :
    (reduceCoeffs v reduce (ResiduePoly.mul p a c) = 1 ∨
        IsMonicIn v (reduceCoeffs v reduce (ResiduePoly.mul p a c))) ∧
      (reduceCoeffs v reduce (ResiduePoly.mul p a c)).degreeIn v = a.degreeIn v := by
  by_cases h : a.mainVar? = some v
  · have hmul := normal_mul E.prime ha (hc.mono (Nat.le_succ v))
    obtain ⟨⟨hm, hdeg⟩, hlead⟩ := leadingCoeffIn_mul (x := x) E.cast ha h hc
      (by rw [hone]; exact one_ne_zero)
    have hred := E.reduce_eq_one (leadingCoeffIn_spec hmul hm).1 (hlead.trans hone)
    obtain ⟨hmain, hlead', hdeg'⟩ := reduceCoeffs_spec E.forms (f := reduce) hmul hm (by rw [hred]; rfl)
    exact ⟨.inr ⟨hmain, hlead'.trans hred⟩, hdeg'.trans hdeg⟩
  · rw [leadingCoeffIn_of_mainVar?_ne h] at hone
    have han := ha.of_mainVar?_ne h
    have hmul := normal_mul E.prime han hc
    have hred := E.reduce_eq_one hmul ((eval_mul E.cast a c).trans hone)
    rw [reduceCoeffs_of_mainVar?_ne (mainVar?_ne_of_normal hmul), hred, degreeIn_of_normal han]
    exact ⟨.inl rfl, rfl⟩

include hinv

theorem scaled {a c : ResiduePoly} (ha : Normal p S (v + 1) a) (h0 : a.isZero = false)
    (hc : inverse (a.leadingCoeffIn v) = .ok c) :
    Scaled x p S v (values E.prime E.cast x S (v + 1)) a
      (reduceCoeffs v reduce (ResiduePoly.mul p a c)) := by
  obtain ⟨hl, hz⟩ := normal_leadingCoeffIn ha h0
  obtain ⟨hcn, hone⟩ := hinv _ c hl hz hc
  obtain ⟨hmonic, hdeg⟩ := E.scaled_monic ha hcn hone
  obtain ⟨hn, he⟩ := E.coeffs _ (normal_mul E.prime ha (hcn.mono (Nat.le_succ v)))
  refine ⟨hn, hmonic, hdeg, _, ⟨c, hcn.mono (Nat.le_succ v), rfl⟩, _,
    ⟨_, hl.mono (Nat.le_succ v), rfl⟩, he.trans (eval_mul E.cast a c), ?_⟩
  rw [he, eval_mul E.cast]
  linear_combination -(eval x a) * hone

theorem monicModulo_scaled {a b : ResiduePoly} (ha : Normal p S (v + 1) a) (h0 : a.isZero = false)
    (hb : monicModulo p v reduce inverse a = .ok b) :
    Scaled x p S v (values E.prime E.cast x S (v + 1)) a b := by
  rw [monicModulo] at hb
  split_ifs at hb with h1
  · obtain rfl := Except.ok.inj hb
    have h1 := eq_one_of_beq h1
    refine ⟨ha, ?_, rfl, 1, one_mem _, 1, one_mem _, (mul_one _).symm, (mul_one _).symm⟩
    by_cases h : a.mainVar? = some v
    · exact .inr ⟨h, h1⟩
    · exact .inl (by rwa [leadingCoeffIn_of_mainVar?_ne h] at h1)
  · obtain ⟨c, hc, hb⟩ := bind_eq_ok hb
    obtain rfl := Except.ok.inj hb
    exact E.scaled hinv ha h0 hc

/-! ## Greatest common divisors -/

/-- A greatest common divisor is monic or one, or zero if both elements are; the degree of the
second element goes down, so the steps suffice. -/
theorem gcdLoop_spec (steps : ℕ) {a b g : ResiduePoly} (ha : Normal p S (v + 1) a)
    (hb : Normal p S (v + 1) b) (hsteps : b.degreeIn v < steps)
    (hg : gcdLoop p v reduce inverse steps a b = .ok g) :
    (a = 0 → b = 0 → g = 0) ∧ (a ≠ 0 ∨ b ≠ 0 → g = 1 ∨ IsMonicIn v g) ∧
      IsGcdIn (values E.prime E.cast x S (v + 1)) (eval x g) (eval x a) (eval x b) := by
  induction steps generalizing a b with
  | zero => omega
  | succ steps ih =>
    rw [gcdLoop] at hg
    split_ifs at hg with h₁ h₂ h₃
    · obtain rfl := Except.ok.inj hg
      obtain rfl := eq_zero_of_isZero h₁
      obtain rfl := eq_zero_of_isZero h₂
      rw [eval_zero]
      exact ⟨fun _ _ => rfl, fun h => by simp at h,
        .of_zero (zero_mem _) (zero_mem _) (mul_zero _).symm (mul_zero _).symm⟩
    · obtain rfl := eq_zero_of_isZero h₁
      have h := E.monicModulo_scaled hinv ha (by simpa using h₂) hg
      obtain ⟨k, hk, l, hl, hgk, hal⟩ := h.associate
      rw [eval_zero]
      exact ⟨fun h0 => absurd (by rw [h0]; rfl) h₂, fun _ => h.monic, .of_zero hk hl hgk hal⟩
    · obtain ⟨c, hc, hg⟩ := bind_eq_ok hg
      have h := E.monicModulo_scaled hinv hb (by simpa using h₁) hc
      have hmonic := h.isMonicIn hb h₃
      have hcdeg := hmonic.degreeIn_ne_zero h.normal
      obtain ⟨⟨hqn, hrn⟩, hdiv⟩ := E.divRemMonic_spec ha h.normal
      have hlt := E.degreeIn_divRemMonic_lt ha h.normal hmonic.leadingCoeffIn hcdeg
      have hc0 : c ≠ 0 := by
        rintro rfl
        exact hcdeg rfl
      obtain ⟨-, hgm, hgcd⟩ := ih h.normal hrn (by have := h.degreeIn; omega) hg
      obtain ⟨k, hk, l, hl, hck, hbl⟩ := h.associate
      exact ⟨fun _ h0 => absurd (by rw [h0]; rfl) h₁, fun _ => hgm (.inl hc0),
        hgcd.divide ⟨_, hqn, rfl⟩ hk hl hck hbl (hdiv hcdeg)⟩
    · obtain ⟨c, hc, hg⟩ := bind_eq_ok hg
      obtain rfl := Except.ok.inj hg
      obtain ⟨hcn, hone⟩ := hinv b c (hb.of_mainVar?_ne h₃) (by simpa using h₁) hc
      rw [eval_one]
      exact ⟨fun _ h0 => absurd (by rw [h0]; rfl) h₁, fun _ => .inl rfl,
        .of_isUnit ⟨a, ha, rfl⟩ ⟨b, hb, rfl⟩ ⟨c, hcn.mono (Nat.le_succ v), rfl⟩ hone⟩

/-! ## Missing inverses -/

/-- Where an inverse is missing, a coefficient has none or the last remainder is a greatest common
divisor.  All remainders but the first two are divided by monic ones, so the degree of the second
one goes down and the steps suffice. -/
theorem invertLoop_eq_error {reduceTop : ResiduePoly → ResiduePoly} {level d : ℕ} (steps : ℕ)
    {r₀ s₀ r₁ s₁ : ResiduePoly} {z : ZeroDivisor} (hr₀ : Normal p S (v + 1) r₀)
    (hr₁ : Normal p S (v + 1) r₁) (hQ : CoeffsSatisfy Q v r₁) (hd : r₁.degreeIn v ≤ d)
    (h : r₁.mainVar? = some v ∨ IsMonicIn v r₀ ∧ r₀.degreeIn v ≤ d ∧ CoeffsSatisfy Q v r₀)
    (hsteps : r₁.degreeIn v < steps)
    (hz : invertLoop p v level reduce reduceTop inverse steps r₀ s₀ r₁ s₁ = .error z) :
    (z.level = level ∧
        IsMonicGcd x p S v Q (values E.prime E.cast x S (v + 1)) d z.factor r₀ r₁) ∨
      Fails p S v Q inverse z := by
  induction steps generalizing r₀ s₀ r₁ s₁ with
  | zero => omega
  | succ steps ih =>
    rw [invertLoop] at hz
    split_ifs at hz with hv h0
    -- the remainder has the variable and is made monic, is zero, or is a coefficient
    · have hr0 : r₁.isZero = false := by
        obtain ⟨cs, rfl⟩ := exists_node_of_mainVar? hv
        rfl
      rcases bind_eq_error hz with hz | ⟨k, hk, hz⟩
      · obtain ⟨hl, hlz⟩ := leadingCoeffIn_spec hr₁ hv
        exact .inr ⟨_, hl, hlz, hQ.leadingCoeffIn hr₁, hz⟩
      · have hs := E.scaled hinv hr₁ hr0 hk
        have hmonic := hs.isMonicIn hr₁ hv
        have hdeg := hmonic.degreeIn_ne_zero hs.normal
        have hkn := (hinv _ k (leadingCoeffIn_spec hr₁ hv).1 (leadingCoeffIn_spec hr₁ hv).2 hk).1
        have hQs := coeffsSatisfy_reduceCoeffs E.toSendsTo
          (normal_mul E.prime hr₁ (hkn.mono (Nat.le_succ v)))
        obtain ⟨⟨hqn, hrn⟩, hdiv⟩ := E.divRemMonic_spec hr₀ hs.normal
        have hlt := E.degreeIn_divRemMonic_lt hr₀ hs.normal hmonic.leadingCoeffIn hdeg
        have hsd := hs.degreeIn
        rcases ih hs.normal hrn (E.coeffsSatisfy_divRemMonic E.toSendsTo hr₀ hs.normal) (by omega)
          (.inr ⟨hmonic, by omega, hQs⟩) (by omega) hz with ⟨hlevel, hg⟩ | hfails
        · obtain ⟨k', hk', l, hl, hck, hbl⟩ := hs.associate
          exact .inl ⟨hlevel, hg.normal, hg.monic, hg.degreeIn_le, hg.coeffs,
            hg.gcd.divide ⟨_, hqn, rfl⟩ hk' hl hck hbl (hdiv hdeg)⟩
        · exact .inr hfails
    · obtain rfl := Except.error.inj hz
      obtain rfl := eq_zero_of_isZero h0
      obtain ⟨hmonic, hle, hQ₀⟩ := h.resolve_left hv
      refine .inl ⟨rfl, hr₀, hmonic, hle, hQ₀, ?_⟩
      rw [eval_zero]
      exact .of_zero (one_mem _) (one_mem _) (mul_one _).symm (mul_one _).symm
    · rcases bind_eq_error hz with hz | ⟨k, -, hz⟩
      · exact .inr ⟨r₁, hr₁.of_mainVar?_ne hv, by simpa using h0, hQ.of_mainVar?_ne hr₁ hv, hz⟩
      · cases hz

end Exact

end ResiduePoly

end Cylindrical
