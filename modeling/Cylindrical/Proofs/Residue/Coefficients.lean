import Mathlib
import Cylindrical.Proofs.Residue.Separation

/-!
# Coefficients in Euclid's algorithm over a prime field

When the coefficients are reduced by a function whose results have some property, so have the
coefficients of remainders and of greatest common divisors, and what could not be inverted was an
element with the property.
-/

namespace Cylindrical

namespace ResiduePoly

variable {p v : ℕ} {S : Set ℕ} {Q : ResiduePoly → Prop}

/-! ## Properties of coefficients -/

/-- All coefficients in `v` have a property. -/
def CoeffsSatisfy (Q : ResiduePoly → Prop) (v : ℕ) (a : ResiduePoly) : Prop := ∀ c ∈ a.coeffsIn v, Q c

/-- A function sends the normal forms with variables below `v` to such with a property, which zero and
one have. -/
structure SendsTo (p : ℕ) (S : Set ℕ) (v : ℕ) (Q : ResiduePoly → Prop)
    (f : ResiduePoly → ResiduePoly) : Prop where
  zero : Q 0
  one : Q 1
  sends : ∀ c, Normal p S v c → Normal p S v (f c) ∧ Q (f c)

theorem coeffsIn_of_normal {a : ResiduePoly} (ha : Normal p S v a) : a.coeffsIn v = [a] := by
  cases a with
  | const a => rfl
  | node w cs => rw [coeffsIn, if_neg (normal_node.1 ha).1.1.ne]

theorem coeffsSatisfy_of_normal {a : ResiduePoly} (ha : Normal p S v a) (h : Q a) :
    CoeffsSatisfy Q v a := by
  rw [CoeffsSatisfy, coeffsIn_of_normal ha]
  intro c hc
  rwa [List.mem_singleton.1 hc]

/-- An element in which `v` does not occur is its own coefficient. -/
theorem CoeffsSatisfy.of_mainVar?_ne {a : ResiduePoly} (h : CoeffsSatisfy Q v a)
    (ha : Normal p S (v + 1) a) (hv : a.mainVar? ≠ some v) : Q a := by
  refine h a ?_
  rw [coeffsIn_of_normal (ha.of_mainVar?_ne hv)]
  exact .head _

theorem coeffsSatisfy_zero (h : Q 0) : CoeffsSatisfy Q v 0 := by
  intro c hc
  rwa [List.mem_singleton.1 hc]

theorem coeffsSatisfy_one (h : Q 1) : CoeffsSatisfy Q v 1 := by
  intro c hc
  rwa [List.mem_singleton.1 hc]

theorem coeffsSatisfy_ofCoeffs (h0 : Q 0) {cs : List ResiduePoly} (hcs : NormalList p S v cs)
    (h : ∀ c ∈ cs, Q c) : CoeffsSatisfy Q v (ofCoeffs v cs) := by
  have hmem : ∀ c ∈ trim cs, Normal p S v c ∧ Q c := fun c hc =>
    ⟨normalList_iff.1 hcs c (mem_of_mem_trim hc), h c (mem_of_mem_trim hc)⟩
  rw [ofCoeffs]
  generalize trim cs = ds at hmem
  rcases ds with _ | ⟨c, _ | ⟨d, ds⟩⟩
  · exact coeffsSatisfy_zero h0
  · exact coeffsSatisfy_of_normal (hmem c (.head _)).1 (hmem c (.head _)).2
  · rw [CoeffsSatisfy, coeffsIn, if_pos rfl]
    exact fun e he => (hmem e he).2

theorem coeffsSatisfy_reduceCoeffs {f : ResiduePoly → ResiduePoly} (hf : SendsTo p S v Q f)
    {a : ResiduePoly} (ha : Normal p S (v + 1) a) : CoeffsSatisfy Q v (reduceCoeffs v f a) := by
  have hother : a.mainVar? ≠ some v → CoeffsSatisfy Q v (f a) := fun h =>
    coeffsSatisfy_of_normal (hf.sends a (ha.of_mainVar?_ne h)).1 (hf.sends a (ha.of_mainVar?_ne h)).2
  cases a with
  | const a => exact hother (by simp [mainVar?])
  | node w cs =>
    rw [reduceCoeffs]
    split_ifs with hw
    · subst hw
      have hmem : ∀ d ∈ cs.map f, Normal p S w d ∧ Q d := fun d hd => by
        obtain ⟨c, hc, rfl⟩ := List.mem_map.1 hd
        exact hf.sends c (normalList_iff.1 (normal_node.1 ha).2.2 c hc)
      exact coeffsSatisfy_ofCoeffs hf.zero (normalList_iff.2 fun d hd => (hmem d hd).1)
        fun d hd => (hmem d hd).2
    · exact hother (by simpa [mainVar?] using hw)

/-! ## Leading coefficients -/

theorem leadingCoeffIn_of_mainVar?_ne {a : ResiduePoly} (h : a.mainVar? ≠ some v) :
    a.leadingCoeffIn v = a := by
  cases a with
  | const a => rfl
  | node w cs => exact if_neg fun he => h (by rw [mainVar?, he])

theorem normal_leadingCoeffIn {a : ResiduePoly} (ha : Normal p S (v + 1) a)
    (h0 : a.isZero = false) :
    Normal p S v (a.leadingCoeffIn v) ∧ (a.leadingCoeffIn v).isZero = false := by
  by_cases h : a.mainVar? = some v
  · exact leadingCoeffIn_spec ha h
  · rw [leadingCoeffIn_of_mainVar?_ne h]
    exact ⟨ha.of_mainVar?_ne h, h0⟩

theorem CoeffsSatisfy.leadingCoeffIn {a : ResiduePoly} (h : CoeffsSatisfy Q v a)
    (ha : Normal p S (v + 1) a) : Q (a.leadingCoeffIn v) := by
  by_cases hv : a.mainVar? = some v
  · obtain ⟨cs, hcs, -, hlast⟩ := exists_getLast?_of_mainVar? ha hv
    refine h _ ?_
    rw [hcs, coeffsIn, if_pos rfl, ← hcs]
    exact List.mem_of_getLast? hlast
  · rw [leadingCoeffIn_of_mainVar?_ne hv]
    exact h.of_mainVar?_ne ha hv

/-- An element with the property that could not be inverted. -/
def Fails (p : ℕ) (S : Set ℕ) (v : ℕ) (Q : ResiduePoly → Prop)
    (inverse : ResiduePoly → Except ZeroDivisor ResiduePoly) (z : ZeroDivisor) : Prop :=
  ∃ e, Normal p S v e ∧ e.isZero = false ∧ Q e ∧ inverse e = .error z

namespace Division

variable {K : Type*} [CommRing K] {x : ℕ → K} {reduce : ResiduePoly → ResiduePoly}
  (D : Division x p (Below S) (Normal p S) v reduce)

include D

/-! ## Remainders -/

/-- A remainder by a monic polynomial has a smaller degree. -/
theorem degreeIn_divRemMonic_lt {a d : ResiduePoly} (ha : Normal p S (v + 1) a)
    (hd : Normal p S (v + 1) d) (hmonic : d.leadingCoeffIn v = 1) (hdv : d.degreeIn v ≠ 0) :
    (a.divRemMonic p v reduce d).2.degreeIn v < d.degreeIn v := by
  have hra := (D.coeffs a ha).1
  have hr := degreeIn_divideMonic_lt D.prime D.mem.2 (fun c hc => (D.reduce c hc).1) hd hmonic hdv
    (stepLimit + ((reduceCoeffs v reduce a).degreeIn v + 1)) 0 hra (by omega)
  rw [divRemMonic]
  generalize divideMonic p v reduce d (stepLimit + ((reduceCoeffs v reduce a).degreeIn v + 1)) 0
    (reduceCoeffs v reduce a) = s at hr
  obtain ⟨q, r⟩ := s
  simp only
  rw [if_neg hdv]
  exact hr

variable (hs : SendsTo p S v Q reduce)

include hs

theorem coeffsSatisfy_divideMonic {d : ResiduePoly} (hd : Normal p S (v + 1) d) (steps : ℕ)
    (q : ResiduePoly) {r : ResiduePoly} (hr : Normal p S (v + 1) r) (h : CoeffsSatisfy Q v r) :
    CoeffsSatisfy Q v (divideMonic p v reduce d steps q r).2 := by
  induction steps generalizing q r with
  | zero => exact h
  | succ steps ih =>
    rw [divideMonic]
    split_ifs with hc
    · rw [Bool.and_eq_true, decide_eq_true_eq] at hc
      have hlead := (leadingCoeffIn_spec hr hc.1).1.mono (Nat.le_succ v)
      have hsub := normal_sub D.prime.pos hr (normal_shift D.prime.pos D.mem.2
        (r.degreeIn v - d.degreeIn v) (normal_mul D.prime hlead hd))
      exact ih _ (D.coeffs _ hsub).1 (coeffsSatisfy_reduceCoeffs hs hsub)
    · exact h

theorem coeffsSatisfy_divRemMonic {a d : ResiduePoly} (ha : Normal p S (v + 1) a)
    (hd : Normal p S (v + 1) d) : CoeffsSatisfy Q v (a.divRemMonic p v reduce d).2 := by
  have hra := (D.coeffs a ha).1
  have hr := D.coeffsSatisfy_divideMonic hs hd
    (stepLimit + ((reduceCoeffs v reduce a).degreeIn v + 1)) 0 hra (coeffsSatisfy_reduceCoeffs hs ha)
  rw [divRemMonic]
  generalize divideMonic p v reduce d (stepLimit + ((reduceCoeffs v reduce a).degreeIn v + 1)) 0
    (reduceCoeffs v reduce a) = s at hr
  obtain ⟨q, r⟩ := s
  simp only
  split_ifs
  · exact coeffsSatisfy_zero hs.zero
  · exact hr

/-! ## Greatest common divisors -/

variable {inverse : ResiduePoly → Except ZeroDivisor ResiduePoly} (hinv : Inverts x (Normal p S v) inverse)

include hinv

theorem coeffsSatisfy_monicModulo {a b : ResiduePoly} (ha : Normal p S (v + 1) a)
    (h0 : a.isZero = false) (h : CoeffsSatisfy Q v a)
    (hb : monicModulo p v reduce inverse a = .ok b) :
    Normal p S (v + 1) b ∧ CoeffsSatisfy Q v b := by
  rw [monicModulo] at hb
  split_ifs at hb
  · obtain rfl := Except.ok.inj hb
    exact ⟨ha, h⟩
  · obtain ⟨c, hc, hb⟩ := bind_eq_ok hb
    obtain rfl := Except.ok.inj hb
    obtain ⟨hl, hz⟩ := normal_leadingCoeffIn ha h0
    have hmul := normal_mul D.prime ha ((hinv _ c hl hz hc).1.mono (Nat.le_succ v))
    exact ⟨(D.coeffs _ hmul).1, coeffsSatisfy_reduceCoeffs hs hmul⟩

omit hinv D hs in
theorem monicModulo_eq_error {a : ResiduePoly} {z : ZeroDivisor} (ha : Normal p S (v + 1) a)
    (h0 : a.isZero = false) (h : CoeffsSatisfy Q v a)
    (hz : monicModulo p v reduce inverse a = .error z) : Fails p S v Q inverse z := by
  rw [monicModulo] at hz
  split_ifs at hz
  rcases bind_eq_error hz with hz | ⟨c, -, hz⟩
  · obtain ⟨hl, hl0⟩ := normal_leadingCoeffIn ha h0
    exact ⟨_, hl, hl0, h.leadingCoeffIn ha, hz⟩
  · cases hz

theorem coeffsSatisfy_gcdLoop (steps : ℕ) {a b g : ResiduePoly} (ha : Normal p S (v + 1) a)
    (hQa : CoeffsSatisfy Q v a) (hb : Normal p S (v + 1) b) (hQb : CoeffsSatisfy Q v b)
    (hg : gcdLoop p v reduce inverse steps a b = .ok g) :
    Normal p S (v + 1) g ∧ CoeffsSatisfy Q v g := by
  induction steps generalizing a b with
  | zero =>
    obtain rfl := Except.ok.inj hg
    exact ⟨ha, hQa⟩
  | succ steps ih =>
    rw [gcdLoop] at hg
    split_ifs at hg with h₁ h₂ h₃
    · obtain rfl := Except.ok.inj hg
      exact ⟨ha, hQa⟩
    · exact D.coeffsSatisfy_monicModulo hs hinv ha (by simpa using h₂) hQa hg
    · obtain ⟨c, hc, hg⟩ := bind_eq_ok hg
      obtain ⟨hcn, hQc⟩ := D.coeffsSatisfy_monicModulo hs hinv hb (by simpa using h₁) hQb hc
      exact ih hcn hQc (D.divRemMonic_spec ha hcn).1.2 (D.coeffsSatisfy_divRemMonic hs ha hcn) hg
    · obtain ⟨c, -, hg⟩ := bind_eq_ok hg
      obtain rfl := Except.ok.inj hg
      exact ⟨normal_one D.prime.one_lt, coeffsSatisfy_one hs.one⟩

/-- Where no greatest common divisor is found, a coefficient has no inverse. -/
theorem gcdLoop_eq_error (steps : ℕ) {a b : ResiduePoly} {z : ZeroDivisor}
    (ha : Normal p S (v + 1) a) (hQa : CoeffsSatisfy Q v a) (hb : Normal p S (v + 1) b)
    (hQb : CoeffsSatisfy Q v b) (hz : gcdLoop p v reduce inverse steps a b = .error z) :
    Fails p S v Q inverse z := by
  induction steps generalizing a b with
  | zero => cases hz
  | succ steps ih =>
    rw [gcdLoop] at hz
    split_ifs at hz with h₁ h₂ h₃
    · exact monicModulo_eq_error ha (by simpa using h₂) hQa hz
    · have hb0 : b.isZero = false := by simpa using h₁
      rcases bind_eq_error hz with hz | ⟨c, hc, hz⟩
      · exact monicModulo_eq_error hb hb0 hQb hz
      · obtain ⟨hcn, hQc⟩ := D.coeffsSatisfy_monicModulo hs hinv hb hb0 hQb hc
        exact ih hcn hQc (D.divRemMonic_spec ha hcn).1.2 (D.coeffsSatisfy_divRemMonic hs ha hcn) hz
    · rcases bind_eq_error hz with hz | ⟨c, -, hz⟩
      · exact ⟨b, hb.of_mainVar?_ne h₃, by simpa using h₁, hQb.of_mainVar?_ne hb h₃, hz⟩
      · cases hz

end Division

end ResiduePoly

end Cylindrical
