import Mathlib
import Cylindrical.Proofs.RealRoot
import Cylindrical.Proofs.Stack.Norm
import Cylindrical.Proofs.Stack.Order

/-!
# Order of roots

A comparison of coordinates that returns has found the order of the numbers that they stand for, and
returns coordinates of the same numbers (`compare_spec`).  A rational number and a root are apart
after the bisections that are allowed for, or equal.  Of two roots the order shows in disjoint
enclosures; equality is only ever concluded from a common root in both enclosures, be it of one
isolator or of the greatest common divisor of the two.  What links say about common roots decides
only whether equality is looked for, so nothing depends on it here.
-/

noncomputable section

namespace Cylindrical

/-! ## Numbers -/

namespace Coordinate

/-- The coordinate stands for the number. -/
def Gives : Coordinate → ℝ → Prop
  | rational r, ξ => ξ = r
  | algebraic a, ξ => a.Isolates ξ

variable {c : Coordinate} {ξ η : ℝ}

theorem Gives.unique (hξ : c.Gives ξ) (hη : c.Gives η) : ξ = η := by
  cases c with
  | rational r => exact Eq.trans hξ (Eq.symm hη)
  | algebraic a => exact AlgebraicNumber.Isolates.unique hη ξ hξ.lo_lt.le hξ.lt_hi.le hξ.isRoot

end Coordinate

/-! ## Enclosures -/

namespace AlgebraicNumber

variable {a : AlgebraicNumber} {ξ : ℝ}

theorem Isolates.isolatesRoot (h : a.Isolates ξ) : Univariate.IsolatesRoot a.isolator a.span ξ :=
  ⟨h.squarefree, h.lo_lt, h.lt_hi, h.isRoot, h.unique, rfl⟩

theorem Isolates.eq_of_isRoot {x : ℚ} (h : a.Isolates ξ) (hx : a.isRoot x = true) : (x : ℝ) = ξ := by
  simp only [AlgebraicNumber.isRoot, Bool.and_eq_true, decide_eq_true_eq, beq_iff_eq,
    Univariate.signAt_eq_eq_iff] at hx
  obtain ⟨⟨hlo, hhi⟩, hroot⟩ := hx
  exact h.unique x (Rat.cast_le.2 hlo.le) (Rat.cast_le.2 hhi.le)
    (Univariate.isRoot_toReal_iff.2 hroot)

theorem Isolates.isRoot_cast {x : ℚ} (h : a.Isolates x) : a.isRoot x = true := by
  simp only [AlgebraicNumber.isRoot, Bool.and_eq_true, decide_eq_true_eq, beq_iff_eq,
    Univariate.signAt_eq_eq_iff]
  exact ⟨⟨Rat.cast_lt.1 h.lo_lt, Rat.cast_lt.1 h.lt_hi⟩, Univariate.isRoot_toReal_iff.1 h.isRoot⟩

end AlgebraicNumber

theorem Univariate.exists_isRoot_of_signAt_ne {cs : List ℚ} {a b : ℚ} (hab : a ≤ b)
    (h : signAt cs a ≠ signAt cs b) : ∃ y : ℝ, a ≤ y ∧ y ≤ b ∧ (toReal cs).IsRoot y := by
  by_contra hno
  push Not at hno
  exact h (signAt_eq_of_forall_not_isRoot hab fun y hy => hno y hy.1 hy.2)

namespace Stack

open AlgebraicNumber Univariate

variable {cfg : Config} {a b : AlgebraicNumber} {ξ η : ℝ} {σ τ : StackState}

/-! ## A rational number and a root -/

/-- One round finds the order, or bisects around a number that is not the root. -/
theorem compareRational_succ_eq_ok {x : ℚ} {steps : ℕ} {r : Ordering × AlgebraicNumber}
    (ha : a.Isolates ξ) (h : compareRational x (steps + 1) a σ = .ok r τ) :
    (r.1.Compares (x : ℝ) ξ ∧ r.2 = a) ∨
      ((a.span.lo ≤ x ∧ x ≤ a.span.hi ∧ (x : ℝ) ≠ ξ) ∧
        ∃ σ', compareRational x steps a.refine σ' = .ok r τ) := by
  rw [compareRational] at h
  split_ifs at h with hlo hhi hroot
  · obtain ⟨rfl, -⟩ := run_pure_eq_ok h
    have hle : (x : ℝ) ≤ a.span.lo := Rat.cast_le.2 hlo
    exact .inl ⟨hle.trans_lt ha.lo_lt, rfl⟩
  · obtain ⟨rfl, -⟩ := run_pure_eq_ok h
    have hle : (a.span.hi : ℝ) ≤ x := Rat.cast_le.2 hhi
    exact .inl ⟨ha.lt_hi.trans_le hle, rfl⟩
  · obtain ⟨rfl, -⟩ := run_pure_eq_ok h
    exact .inl ⟨ha.eq_of_isRoot hroot, rfl⟩
  · obtain ⟨_, σ', -, h⟩ := run_bind_eq_ok h
    refine .inr ⟨⟨(not_le.1 hlo).le, (not_le.1 hhi).le, ?_⟩, σ', h⟩
    rintro rfl
    exact hroot ha.isRoot_cast

/-- The order is found if bisections make the interval narrower than the distance of the root before
the last round. -/
theorem compareRational_of_width_lt {x : ℚ} {n : ℕ} {r : Ordering × AlgebraicNumber}
    (ha : a.Isolates ξ)
    (hn : (x : ℝ) ≠ ξ → (((3 / 4) ^ n * a.span.width : ℚ) : ℝ) < |x - ξ|)
    (h : compareRational x (n + 1) a σ = .ok r τ) : r.1.Compares (x : ℝ) ξ ∧ r.2.Isolates ξ := by
  induction n generalizing a σ with
  | zero =>
    rcases compareRational_succ_eq_ok ha h with ⟨ho, hr⟩ | ⟨⟨hlo, hhi, hne⟩, -⟩
    · exact ⟨ho, hr ▸ ha⟩
    · have hlt := hn hne
      rw [pow_zero, one_mul, Interval.width, Rat.cast_sub] at hlt
      have hxlo : (a.span.lo : ℝ) ≤ x := Rat.cast_le.2 hlo
      have hxhi : (x : ℝ) ≤ a.span.hi := Rat.cast_le.2 hhi
      have hle : |x - ξ| ≤ a.span.hi - a.span.lo :=
        abs_sub_le_iff.2 ⟨by linarith [ha.lo_lt], by linarith [ha.lt_hi]⟩
      exact absurd hle (not_le.2 hlt)
  | succ n ih =>
    rcases compareRational_succ_eq_ok ha h with ⟨ho, hr⟩ | ⟨-, σ', h⟩
    · exact ⟨ho, hr ▸ ha⟩
    · refine ih ha.refine (fun hne => lt_of_le_of_lt (Rat.cast_le.2 ?_) (hn hne)) h
      rw [pow_succ, mul_assoc]
      exact mul_le_mul_of_nonneg_left ha.width_refine (by positivity)

/-- The steps that are allowed for make the interval narrower than the distance of the root, with one
to spare. -/
theorem pow_mul_width_lt {x : ℚ} {n : ℕ} (ha : a.Isolates ξ)
    (hn : separationSteps a.isolator x a.span = n + 1) (hmem : a.span.lo ≤ x ∧ x ≤ a.span.hi)
    (hne : (x : ℝ) ≠ ξ) : (((3 / 4) ^ n * a.span.width : ℚ) : ℝ) < |x - ξ| := by
  have heval : eval a.isolator x ≠ 0 := eval_ne_zero_iff.2 fun hroot =>
    hne (ha.unique x (Rat.cast_le.2 hmem.1) (Rat.cast_le.2 hmem.2) hroot)
  have hdistance := one_le_two_pow_mul_abs_sub ha.isolatesRoot heval hmem
  have hwidth := pow_separationSteps_le a.isolator x a.span (sub_nonneg.2 ha.lo_lt_hi.le)
  rw [hn, pow_succ] at hwidth
  have hpos : (0 : ℚ) < (2 ^ distanceBits a.isolator x a.span)⁻¹ := by positivity
  have hlt : (3 / 4 : ℚ) ^ n * a.span.width < (2 ^ distanceBits a.isolator x a.span)⁻¹ := by
    linarith
  refine (Rat.cast_lt.2 hlt).trans_le ?_
  push_cast
  rwa [inv_le_iff_one_le_mul₀' (by positivity)]

theorem compareRational_spec {x : ℚ} {r : Ordering × AlgebraicNumber} (ha : a.Isolates ξ)
    (h : compareRational x (separationSteps a.isolator x a.span) a σ = .ok r τ) :
    r.1.Compares (x : ℝ) ξ ∧ r.2.Isolates ξ := by
  obtain ⟨n, hn⟩ : ∃ n, separationSteps a.isolator x a.span = n + 1 :=
    Nat.exists_eq_succ_of_ne_zero (by rw [separationSteps]; positivity)
  rw [hn] at h
  by_cases hmem : a.span.lo ≤ x ∧ x ≤ a.span.hi
  · exact compareRational_of_width_lt ha (pow_mul_width_lt ha hn hmem) h
  · rcases compareRational_succ_eq_ok ha h with ⟨ho, hr⟩ | ⟨⟨hlo, hhi, -⟩, -⟩
    · exact ⟨ho, hr ▸ ha⟩
    · exact absurd ⟨hlo, hhi⟩ hmem

/-! ## Two roots -/

/-- What enclosures and a common isolator show is the order. -/
theorem shownOrder?_spec {o : Ordering} (ha : a.Isolates ξ) (hb : b.Isolates η)
    (h : shownOrder? a b = some o) : o.Compares ξ η := by
  rw [shownOrder?] at h
  split_ifs at h with hab hba hroot
  · obtain rfl := Option.some.inj h
    have hle : (a.span.hi : ℝ) ≤ b.span.lo := Rat.cast_le.2 hab
    exact (ha.lt_hi.trans_le hle).trans hb.lo_lt
  · obtain rfl := Option.some.inj h
    have hle : (b.span.hi : ℝ) ≤ a.span.lo := Rat.cast_le.2 hba
    exact (hb.lt_hi.trans_le hle).trans ha.lo_lt
  · obtain rfl := Option.some.inj h
    simp only [Bool.and_eq_true, decide_eq_true_eq, bne_iff_ne, maxRat_eq_max,
      minRat_eq_min] at hroot
    obtain ⟨hiso, hsign⟩ := hroot
    have hoverlap : max a.span.lo b.span.lo ≤ min a.span.hi b.span.hi :=
      max_le (le_min ha.lo_lt_hi.le (not_le.1 hba).le) (le_min (not_le.1 hab).le hb.lo_lt_hi.le)
    obtain ⟨y, hlo, hhi, hy⟩ := exists_isRoot_of_signAt_ne hoverlap hsign
    rw [Rat.cast_max, max_le_iff] at hlo
    rw [Rat.cast_min, le_min_iff] at hhi
    exact (ha.unique y hlo.1 hhi.1 hy).symm.trans (hb.unique y hlo.2 hhi.2 (hiso ▸ hy))

theorem locateIn_spec {spans : List Interval} {n : ℕ} {r : ℕ × AlgebraicNumber}
    (h : locateIn spans n a σ = .ok r τ) :
    r.2.Narrows a ∧ ∃ s, spans[r.1]? = some s ∧ s.lo ≤ r.2.span.lo ∧ r.2.span.hi ≤ s.hi := by
  induction n generalizing a σ with
  | zero => cases h
  | succ n ih =>
    rw [locateIn] at h
    cases hi : spans.findIdx? fun s => s.lo ≤ a.span.lo && a.span.hi ≤ s.hi with
    | some i =>
      rw [hi] at h
      obtain ⟨rfl, -⟩ := run_pure_eq_ok h
      obtain ⟨hlt, hspan, -⟩ := List.findIdx?_eq_some_iff_getElem.1 hi
      rw [Bool.and_eq_true, decide_eq_true_eq, decide_eq_true_eq] at hspan
      exact ⟨narrows_refl a, spans[i], List.getElem?_eq_getElem hlt, hspan⟩
    | none =>
      rw [hi] at h
      obtain ⟨_, σ', -, h⟩ := run_bind_eq_ok h
      obtain ⟨hnarrows, hspan⟩ := ih h
      exact ⟨hnarrows.trans (refines_refine a).2, hspan⟩

/-- If all roots of `cs` are roots of the isolator, a number with a position is a root of `cs` in the
interval there. -/
theorem locate?_spec {cs : List ℚ} {spans : List Interval} {r : Option ℕ × AlgebraicNumber}
    (ha : a.Isolates ξ) (hcs : ∀ y : ℝ, (toReal cs).IsRoot y → (toReal a.isolator).IsRoot y)
    (h : locate? cfg cs spans a σ = .ok r τ) :
    r.2.Isolates ξ ∧ ∀ i ∈ r.1, (toReal cs).IsRoot ξ ∧
      ∃ s, spans[i]? = some s ∧ ξ ∈ Set.Ioo (s.lo : ℝ) s.hi := by
  rw [locate?] at h
  split_ifs at h with hsign
  · obtain ⟨rfl, -⟩ := run_pure_eq_ok h
    exact ⟨ha, nofun⟩
  · obtain ⟨r', σ', hrun, h⟩ := run_bind_eq_ok h
    obtain ⟨rfl, -⟩ := run_pure_eq_ok h
    obtain ⟨hnarrows, s, hs, hlo, hhi⟩ := locateIn_spec hrun
    have ha' := hnarrows.isolates ξ ha
    obtain ⟨y, hylo, hyhi, hy⟩ := exists_isRoot_of_signAt_ne ha.lo_lt_hi.le hsign
    obtain rfl : y = ξ := ha.unique y hylo hyhi (hcs y hy)
    refine ⟨ha', fun i hi => ?_⟩
    obtain rfl := Option.mem_some.1 hi
    have hlo' : (s.lo : ℝ) ≤ r'.2.span.lo := Rat.cast_le.2 hlo
    have hhi' : (r'.2.span.hi : ℝ) ≤ s.hi := Rat.cast_le.2 hhi
    exact ⟨hy, s, hs, hlo'.trans_lt ha'.lo_lt, ha'.lt_hi.trans_le hhi'⟩

/-- A factor of a polynomial in one variable has coefficients of a factor. -/
theorem toPolynomial_dvd {g : Poly} {v : ℕ} {cs ds : List ℚ} (hg : g.univariate? v = some cs)
    (h : g.toMv ∣ (Poly.univariate v ds).toMv) : toPolynomial cs ∣ toPolynomial ds := by
  rw [Poly.toMv_of_univariate? hg, Poly.toMv_univariate] at h
  have hdvd := map_dvd (MvPolynomial.aeval fun _ => (Polynomial.X : Polynomial ℚ)) h
  simpa only [← Polynomial.aeval_algHom_apply, MvPolynomial.aeval_X, Polynomial.aeval_X_left_apply]
    using hdvd

/-- Two roots are found equal only if they are: both are the root of a common divisor of the isolators
in one isolating interval. -/
theorem sameRoot_spec {r : Bool × AlgebraicNumber × AlgebraicNumber} (ha : a.Isolates ξ)
    (hb : b.Isolates η) (h : sameRoot cfg a b σ = .ok r τ) :
    (r.1 = true → ξ = η) ∧ r.2.1.Isolates ξ ∧ r.2.2.Isolates η := by
  have hfalse : ∀ {σ'}, (pure (false, a, b) : StackM _) σ' = .ok r τ →
      (r.1 = true → ξ = η) ∧ r.2.1.Isolates ξ ∧ r.2.2.Isolates η := fun h => by
    obtain ⟨rfl, -⟩ := run_pure_eq_ok h
    exact ⟨nofun, ha, hb⟩
  rw [sameRoot] at h
  obtain ⟨g, σ₁, hg, h⟩ := run_bind_eq_ok h
  obtain ⟨⟨t, hg⟩, -⟩ := same_of_algebraically hg
  have hgcd := Poly.isGcd_gcd (AlgebraSystem.call_eq_ok hg)
  split_ifs at h
  · exact hfalse h
  cases hcs : g.univariate? 0 with
  | none =>
    rw [hcs] at h
    exact hfalse h
  | some cs =>
    rw [hcs, Option.getD_some] at h
    have hdvd := toPolynomial_dvd hcs hgcd.dvd_left
    have hdvd' := toPolynomial_dvd hcs hgcd.dvd_right
    have hroots : ∀ {ds : List ℚ}, toPolynomial cs ∣ toPolynomial ds →
        ∀ y : ℝ, (toReal cs).IsRoot y → (toReal ds).IsRoot y := fun hds y hy =>
      hy.dvd (Polynomial.map_dvd _ hds)
    obtain ⟨⟨i?, a'⟩, σ₂, hrun, h⟩ := run_bind_eq_ok h
    obtain ⟨ha', hi⟩ := locate?_spec ha (hroots hdvd) hrun
    cases i? with
    | none =>
      obtain ⟨rfl, -⟩ := run_pure_eq_ok h
      exact ⟨nofun, ha', hb⟩
    | some i =>
      obtain ⟨⟨j?, b'⟩, σ₃, hrun', h⟩ := run_bind_eq_ok h
      obtain ⟨rfl, -⟩ := run_pure_eq_ok h
      obtain ⟨hb', hj⟩ := locate?_spec hb (hroots hdvd') hrun'
      refine ⟨fun hij => ?_, ha', hb'⟩
      obtain ⟨hξ, s, hs, hξs⟩ := hi i rfl
      obtain ⟨hη, t, ht, hηt⟩ := hj i (of_decide_eq_true hij)
      obtain rfl := Option.some.inj (hs.symm.trans ht)
      obtain ⟨-, -, -, hunique⟩ :=
        (isolate_spec (ha.squarefree.squarefree_of_dvd hdvd)).1 s (List.mem_of_getElem? hs)
      exact hunique.unique ⟨hξs, hξ⟩ ⟨hηt, hη⟩

theorem testEquality_spec {mayEqual : Bool} {steps : ℕ}
    {r : Bool × AlgebraicNumber × AlgebraicNumber} (ha : a.Isolates ξ) (hb : b.Isolates η)
    (h : testEquality cfg mayEqual steps a b σ = .ok r τ) :
    (r.1 = true → ξ = η) ∧ r.2.1.Isolates ξ ∧ r.2.2.Isolates η := by
  rw [testEquality] at h
  split_ifs at h
  · obtain ⟨_, σ', -, h⟩ := run_bind_eq_ok h
    exact sameRoot_spec ha hb h
  · obtain ⟨rfl, -⟩ := run_pure_eq_ok h
    exact ⟨nofun, ha, hb⟩

/-- One round finds the order, or goes on with narrower enclosures of the two numbers if bisections are
left. -/
theorem compareAlgebraic_eq_ok {mayEqual : Bool} {left steps : ℕ}
    {r : Ordering × AlgebraicNumber × AlgebraicNumber} (ha : a.Isolates ξ) (hb : b.Isolates η)
    (h : compareAlgebraic cfg mayEqual left steps a b σ = .ok r τ) :
    (r.1.Compares ξ η ∧ r.2.1.Isolates ξ ∧ r.2.2.Isolates η) ∨
      ∃ a' b' σ' left', a'.Isolates ξ ∧ b'.Isolates η ∧ left = left' + 1 ∧
        compareAlgebraic cfg mayEqual left' (steps + 1) a' b' σ' = .ok r τ := by
  rw [compareAlgebraic.eq_def] at h
  cases hshown : shownOrder? a b with
  | some o =>
    rw [hshown] at h
    obtain ⟨rfl, -⟩ := run_pure_eq_ok h
    exact .inl ⟨shownOrder?_spec ha hb hshown, ha, hb⟩
  | none =>
    rw [hshown] at h
    obtain ⟨⟨same, a', b'⟩, σ', htest, h⟩ := run_bind_eq_ok h
    obtain ⟨hsame, ha', hb'⟩ := testEquality_spec ha hb htest
    cases same with
    | true =>
      obtain ⟨rfl, -⟩ := run_pure_eq_ok h
      exact .inl ⟨hsame rfl, ha', hb'⟩
    | false =>
      cases left with
      | zero => cases h
      | succ left =>
        obtain ⟨_, σ'', -, h⟩ := run_bind_eq_ok h
        split_ifs at h
        · exact .inr ⟨a'.refine, b', σ'', left, ha'.refine, hb', rfl, h⟩
        · exact .inr ⟨a', b'.refine, σ'', left, ha', hb'.refine, rfl, h⟩

theorem compareAlgebraic_spec {mayEqual : Bool} {left steps : ℕ}
    {r : Ordering × AlgebraicNumber × AlgebraicNumber} (ha : a.Isolates ξ) (hb : b.Isolates η)
    (h : compareAlgebraic cfg mayEqual left steps a b σ = .ok r τ) :
    r.1.Compares ξ η ∧ r.2.1.Isolates ξ ∧ r.2.2.Isolates η := by
  induction left generalizing steps a b σ with
  | zero =>
    rcases compareAlgebraic_eq_ok ha hb h with hr | ⟨_, _, _, _, _, _, hleft, _⟩
    · exact hr
    · cases hleft
  | succ left ih =>
    rcases compareAlgebraic_eq_ok ha hb h with hr | ⟨a', b', σ', left', ha', hb', hleft, hrun⟩
    · exact hr
    · obtain rfl := Nat.succ.inj hleft
      exact ih ha' hb' hrun

/-! ## Two coordinates -/

theorem compareZero_sub_compares (x y : ℚ) : (compareZero (x - y)).Compares (x : ℝ) y := by
  rcases lt_trichotomy x y with hlt | rfl | hgt
  · rw [compareZero_eq_lt_iff.2 (sub_neg.2 hlt)]
    exact Rat.cast_lt.2 hlt
  · rw [sub_self]
    rfl
  · rw [compareZero_eq_gt_iff.2 (sub_pos.2 hgt)]
    exact Rat.cast_lt.2 hgt

/-- Whatever links allow, a comparison that returns has found the order, and the coordinates that it
returns stand for the same numbers. -/
theorem compare_spec {mayEqual : Bool} {c d : Coordinate} {r : Ordering × Coordinate × Coordinate}
    (hc : c.Gives ξ) (hd : d.Gives η) (h : compare cfg mayEqual c d σ = .ok r τ) :
    r.1.Compares ξ η ∧ r.2.1.Gives ξ ∧ r.2.2.Gives η := by
  cases c with
  | rational x =>
    obtain rfl : ξ = x := hc
    cases d with
    | rational y =>
      obtain rfl : η = y := hd
      obtain ⟨rfl, -⟩ := run_pure_eq_ok h
      exact ⟨compareZero_sub_compares x y, rfl, rfl⟩
    | algebraic b =>
      obtain ⟨r', σ', hrun, h⟩ := run_bind_eq_ok h
      obtain ⟨rfl, -⟩ := run_pure_eq_ok h
      obtain ⟨ho, hb⟩ := compareRational_spec hd hrun
      exact ⟨ho, rfl, hb⟩
  | algebraic a =>
    cases d with
    | rational y =>
      obtain rfl : η = y := hd
      obtain ⟨r', σ', hrun, h⟩ := run_bind_eq_ok h
      obtain ⟨rfl, -⟩ := run_pure_eq_ok h
      obtain ⟨ho, ha⟩ := compareRational_spec hc hrun
      exact ⟨ho.swap, ha, rfl⟩
    | algebraic b =>
      obtain ⟨r', σ', hrun, h⟩ := run_bind_eq_ok h
      obtain ⟨rfl, -⟩ := run_pure_eq_ok h
      exact compareAlgebraic_spec hc hd hrun

end Stack

end Cylindrical

end
