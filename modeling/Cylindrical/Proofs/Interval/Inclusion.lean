import Mathlib
import Cylindrical.Proofs.Interval
import Cylindrical.Proofs.Poly.Operations

/-!
# Enclosures of smaller boxes

The ends of a product of two intervals are products of their numbers, and those of a power are powers
(`isProduct_ends`, `isPower_ends`), so smaller intervals have smaller products and powers.  Rounding
outward keeps inclusions as well.  Over a box that has an interval for every variable a polynomial has
an enclosure, and over a smaller box it has a smaller one (`evalPoly?_inclusion`).
-/

noncomputable section

namespace Cylindrical

namespace Interval

variable {s t s' t' : Interval}

namespace Encloses

theorem lo_of_le (h : s.lo ≤ s.hi) : s.Encloses (s.lo : ℝ) := ⟨le_rfl, Rat.cast_le.2 h⟩

theorem hi_of_le (h : s.lo ≤ s.hi) : s.Encloses (s.hi : ℝ) := ⟨Rat.cast_le.2 h, le_rfl⟩

end Encloses

/-! ## The ends of products and powers -/

theorem minRat_of {P : ℚ → Prop} {x y : ℚ} (hx : P x) (hy : P y) : P (minRat x y) := by
  unfold minRat
  split_ifs
  · exact hy
  · exact hx

theorem maxRat_of {P : ℚ → Prop} {x y : ℚ} (hx : P x) (hy : P y) : P (maxRat x y) := by
  unfold maxRat
  split_ifs
  · exact hy
  · exact hx

/-- The product of a number of each interval. -/
def IsProduct (s t : Interval) (r : ℚ) : Prop :=
  ∃ x y : ℚ, s.Encloses x ∧ t.Encloses y ∧ r = x * y

theorem isProduct_ends (hs : s.lo ≤ s.hi) (ht : t.lo ≤ t.hi) :
    IsProduct s t (s * t).lo ∧ IsProduct s t (s * t).hi := by
  have h₁ : IsProduct s t (s.lo * t.lo) := ⟨_, _, .lo_of_le hs, .lo_of_le ht, rfl⟩
  have h₂ : IsProduct s t (s.lo * t.hi) := ⟨_, _, .lo_of_le hs, .hi_of_le ht, rfl⟩
  have h₃ : IsProduct s t (s.hi * t.lo) := ⟨_, _, .hi_of_le hs, .lo_of_le ht, rfl⟩
  have h₄ : IsProduct s t (s.hi * t.hi) := ⟨_, _, .hi_of_le hs, .hi_of_le ht, rfl⟩
  exact ⟨minRat_of (minRat_of (minRat_of h₁ h₂) h₃) h₄, maxRat_of (maxRat_of (maxRat_of h₁ h₂) h₃) h₄⟩

/-- The power of a number of the interval. -/
def IsPower (s : Interval) (k : ℕ) (r : ℚ) : Prop := ∃ x : ℚ, s.Encloses x ∧ r = x ^ k

theorem isPower_ends (hs : s.lo ≤ s.hi) {k : ℕ} (hk : k < Nat.pow 2 31) :
    IsPower s k (s.pow k).lo ∧ IsPower s k (s.pow k).hi := by
  have hlo : IsPower s k (s.lo ^ k) := ⟨_, .lo_of_le hs, rfl⟩
  have hhi : IsPower s k (s.hi ^ k) := ⟨_, .hi_of_le hs, rfl⟩
  have hpow : ∀ r : ℚ, signedPow r k = r ^ k := fun r => signedPow_of_lt r hk
  unfold Interval.pow
  simp only [hpow]
  split_ifs with h0 hodd hzero hle
  · have hone : IsPower s k (point 1).lo := ⟨_, .lo_of_le hs, by rw [h0, pow_zero]; rfl⟩
    exact ⟨hone, hone⟩
  · exact ⟨hlo, hhi⟩
  · -- zero lies between the ends
    simp only [Bool.and_eq_true, decide_eq_true_eq] at hzero
    refine ⟨⟨0, ⟨?_, ?_⟩, (zero_pow h0).symm⟩, maxRat_of hlo hhi⟩
    · exact Rat.cast_le.2 hzero.1.le
    · exact Rat.cast_le.2 hzero.2.le
  · exact ⟨hlo, hhi⟩
  · exact ⟨hhi, hlo⟩

/-! ## Inclusion -/

/-- An interval with its ends in order, inside the other one. -/
structure Within (s t : Interval) : Prop where
  lo_le : t.lo ≤ s.lo
  ordered : s.lo ≤ s.hi
  le_hi : s.hi ≤ t.hi

namespace Within

theorem refl (h : s.lo ≤ s.hi) : s.Within s := ⟨le_rfl, h, le_rfl⟩

theorem encloses (h : s.Within t) {x : ℝ} (hx : s.Encloses x) : t.Encloses x :=
  hx.mono h.lo_le h.le_hi

theorem of_encloses (h : s.lo ≤ s.hi) (hlo : t.Encloses s.lo) (hhi : t.Encloses s.hi) : s.Within t :=
  ⟨Rat.cast_le.1 hlo.1, h, Rat.cast_le.1 hhi.2⟩

theorem add (hs : s.Within s') (ht : t.Within t') : (s + t).Within (s' + t') :=
  ⟨add_le_add hs.lo_le ht.lo_le, add_le_add hs.ordered ht.ordered, add_le_add hs.le_hi ht.le_hi⟩

theorem mul (hs : s.Within s') (ht : t.Within t') : (s * t).Within (s' * t') := by
  obtain ⟨⟨x, y, hx, hy, hlo⟩, ⟨z, w, hz, hw, hhi⟩⟩ := isProduct_ends hs.ordered ht.ordered
  refine of_encloses (hx.mul hy).le ?_ ?_
  · rw [hlo, Rat.cast_mul]
    exact (hs.encloses hx).mul (ht.encloses hy)
  · rw [hhi, Rat.cast_mul]
    exact (hs.encloses hz).mul (ht.encloses hw)

theorem pow (hs : s.Within s') {k : ℕ} (hk : k < Nat.pow 2 31) : (s.pow k).Within (s'.pow k) := by
  obtain ⟨⟨x, hx, hlo⟩, ⟨y, hy, hhi⟩⟩ := isPower_ends hs.ordered hk
  refine of_encloses (hx.pow hk).le ?_ ?_
  · rw [hlo, Rat.cast_pow]
    exact (hs.encloses hx).pow hk
  · rw [hhi, Rat.cast_pow]
    exact (hs.encloses hy).pow hk

theorem roundOutward (hs : s.Within t) (prec : ℕ) :
    (s.roundOutward prec).Within (t.roundOutward prec) := by
  have hpos := twoPow_pos prec
  refine ⟨?_, ((Encloses.lo_of_le hs.ordered).roundOutward prec).le, ?_⟩
  · show (t.lo * twoPow prec).floor / twoPow prec ≤ (s.lo * twoPow prec).floor / twoPow prec
    have hfloor := Rat.floor_monotone (mul_le_mul_of_nonneg_right hs.lo_le hpos.le)
    exact div_le_div_of_nonneg_right (Int.cast_le.2 hfloor) hpos.le
  · show (s.hi * twoPow prec).ceil / twoPow prec ≤ (t.hi * twoPow prec).ceil / twoPow prec
    have hceil : (s.hi * twoPow prec).ceil ≤ (t.hi * twoPow prec).ceil :=
      Rat.ceil_le_iff.2 ((mul_le_mul_of_nonneg_right hs.le_hi hpos.le).trans Rat.le_ceil)
    exact div_le_div_of_nonneg_right (Int.cast_le.2 hceil) hpos.le

end Within

/-! ## Values of polynomials -/

section

variable {box box' : ℕ → Option Interval} (prec : ℕ)

/-- The variable has an interval in the box, and in the smaller box one inside it. -/
def NarrowedAt (box' box : ℕ → Option Interval) (v : ℕ) : Prop :=
  ∃ s s', box v = some s ∧ box' v = some s' ∧ s'.Within s

theorem evalPowers?_within (c : ℚ) {ps : List (ℕ × ℕ)} (hps : ∀ p ∈ ps, p.2 < Nat.pow 2 31)
    (hbox : ∀ p ∈ ps, NarrowedAt box' box p.1) :
    ∃ s s', evalPowers? prec box c ps = some s ∧ evalPowers? prec box' c ps = some s' ∧
      s'.Within s := by
  induction ps with
  | nil => exact ⟨_, _, rfl, rfl, .refl le_rfl⟩
  | cons p ps ih =>
    obtain ⟨x, x', hx, hx', hxx⟩ := hbox p (.head _)
    obtain ⟨t, t', ht, ht', htt⟩ :=
      ih (fun q hq => hps q (.tail _ hq)) (fun q hq => hbox q (.tail _ hq))
    refine ⟨(t * x.pow p.2).roundOutward prec, (t' * x'.pow p.2).roundOutward prec, ?_, ?_, ?_⟩
    · simp only [evalPowers?, ht, hx]
    · simp only [evalPowers?, ht', hx']
    · exact (htt.mul (hxx.pow (hps p (.head _)))).roundOutward prec

theorem evalTerms?_within {ts : List Term}
    (hts : ∀ t ∈ ts, ∀ p ∈ t.monomial.powers, p.2 < Nat.pow 2 31)
    (hbox : ∀ t ∈ ts, ∀ p ∈ t.monomial.powers, NarrowedAt box' box p.1) {acc acc' : Interval}
    (hacc : acc'.Within acc) :
    ∃ s s', evalTerms? prec box acc ts = some s ∧ evalTerms? prec box' acc' ts = some s' ∧
      s'.Within s := by
  induction ts generalizing acc acc' with
  | nil => exact ⟨_, _, rfl, rfl, hacc⟩
  | cons t ts ih =>
    obtain ⟨u, u', hu, hu', huu⟩ :=
      evalPowers?_within prec t.coeff (hts t (.head _)) (hbox t (.head _))
    simp only [evalTerms?, hu, hu']
    exact ih (fun r hr => hts r (.tail _ hr)) (fun r hr => hbox r (.tail _ hr)) (hacc.add huu)

theorem evalPoly?_within {p : Poly} (hp : p.ShortPowers)
    (hbox : ∀ v ∈ p.toMv.vars, NarrowedAt box' box v) :
    ∃ s s', evalPoly? prec box p = some s ∧ evalPoly? prec box' p = some s' ∧ s'.Within s := by
  obtain ⟨s, s', hs, hs', hss⟩ := evalTerms?_within prec
    (fun t ht q hq => (Poly.snd_le_degreeOf ht hq).trans_lt (hp q.1))
    (fun t ht q hq => hbox q.1 (Poly.fst_mem_vars ht hq)) (.refl (le_refl (point 0).lo))
  refine ⟨s.roundOutward prec, s'.roundOutward prec, ?_, ?_, hss.roundOutward prec⟩
  · rw [evalPoly?, hs, Option.map_some]
  · rw [evalPoly?, hs', Option.map_some]

/-! ## Boxes -/

/-- A box: the ends of its intervals are in order. -/
def IsBox (box : ℕ → Option Interval) : Prop := ∀ v s, box v = some s → s.lo ≤ s.hi

/-- The numbers of the variables lie in the intervals of a box. -/
def InBox (box : ℕ → Option Interval) (x : ℕ → ℝ) : Prop := ∀ v s, box v = some s → s.Encloses (x v)

/-- The intervals of a box inside the other one. -/
def Shrinks (box' box : ℕ → Option Interval) : Prop :=
  ∀ v s, box v = some s → ∃ s', box' v = some s' ∧ s.lo ≤ s'.lo ∧ s'.hi ≤ s.hi

/-- Over a box with an interval for every variable a polynomial is enclosed, and over a smaller box
the enclosure is no larger. -/
theorem evalPoly?_inclusion {p : Poly} (hp : p.ShortPowers) (hbox : IsBox box)
    (hvars : ∀ v ∈ p.toMv.vars, (box v).isSome) :
    ∃ s, evalPoly? prec box p = some s ∧ s.lo ≤ s.hi ∧
      (∀ x, InBox box x → s.Encloses (p.value x)) ∧
      ∀ box', IsBox box' → Shrinks box' box →
        ∃ s', evalPoly? prec box' p = some s' ∧ s.lo ≤ s'.lo ∧ s'.hi ≤ s.hi := by
  have hself : ∀ v ∈ p.toMv.vars, NarrowedAt box box v := fun v hv => by
    obtain ⟨s, hs⟩ := Option.isSome_iff_exists.1 (hvars v hv)
    exact ⟨s, s, hs, hs, .refl (hbox v s hs)⟩
  obtain ⟨s, _, hs, _, hss⟩ := evalPoly?_within prec hp hself
  refine ⟨s, hs, hss.lo_le.trans (hss.ordered.trans hss.le_hi), fun x hx =>
    encloses_of_evalPoly? hx hp hs, fun box' hbox' hshrinks => ?_⟩
  have hnarrowed : ∀ v ∈ p.toMv.vars, NarrowedAt box' box v := fun v hv => by
    obtain ⟨s, hs⟩ := Option.isSome_iff_exists.1 (hvars v hv)
    obtain ⟨s', hs', hlo, hhi⟩ := hshrinks v s hs
    exact ⟨s, s', hs, hs', hlo, hbox' v s' hs', hhi⟩
  obtain ⟨t, t', ht, ht', htt⟩ := evalPoly?_within prec hp hnarrowed
  obtain rfl := Option.some.inj (hs.symm.trans ht)
  exact ⟨t', ht', htt.lo_le, htt.le_hi⟩

/-- The box `[-1, 2] × [-1/3, 1]`. -/
def wideBox : ℕ → Option Interval
  | 0 => some ⟨-1, 2⟩
  | 1 => some ⟨-1 / 3, 1⟩
  | _ => none

/-- The box `[-1/2, 1] × [0, 1]`. -/
def narrowBox : ℕ → Option Interval
  | 0 => some ⟨-1 / 2, 1⟩
  | 1 => some ⟨0, 1⟩
  | _ => none

theorem isBox_of_two (hbox : ∀ v < 2, ∀ s ∈ box v, s.lo ≤ s.hi) (hnone : ∀ v, box (v + 2) = none) :
    IsBox box := by
  intro v s h
  by_cases hv : v < 2
  · exact hbox v hv s h
  · obtain ⟨k, rfl⟩ := Nat.exists_eq_add_of_le' (not_lt.1 hv)
    cases (hnone k).symm.trans h

theorem isBox_wideBox : IsBox wideBox := isBox_of_two (by decide +kernel) fun _ => rfl

theorem isBox_narrowBox : IsBox narrowBox := isBox_of_two (by decide +kernel) fun _ => rfl

theorem narrowBox_shrinks : Shrinks narrowBox wideBox := by
  rintro (_ | _ | v) s h
  · obtain rfl := Option.some.inj h
    exact ⟨_, rfl, by decide +kernel, by decide +kernel⟩
  · obtain rfl := Option.some.inj h
    exact ⟨_, rfl, by decide +kernel, by decide +kernel⟩
  · cases h

theorem evalPoly?_inclusion_product :
    (.ofPower 0 2 * .ofPower 1 1 - .const 2 : Poly).ShortPowers ∧ IsBox wideBox ∧
      (∀ v ∈ (.ofPower 0 2 * .ofPower 1 1 - .const 2 : Poly).toMv.vars, (wideBox v).isSome) ∧
      (∀ x, InBox wideBox x → (-7 / 2 : ℝ) ≤ x 0 ^ 2 * x 1 - 2 ∧ x 0 ^ 2 * x 1 - 2 ≤ 2) ∧
      ∃ s, evalPoly? 2 narrowBox (.ofPower 0 2 * .ofPower 1 1 - .const 2) = some s ∧
        -7 / 2 ≤ s.lo ∧ s.hi ≤ 2 := by
  have hp : (.ofPower 0 2 * .ofPower 1 1 - .const 2 : Poly).ShortPowers :=
    .of_totalDegree (by decide +kernel)
  have hvars : ∀ v ∈ (.ofPower 0 2 * .ofPower 1 1 - .const 2 : Poly).toMv.vars,
      (wideBox v).isSome := fun v hv => by
    have hlist : ∀ v ∈ (.ofPower 0 2 * .ofPower 1 1 - .const 2 : Poly).vars,
        (wideBox v).isSome := by decide +kernel
    exact hlist v (Poly.mem_vars_iff.2 hv)
  obtain ⟨s, hs, -, hencloses, hinclusion⟩ := evalPoly?_inclusion 2 hp isBox_wideBox hvars
  have hcomputed : evalPoly? 2 wideBox (.ofPower 0 2 * .ofPower 1 1 - .const 2) =
      some ⟨-7 / 2, 2⟩ := by decide +kernel
  obtain rfl := Option.some.inj (hs.symm.trans hcomputed)
  refine ⟨hp, isBox_wideBox, hvars, fun x hx => ?_,
    hinclusion narrowBox isBox_narrowBox narrowBox_shrinks⟩
  have hvalue := hencloses x hx
  simpa [Encloses] using hvalue

/-- From `2 ^ 31` on an exponent is read as a negative one. -/
theorem not_evalPoly?_encloses_half :
    ¬∃ s, evalPoly? 4 (fun _ => some (point (1 / 2))) (.ofPower 0 4294967295) = some s ∧
      s.Encloses ((Poly.ofPower 0 4294967295).value fun _ => (1 / 2 : ℝ)) := by
  rintro ⟨s, hs, hlo, -⟩
  have hcomputed : evalPoly? 4 (fun _ => some (point (1 / 2))) (.ofPower 0 4294967295) =
      some (point 2) := by
    decide +kernel
  obtain rfl := Option.some.inj (hs.symm.trans hcomputed)
  have htwo : ((point 2).lo : ℝ) = 2 := by norm_num [point]
  rw [Poly.value_ofPower, htwo] at hlo
  have hone : (1 / 2 : ℝ) ^ 4294967295 ≤ 1 := pow_le_one₀ (by norm_num) (by norm_num)
  exact absurd (hlo.trans hone) (by norm_num)

end

end Interval

end Cylindrical

end
