import Mathlib
import Cylindrical.Sample.ZeroTest
import Cylindrical.Proofs.Focus
import Cylindrical.Proofs.Residue.TowerPlace
import Cylindrical.Proofs.Sample.Levels

/-!
# Changes of a point under test

A test refines coordinates and replaces defining polynomials.  Both keep a point valid and exact, and the
values of polynomials in which the known coordinates have been put (`SamplePoint.Evolves`).  A new
defining polynomial vanishes at the point and its fiber divides the one before.
-/

noncomputable section

namespace Cylindrical

namespace SamplePoint

variable {s t u : SamplePoint} {x : ℕ → ℝ}

/-- A point that is valid for a real point, and at which computations are exact. -/
structure Sound (s : SamplePoint) (x : ℕ → ℝ) : Prop where
  denotes : s.Denotes x
  exact : s.Exact

/-- What a point may become in a test. -/
structure Evolves (x : ℕ → ℝ) (s t : SamplePoint) : Prop where
  sound : t.Sound x
  value : ∀ p : Poly, (t.substituteKnown p).value x = (s.substituteKnown p).value x
  fiber_dvd : ∀ v a, s.get? v = some (.algebraic a) →
    ∃ b, t.get? v = some (.algebraic b) ∧ b.defining.fiber v x ∣ a.defining.fiber v x

theorem Evolves.refl (h : s.Sound x) : Evolves x s s :=
  ⟨h, fun _ => rfl, fun _ a ha => ⟨a, ha, dvd_rfl⟩⟩

theorem Evolves.trans (h : Evolves x s t) (h' : Evolves x t u) : Evolves x s u := by
  refine ⟨h'.sound, fun p => (h'.value p).trans (h.value p), fun v a ha => ?_⟩
  obtain ⟨b, hb, hba⟩ := h.fiber_dvd v a ha
  obtain ⟨c, hc, hcb⟩ := h'.fiber_dvd v b hb
  exact ⟨c, hc, hcb.trans hba⟩

/-! ## Refinement -/

theorem Fits.congr {p : Poly} (hp : s.Fits p) (h : t.relations = s.relations) : t.Fits p := by
  intro v r hr
  obtain ⟨d, hd, hcd⟩ := exists_of_relations h hr
  rw [substituteFrom_congr h]
  cases d with
  | rational q =>
    obtain rfl := Sum.inl.inj hcd
    exact hp v r hd
  | algebraic a => cases hcd

theorem exists_algebraic_of_relations (h : t.relations = s.relations) {v : ℕ}
    {a : AlgebraicNumber} (ha : t.get? v = some (.algebraic a)) :
    ∃ b, s.get? v = some (.algebraic b) ∧ a.defining = b.defining := by
  obtain ⟨d, hd, hcd⟩ := exists_of_relations h ha
  cases d with
  | rational q => cases hcd
  | algebraic b => exact ⟨b, hd, Sum.inr.inj hcd⟩

theorem Exact.congr (hs : s.Exact) (h : t.relations = s.relations) : t.Exact where
  size_le := (size_of_relations h).le.trans hs.size_le
  fits v a ha := by
    obtain ⟨b, hb, hab⟩ := exists_algebraic_of_relations h ha
    rw [hab]
    exact (hs.fits v b hb).congr h
  degree_le v a ha := by
    obtain ⟨b, hb, hab⟩ := exists_algebraic_of_relations h ha
    rw [hab]
    exact hs.degree_le v b hb

theorem Evolves.of_refines (hs : s.Sound x) (h : t.Refines s) : Evolves x s t where
  sound := ⟨hs.denotes.of_refines h, hs.exact.congr h.1⟩
  value p := by rw [substituteKnown_eq, substituteKnown_eq, substituteFrom_congr h.1]
  fiber_dvd v a ha := by
    obtain ⟨b, hb, hba⟩ := h.exists_algebraic ha
    exact ⟨b, hb, by rw [hba.1]⟩

end SamplePoint

namespace Coordinate

theorem known_congr {v : ℕ} {c d : Coordinate} (h : c.relation = d.relation) :
    c.Known v ↔ d.Known v := by
  cases c <;> cases d <;> simp_all [relation, Known]

end Coordinate

namespace Tower

variable {s t : SamplePoint} {x : ℕ → ℝ} {l : TowerLevel} {a : AlgebraicNumber}

/-- A level stays one when the point is refined. -/
theorem LevelOver.of_refines (hl : LevelOver s x l a) (h : t.Refines s) :
    ∃ b, LevelOver t x l b := by
  obtain ⟨c, hc, hac⟩ := SamplePoint.exists_of_relations h.1.symm hl.get?
  cases c with
  | rational r => cases hac
  | algebraic b =>
    have hab : a.defining = b.defining := Sum.inr.inj hac
    refine ⟨b, ⟨hc, fun hk => hl.not_known ((Coordinate.known_congr hac).2 hk), hl.monic,
      fun w hw d hd hk => ?_, hab ▸ hl.degree_le⟩, hl.value_eq_zero, hab ▸ hl.fiber⟩
    obtain ⟨e, he, hde⟩ := SamplePoint.exists_of_relations h.1 hd
    exact hl.vars_not_known w hw e he ((Coordinate.known_congr hde).1 hk)

/-- A new defining polynomial for the coordinate of a level. -/
structure Redefines (s : SamplePoint) (x : ℕ → ℝ) (l : TowerLevel) (d : Poly) : Prop where
  vars_le : ∀ w ∈ d.toMv.vars, w ≤ l.var
  vars_not_known : ∀ w ∈ d.toMv.vars, ∀ c, s.get? w = some c → ¬c.Known w
  value_eq_zero : d.value x = 0
  fiber_dvd : d.fiber l.var x ∣ l.defining.fiber l.var x
  degree_le : d.degreeOf l.var ≤ l.defining.degreeOf l.var

theorem Redefines.of_refines {d : Poly} (hd : Redefines s x l d) (h : t.Refines s) :
    Redefines t x l d :=
  { hd with
    vars_not_known := fun w hw c hc hk => by
      obtain ⟨e, he, hce⟩ := SamplePoint.exists_of_relations h.1 hc
      exact hd.vars_not_known w hw e he ((Coordinate.known_congr hce).1 hk) }

/-- With a new defining polynomial the point stays valid and exact. -/
theorem evolves_redefine (hs : s.Sound x) (hl : LevelOver s x l a) {d : Poly}
    (hd : Redefines s x l d) : s.Evolves x (s.redefine l.var a d) := by
  have hrep : s.Replaceable l.var a d := ⟨hl.get?, hl.not_known, hd.vars_le, hd.vars_not_known⟩
  have htri := hs.denotes.triangular
  have hden := hs.denotes l.var _ hl.get?
  obtain ⟨c, hc, hfiber⟩ := hl.fiber
  have hcunit : IsUnit (Polynomial.C c) := (isUnit_iff_ne_zero.2 hc).map Polynomial.C
  have hold : d.fiber l.var x ∣ a.defining.fiber l.var x := by
    refine hd.fiber_dvd.trans ?_
    rw [hfiber]
    exact hcunit.mul_left_dvd.2 dvd_rfl
  have hcoord : (Coordinate.algebraic { a with defining := d }).Denotes l.var x :=
    ⟨⟨hden.1.squarefree, hden.1.lo_lt, hden.1.lt_hi, hden.1.isRoot, hden.1.unique, hden.1.leftSign⟩,
      hd.vars_le, hd.value_eq_zero, hold.trans hden.2.fiber_dvd⟩
  refine ⟨⟨hs.denotes.set hcoord, ?_, fun v b hb => ?_, fun v b hb => ?_⟩,
    SamplePoint.value_substituteKnown_redefine htri hrep hd.value_eq_zero, fun v b hb => ?_⟩
  · rw [SamplePoint.redefine, SamplePoint.size_set]
    exact hs.exact.size_le
  · by_cases hv : l.var = v
    · subst hv
      rw [SamplePoint.get?_redefine_self hl.get?] at hb
      obtain rfl := Coordinate.algebraic.inj (Option.some.inj hb)
      exact (SamplePoint.fits_of_not_known hd.vars_not_known).redefine htri hrep
    · rw [SamplePoint.get?_redefine_of_ne hv] at hb
      exact (hs.exact.fits v b hb).redefine htri hrep
  · by_cases hv : l.var = v
    · subst hv
      rw [SamplePoint.get?_redefine_self hl.get?] at hb
      obtain rfl := Coordinate.algebraic.inj (Option.some.inj hb)
      exact hd.degree_le.trans (hl.degree_le.trans (hs.exact.degree_le _ a hl.get?))
    · rw [SamplePoint.get?_redefine_of_ne hv] at hb
      exact hs.exact.degree_le v b hb
  · by_cases hv : l.var = v
    · subst hv
      obtain rfl := Coordinate.algebraic.inj (Option.some.inj (hl.get?.symm.trans hb))
      exact ⟨_, SamplePoint.get?_redefine_self hb, hold⟩
    · exact ⟨b, by rw [SamplePoint.get?_redefine_of_ne hv, hb], dvd_rfl⟩

/-- A tower at an exact point vanishes there. -/
theorem Over.vanishesAt {t : Tower} (h : t.Over s x) (he : s.Exact) : t.VanishesAt x where
  ordered := h.ordered
  closed := h.closed
  value_eq_zero l hl := by
    obtain ⟨a, ha⟩ := h.level l hl
    exact ha.value_eq_zero
  lt_reserved l hl := by
    obtain ⟨a, ha⟩ := h.level l hl
    exact (SamplePoint.lt_size_of_get? ha.get?).trans_le he.size_le

/-- The degrees of the levels at an exact point. -/
theorem Over.degreeOf_le {t : Tower} (h : t.Over s x) (he : s.Exact) :
    ∀ l ∈ t.levels, l.defining.degreeOf l.var ≤ Nat.pow 2 31 := fun l hl => by
  obtain ⟨a, ha⟩ := h.level l hl
  exact ha.degree_le.trans (he.degree_le _ a ha.get?)

end Tower

namespace ZeroTest

/-! ## Steps of a test -/

variable {σ τ : PointState} {u : Unit}

theorem count_eq_ok {f : Stats → Stats} (h : count f σ = .ok u τ) : τ.point = σ.point := by
  cases h
  rfl

theorem refineTo_eq_ok {vars : List ℕ} {bits : ℕ} (h : refineTo vars bits σ = .ok u τ) :
    τ.point.Refines σ.point := by
  cases h
  exact SamplePoint.refines_foldl_refineTo bits vars σ.point

theorem enclosure_eq_ok {prec : ℕ} {p : Poly} {i : Interval} (h : enclosure prec p σ = .ok i τ) :
    Interval.evalPoly? prec σ.point.span? p = some i ∧ τ = σ := by
  rw [enclosure, run_get_bind] at h
  cases hs : Interval.evalPoly? prec σ.point.span? p with
  | none =>
    rw [hs] at h
    cases h
  | some s =>
    rw [hs] at h
    obtain ⟨rfl, rfl⟩ := run_pure_eq_ok h
    exact ⟨rfl, rfl⟩

theorem replace_eq_ok {v : ℕ} {d : Poly} {a : AlgebraicNumber}
    (ha : σ.point.get? v = some (.algebraic a)) (h : replace v d σ = .ok u τ) :
    τ.point = σ.point.redefine v a d := by
  rw [replace, run_get_bind, ha] at h
  cases h
  rfl

end ZeroTest

end Cylindrical

end
