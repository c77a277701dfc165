import Mathlib
import Cylindrical.Proofs.Sample.Tower

/-!
# The tower under a polynomial

The levels under a polynomial at a valid point are monic, in the order of their variables, and contain all
variables of the polynomial and of each other.  They vanish at the point, and their fibers are those
of the defining polynomials up to a factor.
-/

noncomputable section

namespace Cylindrical

/-- What makes computations at a point exact: its variables are ordinary ones, and the exponents that
are read in putting in coordinates and in enclosing values count as they are. -/
structure SamplePoint.Exact (s : SamplePoint) : Prop where
  size_le : s.size ≤ Poly.reservedVar
  fits : ∀ v a, s.get? v = some (.algebraic a) → s.Fits a.defining
  degree_le : ∀ v a, s.get? v = some (.algebraic a) → a.defining.degreeOf v ≤ Nat.pow 2 31

namespace Tower

/-! ## One level -/

/-- A level made for the coordinate of its variable: the defining polynomial with the known coordinates
put in, made monic. -/
structure LevelOf (s : SamplePoint) (l : TowerLevel) (a : AlgebraicNumber) : Prop where
  get? : s.get? l.var = some (.algebraic a)
  not_known : ¬(Coordinate.algebraic a).Known l.var
  monic : l.Monic
  vars_not_known : ∀ w ∈ l.defining.toMv.vars, ∀ c, s.get? w = some c → ¬c.Known w
  degree_le : l.defining.degreeOf l.var ≤ a.defining.degreeOf l.var

/-- A level for the coordinate of its variable at a real point. -/
structure LevelOver (s : SamplePoint) (x : ℕ → ℝ) (l : TowerLevel) (a : AlgebraicNumber) : Prop
    extends LevelOf s l a where
  value_eq_zero : l.defining.value x = 0
  fiber : ∃ c : ℝ, c ≠ 0 ∧
    l.defining.fiber l.var x = Polynomial.C c * a.defining.fiber l.var x

theorem holdsUpTo_of_denotes {s : SamplePoint} {x : ℕ → ℝ} (hs : s.Denotes x) (n : ℕ) :
    s.HoldsUpTo n x := by
  intro v c hc _
  have h := hs v c hc
  cases c with
  | rational r => exact h
  | algebraic a => exact fun _ => h.2.value_eq_zero

/-- Below an open variable the relations still hold. -/
theorem holdsUpTo_openAt {s : SamplePoint} {x : ℕ → ℝ} (hs : s.Denotes x) {v : ℕ}
    {a : AlgebraicNumber} (ha : s.get? v = some (.algebraic a))
    (hv : ¬(Coordinate.algebraic a).Known v) : s.HoldsUpTo v (Poly.openAt v x) := by
  intro w c hc hw
  rcases Nat.lt_or_eq_of_le hw with hlt | rfl
  · have h := hs w c hc
    cases c with
    | rational r =>
      show Poly.openAt v x w = _
      rw [Poly.openAt_of_ne hlt.ne, show x w = r from h]
      rfl
    | algebraic b =>
      intro _
      have hmem : v ∉ b.defining.toMv.vars := fun hm => (h.2.vars_le v hm).not_gt hlt
      exact (Poly.fiber_of_notMem hmem x).trans (by rw [h.2.value_eq_zero, Polynomial.C_0])
  · obtain rfl := Option.some.inj (hc.symm.trans ha)
    exact fun hk => absurd hk hv

/-- The steps of a run that returns a level. -/
theorem level_eq_ok {s : SamplePoint} {v : ℕ} {l : TowerLevel} (h : level s v = .ok l) :
    ∃ a c, s.get? v = some (.algebraic a) ∧ c ≠ 0 ∧
      l = ⟨v, (s.substituteKnown a.defining).scale c⟩ ∧
      ((s.substituteKnown a.defining).scale c).MonicIn v
        ((s.substituteKnown a.defining).degreeOf v) := by
  rw [level] at h
  split at h
  · rename_i a ha
    simp only at h
    split_ifs at h with hd
    obtain rfl := Except.ok.inj h
    simp only [Bool.and_eq_true, bne_iff_ne] at hd
    exact ⟨a, _, ha, one_div_ne_zero (Poly.constantValue_ne_zero hd.1), rfl, .scale hd.1 hd.2⟩
  · cases h
  · cases h

theorem var_of_level {s : SamplePoint} {v : ℕ} {l : TowerLevel} (h : level s v = .ok l) :
    l.var = v := by
  obtain ⟨a, c, -, -, rfl, -⟩ := level_eq_ok h
  rfl

theorem levelOf_of_level {s : SamplePoint} (hs : s.Triangular) {v : ℕ} {l : TowerLevel}
    (h : level s v = .ok l) : ∃ a, LevelOf s l a := by
  obtain ⟨a, c, ha, hc, rfl, hmonic⟩ := level_eq_ok h
  have hvars : ((s.substituteKnown a.defining).scale c).toMv.vars =
      (s.substituteKnown a.defining).toMv.vars := by
    rw [Poly.toMv_scale, MvPolynomial.vars_C_mul _ hc]
  have hnk : ∀ w ∈ (s.substituteKnown a.defining).toMv.vars, ∀ d, s.get? w = some d → ¬d.Known w :=
    fun w hw d hd hk => SamplePoint.notMem_vars_substituteFrom hs (Nat.zero_le w) hd hk _ hw
  have hv : v ∈ (s.substituteKnown a.defining).toMv.vars := by
    by_contra hv
    exact hmonic.pos.ne' (Poly.degreeOf_eq_zero_iff.2 hv)
  have hle := SamplePoint.vars_substituteFrom_le hs (hs v _ ha) 0
  have hdle := SamplePoint.degreeOf_substituteFrom_le hs (hs v _ ha) 0
  rw [← SamplePoint.substituteKnown_eq] at hle hdle
  exact ⟨a, ha, fun hk => hnk v hv _ ha hk,
    ⟨hmonic.degreeOf_eq.symm ▸ hmonic, fun w hw => hle w (hvars ▸ hw)⟩,
    fun w hw => hnk w (hvars ▸ hw), hmonic.degreeOf_eq.le.trans hdle⟩

theorem levelOver_of_level {s : SamplePoint} {x : ℕ → ℝ} (hs : s.Denotes x) (he : s.Exact) {v : ℕ}
    {l : TowerLevel} (h : level s v = .ok l) : ∃ a, LevelOver s x l a := by
  obtain ⟨a, hl⟩ := levelOf_of_level hs.triangular h
  obtain ⟨b, c, hb, hc, rfl, -⟩ := level_eq_ok h
  obtain rfl := Coordinate.algebraic.inj (Option.some.inj (hb.symm.trans hl.get?))
  have hden := (hs v _ hb).2
  have hfits := he.fits v b hb
  refine ⟨b, hl, ?_, c, by exact_mod_cast hc, ?_⟩
  · rw [Poly.value_scale, SamplePoint.substituteKnown_eq,
      SamplePoint.value_substituteFrom hs.triangular hden.vars_le hfits
        (holdsUpTo_of_denotes hs v), hden.value_eq_zero, mul_zero]
  · rw [Poly.fiber_scale]
    congr 1
    exact SamplePoint.value_substituteFrom hs.triangular hden.vars_le hfits
      (holdsUpTo_openAt hs hb hl.not_known) 0

/-! ## All levels -/

theorem mem_insertLevel {l k : TowerLevel} {ls : List TowerLevel} :
    k ∈ insertLevel l ls ↔ k = l ∨ k ∈ ls := by
  induction ls with
  | nil => simp [insertLevel]
  | cons j ls ih =>
    rw [insertLevel]
    split_ifs
    · simp
    · simp [ih, or_left_comm]

theorem increasing_insertLevel {l : TowerLevel} {ls : List TowerLevel}
    (h : ls.Pairwise fun k l => k.var < l.var) (hl : ∀ k ∈ ls, k.var ≠ l.var) :
    (insertLevel l ls).Pairwise fun k l => k.var < l.var := by
  induction ls with
  | nil => simp [insertLevel]
  | cons j ls ih =>
    obtain ⟨hj, hls⟩ := List.pairwise_cons.1 h
    rw [insertLevel]
    split_ifs with hlt
    · refine List.pairwise_cons.2 ⟨fun k hk => ?_, h⟩
      rcases List.mem_cons.1 hk with rfl | hk
      · exact hlt
      · exact hlt.trans (hj k hk)
    · refine List.pairwise_cons.2 ⟨fun k hk => ?_, ih hls fun k hk => hl k (.tail _ hk)⟩
      rcases mem_insertLevel.1 hk with rfl | hk
      · exact lt_of_le_of_ne (not_lt.1 hlt) (hl j (.head _))
      · exact hj k hk

/-- What holds while levels are collected: those of the coordinates that have been seen are there, and
their variables have been seen or are still to do. -/
structure Collecting (s : SamplePoint) (unseen todo : List ℕ) (ls : List TowerLevel) : Prop where
  nodup : unseen.Nodup
  increasing : ls.Pairwise fun k l => k.var < l.var
  level : ∀ l ∈ ls, level s l.var = .ok l
  seen : ∀ w, w < s.size → w ∉ unseen → w ∈ varsOf ls
  unseen : ∀ l ∈ ls, l.var ∉ unseen
  vars : ∀ l ∈ ls, ∀ w ∈ l.defining.toMv.vars, w ∈ varsOf ls ∨ w ∈ todo

theorem Collecting.insert {s : SamplePoint} {unseen todo : List ℕ} {ls : List TowerLevel}
    {v : ℕ} {l : TowerLevel} (h : Collecting s unseen (v :: todo) ls) (hv : v ∈ unseen)
    (hl : Tower.level s v = .ok l) :
    Collecting s (unseen.erase v) ((l.defining.vars.filter (· != v)).reverse ++ todo)
      (insertLevel l ls) := by
  have hlv := var_of_level hl
  have hmem : ∀ w, w ∈ varsOf (insertLevel l ls) ↔ w = v ∨ w ∈ varsOf ls := by
    intro w
    simp only [mem_varsOf, mem_insertLevel, or_and_right, exists_or, exists_eq_left, hlv]
    rw [eq_comm (a := v)]
  refine ⟨h.nodup.erase v, increasing_insertLevel h.increasing fun k hk he => ?_, fun k hk => ?_,
    fun w hw hu => ?_, fun k hk => ?_, fun k hk w hw => ?_⟩
  · exact h.unseen k hk (by rw [he, hlv]; exact hv)
  · rcases mem_insertLevel.1 hk with rfl | hk
    · rwa [hlv]
    · exact h.level k hk
  · by_cases hwv : w = v
    · exact (hmem w).2 (.inl hwv)
    · exact (hmem w).2 (.inr (h.seen w hw fun hw => hu ((List.mem_erase_of_ne hwv).2 hw)))
  · rcases mem_insertLevel.1 hk with rfl | hk
    · rw [hlv]
      exact h.nodup.not_mem_erase
    · exact fun hm => h.unseen k hk (List.mem_of_mem_erase hm)
  · by_cases hwv : w = v
    · exact .inl ((hmem w).2 (.inl hwv))
    · rcases mem_insertLevel.1 hk with rfl | hk
      · refine .inr (List.mem_append_left _ (List.mem_reverse.2 (List.mem_filter.2 ⟨?_, ?_⟩)))
        · exact Poly.mem_vars_iff.2 hw
        · simpa using hwv
      · rcases h.vars k hk w hw with hw | hw
        · exact .inl ((hmem w).2 (.inr hw))
        · exact .inr (List.mem_append_right _ (List.mem_of_ne_of_mem hwv hw))

theorem collect_spec {s : SamplePoint} {unseen todo : List ℕ} {ls ks : List TowerLevel}
    (h : Collecting s unseen todo ls) (hc : collect s unseen todo ls = .ok ks) :
    ks.Pairwise (fun k l => k.var < l.var) ∧ (∀ l ∈ ks, level s l.var = .ok l) ∧ Closed ks ∧
      varsOf ls ⊆ varsOf ks ∧ ∀ w ∈ todo, w ∈ varsOf ks := by
  fun_induction collect s unseen todo ls with
  | case1 =>
    obtain rfl := Except.ok.inj hc
    refine ⟨h.increasing, h.level, fun l hl w hw => ?_, subset_rfl, by simp⟩
    exact (h.vars l hl w hw).resolve_right (by simp)
  | case2 unseen ls v todo hv l hl ih =>
    obtain ⟨h₁, h₂, h₃, h₄, h₅⟩ := ih (h.insert hv hl) hc
    have hvar : v ∈ varsOf ks :=
      h₄ (mem_varsOf.2 ⟨l, mem_insertLevel.2 (.inl rfl), var_of_level hl⟩)
    refine ⟨h₁, h₂, h₃, fun w hw => ?_, fun w hw => ?_⟩
    · obtain ⟨k, hk, rfl⟩ := mem_varsOf.1 hw
      exact h₄ (mem_varsOf.2 ⟨k, mem_insertLevel.2 (.inr hk), rfl⟩)
    · rcases List.mem_cons.1 hw with rfl | hw
      · exact hvar
      · exact h₅ w (List.mem_append_right _ hw)
  | case3 => cases hc
  | case4 unseen ls v todo hv hlt ih =>
    have hseen := h.seen v hlt hv
    have hnext : Collecting s unseen todo ls := by
      refine ⟨h.nodup, h.increasing, h.level, h.seen, h.unseen, fun l hl w hw => ?_⟩
      rcases h.vars l hl w hw with hw | hw
      · exact .inl hw
      · rcases List.mem_cons.1 hw with rfl | hw
        · exact .inl hseen
        · exact .inr hw
    obtain ⟨h₁, h₂, h₃, h₄, h₅⟩ := ih hnext hc
    refine ⟨h₁, h₂, h₃, h₄, fun w hw => ?_⟩
    rcases List.mem_cons.1 hw with rfl | hw
    · exact h₄ hseen
    · exact h₅ w hw
  | case5 => cases hc

/-- A tower made at a point: monic levels in order, that contain each other's variables. -/
structure Built (s : SamplePoint) (t : Tower) : Prop where
  ordered : Ordered t.levels
  closed : Closed t.levels
  level : ∀ l ∈ t.levels, ∃ a, LevelOf s l a

/-- A tower at a real point. -/
structure Over (s : SamplePoint) (x : ℕ → ℝ) (t : Tower) : Prop where
  ordered : Ordered t.levels
  closed : Closed t.levels
  level : ∀ l ∈ t.levels, ∃ a, LevelOver s x l a

theorem Over.built {s : SamplePoint} {x : ℕ → ℝ} {t : Tower} (h : t.Over s x) : t.Built s where
  ordered := h.ordered
  closed := h.closed
  level l hl := by
    obtain ⟨a, ha⟩ := h.level l hl
    exact ⟨a, ha.toLevelOf⟩

theorem collecting_nil (s : SamplePoint) (todo : List ℕ) :
    Collecting s (List.range s.size) todo [] where
  nodup := List.nodup_range
  increasing := .nil
  level := by simp
  seen w hw hu := absurd (List.mem_range.2 hw) hu
  unseen := by simp
  vars := by simp

/-- The steps of a run that returns the tower under a polynomial. -/
theorem ofPoly_eq_ok {s : SamplePoint} {p : Poly} {t : Tower} (h : ofPoly p s = .ok t) :
    t.levels.Pairwise (fun k l => k.var < l.var) ∧ (∀ l ∈ t.levels, level s l.var = .ok l) ∧
      Closed t.levels ∧ p.toMv.vars ⊆ varsOf t.levels := by
  rw [ofPoly] at h
  cases hc : collect s (List.range s.size) p.vars.reverse [] with
  | error e =>
    rw [hc] at h
    cases h
  | ok ls =>
    rw [hc] at h
    obtain rfl := Except.ok.inj h
    obtain ⟨h₁, h₂, h₃, -, h₅⟩ := collect_spec (collecting_nil s _) hc
    exact ⟨h₁, h₂, h₃, fun w hw => h₅ w (List.mem_reverse.2 (Poly.mem_vars_iff.2 hw))⟩

/-- The tower under a polynomial has all its variables. -/
theorem built_of_ofPoly {s : SamplePoint} (hs : s.Triangular) {p : Poly} {t : Tower}
    (h : ofPoly p s = .ok t) : t.Built s ∧ p.toMv.vars ⊆ varsOf t.levels := by
  obtain ⟨h₁, h₂, h₃, h₄⟩ := ofPoly_eq_ok h
  have hlevel : ∀ l ∈ t.levels, ∃ a, LevelOf s l a := fun l hl => levelOf_of_level hs (h₂ l hl)
  refine ⟨⟨⟨h₁, fun l hl => ?_⟩, h₃, hlevel⟩, h₄⟩
  obtain ⟨a, ha⟩ := hlevel l hl
  exact ha.monic

theorem ofPoly_spec {s : SamplePoint} {x : ℕ → ℝ} (hs : s.Denotes x) (he : s.Exact) {p : Poly}
    {t : Tower} (h : ofPoly p s = .ok t) : t.Over s x ∧ p.toMv.vars ⊆ varsOf t.levels := by
  obtain ⟨hb, hvars⟩ := built_of_ofPoly hs.triangular h
  obtain ⟨-, hlevel, -⟩ := ofPoly_eq_ok h
  exact ⟨⟨hb.ordered, hb.closed, fun l hl => levelOver_of_level hs he (hlevel l hl)⟩, hvars⟩

end Tower

end Cylindrical

end
