import Mathlib
import Cylindrical.Proofs.Sample.OneLevel
import Cylindrical.Proofs.Sample.SeveralLevels

/-!
# What an attempt leaves of a point

Whatever an attempt of the zero test finds, rational coordinates and isolators stay, intervals narrow,
and a new defining polynomial is monic in its variable and of a smaller degree than the one before.  An
attempt that fails has only refined, and one that ends with a replacement has lowered the weight of
the point.
-/

noncomputable section

namespace Cylindrical

/-! ## Tighter points -/

/-- A polynomial in `v` and lower variables that is monic in `v`, of a positive degree smaller than that
of `d`. -/
structure Poly.Lowers (g : Poly) (v : ℕ) (d : Poly) : Prop where
  vars_le : ∀ w ∈ g.toMv.vars, w ≤ v
  monic : g.MonicIn v (g.degreeOf v)
  degree_pos : 0 < g.degreeOf v
  degree_lt : g.degreeOf v < d.degreeOf v

/-- The interval narrows, and the defining polynomial stays or is replaced by a lower one. -/
structure AlgebraicNumber.Tightens (b : AlgebraicNumber) (v : ℕ) (a : AlgebraicNumber) : Prop where
  narrows : b.Narrows a
  defining : b.defining = a.defining ∨ b.defining.Lowers v a.defining

theorem Poly.Lowers.of_monicIn {g d : Poly} {v n : ℕ} (h : g.MonicIn v n)
    (hvars : ∀ w ∈ g.toMv.vars, w ≤ v) (hlt : n < d.degreeOf v) : g.Lowers v d where
  vars_le := hvars
  monic := h.degreeOf_eq.symm ▸ h
  degree_pos := h.degreeOf_eq.symm ▸ h.pos
  degree_lt := h.degreeOf_eq.symm ▸ hlt

theorem AlgebraicNumber.Refines.tightens {a b : AlgebraicNumber} (h : b.Refines a) (v : ℕ) :
    b.Tightens v a := ⟨h.2, .inl h.1⟩

theorem AlgebraicNumber.Tightens.trans {a b c : AlgebraicNumber} {v : ℕ} (h : c.Tightens v b)
    (h' : b.Tightens v a) : c.Tightens v a := by
  refine ⟨h.narrows.trans h'.narrows, ?_⟩
  rcases h.defining with hc | hc <;> rcases h'.defining with hb | hb
  · exact .inl (hc.trans hb)
  · exact .inr (hc ▸ hb)
  · exact .inr (hb ▸ hc)
  · exact .inr ⟨hc.vars_le, hc.monic, hc.degree_pos, hc.degree_lt.trans hb.degree_lt⟩

theorem AlgebraicNumber.Tightens.degreeOf_le {a b : AlgebraicNumber} {v : ℕ} (h : b.Tightens v a) :
    b.defining.degreeOf v ≤ a.defining.degreeOf v := by
  rcases h.defining with hb | hb
  · rw [hb]
  · exact hb.degree_lt.le

/-- The degree of the defining polynomial, zero if the coordinate is rational. -/
def Coordinate.degreeIn (v : ℕ) : Coordinate → ℕ
  | rational _ => 0
  | algebraic a => a.defining.degreeOf v

namespace SamplePoint

variable {s t u : SamplePoint} {v : ℕ} {a b : AlgebraicNumber} {g : Poly}

/-- Rational coordinates stay, and the numbers tighten. -/
structure Tightens (t s : SamplePoint) : Prop where
  size : t.size = s.size
  rational : ∀ v r, s.get? v = some (.rational r) → t.get? v = some (.rational r)
  algebraic : ∀ v a, s.get? v = some (.algebraic a) →
    ∃ b, t.get? v = some (.algebraic b) ∧ b.Tightens v a

theorem Refines.tightens (h : t.Refines s) : t.Tightens s where
  size := size_of_relations h.1
  rational v r hr := by
    obtain ⟨c, hc, hrc⟩ := exists_of_relations h.1.symm hr
    cases c with
    | rational q => rwa [Sum.inl.inj hrc]
    | algebraic b => cases hrc
  algebraic v a ha := by
    obtain ⟨b, hb, hba⟩ := h.exists_algebraic ha
    exact ⟨b, hb, hba.tightens v⟩

theorem Tightens.trans (h : u.Tightens t) (h' : t.Tightens s) : u.Tightens s where
  size := h.size.trans h'.size
  rational v r hr := h.rational v r (h'.rational v r hr)
  algebraic v a ha := by
    obtain ⟨b, hb, hba⟩ := h'.algebraic v a ha
    obtain ⟨c, hc, hcb⟩ := h.algebraic v b hb
    exact ⟨c, hc, hcb.trans hba⟩

theorem Triangular.of_tightens (hs : s.Triangular) (h : t.Tightens s) : t.Triangular := by
  intro v c hc
  obtain ⟨d, hd⟩ := exists_get? (h.size ▸ lt_size_of_get? hc)
  cases d with
  | rational r =>
    obtain rfl := Option.some.inj (hc.symm.trans (h.rational v r hd))
    trivial
  | algebraic a =>
    obtain ⟨b, hb, hba⟩ := h.algebraic v a hd
    obtain rfl := Option.some.inj (hc.symm.trans hb)
    rcases hba.defining with heq | hlow
    · exact fun w hw => hs v _ hd w (heq ▸ hw)
    · exact hlow.vars_le

theorem tightens_redefine (ha : s.get? v = some (.algebraic a)) (hg : g.Lowers v a.defining) :
    (s.redefine v a g).Tightens s where
  size := size_set ..
  rational w r hr := by
    have hw : v ≠ w := by
      rintro rfl
      cases ha.symm.trans hr
    rwa [get?_redefine_of_ne hw]
  algebraic w b hb := by
    by_cases hw : v = w
    · subst hw
      obtain rfl := Coordinate.algebraic.inj (Option.some.inj (ha.symm.trans hb))
      exact ⟨_, get?_redefine_self ha,
        ⟨rfl, fun _ h => ⟨h.squarefree, h.lo_lt, h.lt_hi, h.isRoot, h.unique, h.leftSign⟩,
          fun _ _ => ⟨le_rfl, le_rfl⟩⟩, .inr hg⟩
    · exact ⟨b, by rwa [get?_redefine_of_ne hw], (AlgebraicNumber.refines_refl b).tightens w⟩

/-! ## The weight of a point -/

/-- The degree at a variable, zero if it has no coordinate. -/
def degreeAt (s : SamplePoint) (v : ℕ) : ℕ := ((s.get? v).map (·.degreeIn v)).getD 0

theorem degreeAt_of_get? {c : Coordinate} (h : s.get? v = some c) : s.degreeAt v = c.degreeIn v := by
  rw [degreeAt, h]
  rfl

theorem foldl_degreeIn (cs : List Coordinate) (k n : ℕ) :
    (cs.zipIdx k).foldl (fun n e => n + e.1.degreeIn e.2) n =
      n + ∑ i ∈ Finset.range cs.length, (cs[i]?.map (·.degreeIn (k + i))).getD 0 := by
  induction cs generalizing k n with
  | nil => rfl
  | cons c cs ih =>
    rw [List.zipIdx_cons, List.foldl_cons, ih, List.length_cons, Finset.sum_range_succ', Nat.add_assoc,
      Nat.add_comm (c.degreeIn k)]
    refine congrArg (n + ·) (congrArg (· + c.degreeIn k) (Finset.sum_congr rfl fun i _ => ?_))
    rw [List.getElem?_cons_succ, Nat.add_right_comm, Nat.add_assoc]

theorem weight_eq_sum (s : SamplePoint) :
    ZeroTest.weight s = ∑ v ∈ Finset.range s.size, s.degreeAt v := by
  have hstep : ZeroTest.weight s = s.coords.zipIdx.foldl (fun n e => n + e.1.degreeIn e.2) 0 := by
    rw [ZeroTest.weight]
    congr 1
    funext n e
    obtain ⟨c, v⟩ := e
    cases c <;> rfl
  rw [hstep, foldl_degreeIn, Nat.zero_add, size]
  refine Finset.sum_congr rfl fun v _ => ?_
  rw [degreeAt, get?, Nat.zero_add]

theorem Tightens.degreeAt_le (h : t.Tightens s) (hv : v < s.size) : t.degreeAt v ≤ s.degreeAt v := by
  obtain ⟨c, hc⟩ := exists_get? hv
  cases c with
  | rational r =>
    rw [degreeAt_of_get? (h.rational v r hc)]
    exact Nat.zero_le _
  | algebraic a =>
    obtain ⟨b, hb, hba⟩ := h.algebraic v a hc
    rw [degreeAt_of_get? hb, degreeAt_of_get? hc]
    exact hba.degreeOf_le

theorem Tightens.weight_le (h : t.Tightens s) : ZeroTest.weight t ≤ ZeroTest.weight s := by
  rw [weight_eq_sum, weight_eq_sum, h.size]
  exact Finset.sum_le_sum fun v hv => h.degreeAt_le (Finset.mem_range.1 hv)

theorem weight_redefine_lt (ha : s.get? v = some (.algebraic a)) (hg : g.Lowers v a.defining) :
    ZeroTest.weight (s.redefine v a g) < ZeroTest.weight s := by
  have h := tightens_redefine ha hg
  rw [weight_eq_sum, weight_eq_sum, h.size]
  refine Finset.sum_lt_sum (fun w hw => h.degreeAt_le (Finset.mem_range.1 hw))
    ⟨v, Finset.mem_range.2 (lt_size_of_get? ha), ?_⟩
  rw [degreeAt_of_get? (get?_redefine_self ha), degreeAt_of_get? ha]
  exact hg.degree_lt

end SamplePoint

namespace Tower

variable {s : SamplePoint} {t : Tower} {i : ℕ} {l : TowerLevel} {a : AlgebraicNumber} {f : Poly}

/-- A factor of a level is lower than the defining polynomial of its coordinate. -/
theorem FactorOf.lowers (hf : FactorOf t i l f) (ht : t.Built s) (hl : LevelOf s l a) :
    f.Lowers l.var a.defining :=
  .of_monicIn hf.monic (fun _ hw => le_of_mem_varsOf_take ht.ordered hf.level (hf.vars hw))
    (hf.degree_lt.trans_le hl.degree_le)

end Tower

namespace ZeroTest

open Tower

variable {cfg : Config} {σ : PointState} {s : SamplePoint} {t : Tower} {i v : ℕ} {l : TowerLevel}
  {a : AlgebraicNumber} {p r g h : Poly}

/-! ## Steps of an attempt -/

section

variable {Q : Unit → PointState → Prop} {E : PointState → Prop}

theorem ends_count {f : Stats → Stats} (hQ : ∀ τ, τ.point = σ.point → Q () τ) :
    Ends (count f) σ Q E := ends_modify (hQ _ rfl)

theorem ends_refineTo {vars : List ℕ} {bits : ℕ} (hQ : ∀ τ, τ.point.Refines σ.point → Q () τ) :
    Ends (refineTo vars bits) σ Q E :=
  ends_modify (hQ _ (SamplePoint.refines_foldl_refineTo bits vars σ.point))

theorem ends_replace (ha : σ.point.get? v = some (.algebraic a))
    (hQ : ∀ τ, τ.point = σ.point.redefine v a g → Q () τ) : Ends (replace v g) σ Q E := by
  rw [replace]
  refine .bind (ends_get ?_)
  rw [ha]
  exact .bind (ends_count fun τ hτ => ends_modify (hQ _ (by rw [SamplePoint.redefine, hτ])))

end

theorem ends_enclosure {prec : ℕ} {Q : Interval → PointState → Prop} {E : PointState → Prop}
    (hQ : ∀ j, Q j σ) (hE : E σ) : Ends (enclosure prec p) σ Q E := by
  rw [enclosure]
  refine .bind (ends_get ?_)
  cases Interval.evalPoly? prec σ.point.span? p with
  | none => exact ends_throw hE
  | some j => exact ends_pure (hQ j)

theorem ends_algebraically {α : Type} {y : AlgebraM α} {Q : α → PointState → Prop}
    {E : PointState → Prop}
    (hQ : ∀ b τ, (∃ u, y σ.algebra = .ok b u) → τ.point = σ.point → Q b τ)
    (hE : ∀ τ, τ.point = σ.point → E τ) : Ends (PointState.algebraically y) σ Q E :=
  ends_focus (fun b u hu => hQ b _ ⟨u, hu⟩ rfl) fun _ _ _ => hE _ rfl

theorem ends_pickVanishing {vars : List ℕ} {rounds round : ℕ} (hσ : σ.point.Refines s) :
    Ends (pickVanishing cfg g h vars rounds round) σ (fun _ τ => τ.point.Refines s)
      fun τ => τ.point.Refines s := by
  induction rounds generalizing round σ with
  | zero => exact ends_throw hσ
  | succ rounds ih =>
    rw [pickVanishing]
    refine .bind (ends_refineTo fun τ hτ => .bind (ends_enclosure (fun j => .bind
      (ends_enclosure (fun k => ?_) (hτ.trans hσ))) (hτ.trans hσ)))
    cases j.containsZero <;> cases k.containsZero
    · exact ends_throw (hτ.trans hσ)
    · exact ends_pure (hτ.trans hσ)
    · exact ends_pure (hτ.trans hσ)
    · exact ih (hτ.trans hσ)

/-- What an attempt leaves: a tighter point, of a smaller weight after a replacement. -/
structure Leaves (s : SamplePoint) (o : Outcome) (t : SamplePoint) : Prop where
  tightens : t.Tightens s
  weight_lt : o = .replaced → weight t < weight s

theorem leaves_self (hσ : σ.point = s) {b : Bool} : Leaves s (.decided b) σ.point where
  tightens := hσ ▸ (SamplePoint.refines_refl σ.point).tightens
  weight_lt := nofun

theorem ends_resolve (hσ : σ.point = s) (ha : s.get? v = some (.algebraic a))
    (hg : g.Lowers v a.defining) (hh : h.Lowers v a.defining) :
    Ends (resolve cfg t i v g h) σ (fun _ τ => ∀ o, Leaves s o τ.point)
      fun τ => τ.point.Refines s := by
  rw [resolve]
  refine .bind ((ends_pickVanishing (hσ ▸ SamplePoint.refines_refl σ.point)).mono
    (fun first σ₁ h₁ => ?_) fun _ h₁ => h₁)
  obtain ⟨b, hb, hba⟩ := h₁.exists_algebraic ha
  refine .bind (ends_replace hb fun τ hτ => ends_pure fun _ => ?_)
  have hlow : (if first then g else h).Lowers v b.defining := by
    rw [hba.1]
    split_ifs
    · exact hg
    · exact hh
  rw [hτ]
  exact ⟨(SamplePoint.tightens_redefine hb hlow).trans h₁.tightens, fun _ =>
    (SamplePoint.weight_redefine_lt hb hlow).trans_le h₁.tightens.weight_le⟩

/-- A common divisor of a smaller degree and its cofactor are lower than the defining polynomial. -/
theorem lowers_of_exactQuotient (hl : LevelOf s l a) (hvars : ∀ w ∈ l.defining.toMv.vars, w = l.var)
    (hdvd : g.toMv ∣ l.defining.toMv) (hnum : ¬g.isNumber = true)
    (hlt : g.degreeOf l.var < l.defining.degreeOf l.var)
    (hquot : l.defining.exactQuotient g.monic = .ok h) :
    g.monic.Lowers l.var a.defining ∧ h.Lowers l.var a.defining := by
  have hmonic := hl.monic.monicIn
  have hl0 := Poly.ne_zero_of_degreeOf_pos hmonic.pos
  have hgvars : ∀ w ∈ g.toMv.vars, w = l.var := fun w hw => hvars w (vars_subset_of_dvd hl0 hdvd hw)
  have hpos : 0 < g.degreeOf l.var := Nat.pos_of_ne_zero fun h0 => hnum <| by
    rw [Poly.isNumber_iff_vars, Finset.eq_empty_iff_forall_notMem]
    exact fun w hw => Poly.degreeOf_eq_zero_iff.1 h0 (hgvars w hw ▸ hw)
  have hgmonic := Poly.monicIn_monic hgvars hpos
  obtain ⟨-, hmul⟩ := Poly.toMv_of_exactQuotient hquot
  have hhmonic := hmonic.cofactor hgmonic hmul hlt
  have hle : ∀ {f : Poly}, f.toMv ∣ l.defining.toMv → ∀ w ∈ f.toMv.vars, w ≤ l.var :=
    fun hf w hw => (hvars w (vars_subset_of_dvd hl0 hf hw)).le
  exact ⟨.of_monicIn hgmonic (hle (Dvd.intro_left _ hmul.symm)) (hlt.trans_le hl.degree_le),
    .of_monicIn hhmonic (hle (Dvd.intro _ hmul.symm)) (by have := hl.degree_le; omega)⟩

/-- The test over one level. -/
theorem ends_overOne (hσ : σ.point = s) (hl : LevelOf s l a)
    (hvars : ∀ w ∈ l.defining.toMv.vars, w = l.var) :
    Ends (overOne l r) σ (fun o τ => Leaves s o τ.point) fun τ => τ.point.Refines s := by
  have hkeep : ∀ τ : PointState, τ.point = s → τ.point.Refines s := fun τ hτ =>
    hτ ▸ SamplePoint.refines_refl τ.point
  rw [overOne]
  refine .bind (ends_count fun σ₁ hσ₁ => .bind (ends_algebraically (fun g σ₂ hg hσ₂ => ?_)
    fun τ hτ => hkeep τ (hτ.trans (hσ₁.trans hσ))))
  have hσ₂ := hσ₂.trans (hσ₁.trans hσ)
  obtain ⟨u, hg⟩ := hg
  have hdvd := (Poly.isGcd_gcd (AlgebraSystem.call_eq_ok hg)).dvd_left
  split_ifs with hnum hdeg
  · exact ends_pure (leaves_self hσ₂)
  · exact ends_pure (leaves_self hσ₂)
  · refine .bind (ends_lift (fun h hquot => ?_) fun _ _ => hkeep σ₂ hσ₂)
    obtain ⟨hglow, hhlow⟩ := lowers_of_exactQuotient hl hvars hdvd hnum (not_le.1 hdeg) hquot
    refine .bind (ends_get (.bind (ends_replace (hσ₂ ▸ hl.get?) fun τ hτ => ends_pure ?_)))
    refine ⟨?_, fun hnone => by cases hnone⟩
    rw [hτ, hσ₂]
    refine SamplePoint.tightens_redefine hl.get? ?_
    split_ifs
    · exact hglow
    · exact hhlow

/-- What a check leaves: the point itself, if nothing is accepted. -/
def Accepts (s : SamplePoint) : Option Outcome → SamplePoint → Prop
  | none, t => t = s
  | some o, t => Leaves s o t

theorem ends_acceptGcd (hσ : σ.point = s) (ht : t.Built s) (hl : t.levels[i]? = some l) :
    Ends (acceptGcd cfg t i l r g) σ (fun o? τ => Accepts s o? τ.point)
      fun τ => τ.point.Refines s := by
  rw [acceptGcd]
  refine .bind (ends_count fun σ₁ hσ₁ => ?_)
  have hσ₁ := hσ₁.trans hσ
  split_ifs with hc
  · rw [Bool.and_eq_true] at hc
    obtain ⟨hf, -⟩ := factorOf_of_isProperFactor hl hc.1
    obtain ⟨a, ha⟩ := ht.level l (List.mem_of_getElem? hl)
    refine .bind ((ends_resolve hσ₁ ha.get? (hf.lowers ht ha) ((hf.cofactor ht.ordered ht.closed).lowers ht ha)).mono
      (fun b τ hτ => ?_) fun _ hE => hE)
    cases b <;> exact ends_pure (hτ _)
  · exact ends_pure hσ₁

theorem ends_acceptSplit (hσ : σ.point = s) (ht : t.Built s) (hl : t.levels[i]? = some l) :
    Ends (acceptSplit cfg t i l g h) σ (fun o? τ => Accepts s o? τ.point)
      fun τ => τ.point.Refines s := by
  rw [acceptSplit]
  refine .bind (ends_count fun σ₁ hσ₁ => ?_)
  have hσ₁ := hσ₁.trans hσ
  cases hdiv : t.divRem l.var i l.defining g with
  | mk q rem =>
  simp only
  split_ifs with hc
  · simp only [Bool.and_eq_true] at hc
    obtain ⟨hf, -⟩ := factorOf_of_isProperFactor hl hc.1.1
    obtain ⟨a, ha⟩ := ht.level l (List.mem_of_getElem? hl)
    have hsub := Poly.toMv_eq_zero_of_isZero hc.2
    rw [Poly.toMv_sub, sub_eq_zero] at hsub
    have hco := (hf.cofactor ht.ordered ht.closed).congr (g := h) (by rw [hdiv, hsub])
    exact .bind ((ends_resolve hσ₁ ha.get? (hf.lowers ht ha) (hco.lowers ht ha)).mono
      (fun b τ hτ => ends_pure (hτ _)) fun _ hE => hE)
  · exact ends_pure hσ₁

/-- After a check that accepts nothing the test goes on at the same point. -/
theorem ends_accepted {y : PointM (Option Outcome)} {next : PointM Outcome}
    (hy : Ends y σ (fun o? τ => Accepts s o? τ.point) fun τ => τ.point.Refines s)
    (hnext : ∀ τ : PointState, τ.point = s →
      Ends next τ (fun o υ => Leaves s o υ.point) fun υ => υ.point.Refines s) :
    Ends (do
      match ← y with
      | some o => return o
      | none => next) σ (fun o τ => Leaves s o τ.point) fun τ => τ.point.Refines s := by
  refine .bind (hy.mono (fun o? τ hτ => ?_) fun _ hE => hE)
  cases o? with
  | none => exact hnext τ hτ
  | some o => exact ends_pure hτ

/-- The test over several levels. -/
theorem ends_overSeveral {ps : List ℕ} {gcds : Images} {splits : ℕ → Images × Images}
    (hσ : σ.point = s) (ht : t.Built s) (hl : t.levels[i]? = some l) :
    Ends (overSeveral cfg t i l r ps gcds splits) σ (fun o τ => Leaves s o τ.point)
      fun τ => τ.point.Refines s := by
  induction ps generalizing σ gcds splits with
  | nil => exact ends_throw (hσ ▸ SamplePoint.refines_refl σ.point)
  | cons p ps ih =>
    rw [overSeveral]
    refine .bind (ends_count fun σ₁ hσ₁ => ?_)
    have hσ₁ := hσ₁.trans hσ
    cases images? t l.var r p with
    | none => exact .bind (ends_count fun σ₂ hσ₂ => ih (hσ₂.trans hσ₁))
    | some ua =>
      obtain ⟨u, b⟩ := ua
      simp only
      cases u.gcd l.var (u.defining i) b with
      | ok g =>
        simp only
        split_ifs
        · exact ends_pure (leaves_self hσ₁)
        · generalize addImage (mainDegree l.var g) p g gcds = is
          obtain ⟨g?, gcds'⟩ := is
          cases g? with
          | none => exact ih hσ₁
          | some g => exact ends_accepted (ends_acceptGcd hσ₁ ht hl) fun τ hτ => ih hτ
      | error z =>
        simp only
        cases hk : t.levels[z.level]? with
        | none => exact ih hσ₁
        | some k =>
        cases ((u.recordSplit z).levels[z.level]?).bind (·.split) with
        | none => exact ih hσ₁
        | some fh =>
          obtain ⟨f, h⟩ := fh
          simp only
          generalize addImage (mainDegree k.var f) p f (splits z.level).1 = is
          generalize addImage (mainDegree k.var f) p h (splits z.level).2 = js
          obtain ⟨f?, fs⟩ := is
          obtain ⟨h?, hs⟩ := js
          cases f? with
          | none => exact ih hσ₁
          | some f =>
            cases h? with
            | none => exact ih hσ₁
            | some h => exact ends_accepted (ends_acceptSplit hσ₁ ht hk) fun τ hτ => ih hτ

/-- The test over the level of a variable. -/
theorem ends_overLevelOf (hσ : σ.point = s) (ht : t.Built s) :
    Ends (do
      count fun s => { s with severalLevels := s.severalLevels + 1 }
      match t.levels[i]? with
      | some l =>
        overSeveral cfg t i l r (Residue.primes.take cfg.maxPrimes) none fun _ => (none, none)
      | none => throw (.invalidAddress (.noCoordinate v)))
      σ (fun o τ => Leaves s o τ.point) fun τ => τ.point.Refines s := by
  refine .bind (ends_count fun σ₁ hσ₁ => ?_)
  have hσ₁ := hσ₁.trans hσ
  cases hl : t.levels[i]? with
  | none => exact ends_throw (hσ₁ ▸ SamplePoint.refines_refl σ₁.point)
  | some l => exact ends_overSeveral hσ₁ ht hl

/-- An attempt fails before it replaces anything, and otherwise leaves a tighter point. -/
theorem ends_attempt (hσ : σ.point = s) (hs : s.Triangular) :
    Ends (attempt cfg p) σ (fun o τ => Leaves s o τ.point) fun τ => τ.point.Refines s := by
  have hkeep : σ.point.Refines s := hσ ▸ SamplePoint.refines_refl σ.point
  rw [attempt]
  refine .bind (ends_get ?_)
  rw [hσ]
  simp only
  generalize s.substituteKnown p = q
  split_ifs
  · exact ends_pure (leaves_self hσ)
  refine .bind (ends_lift (fun t ht => ?_) fun _ _ => hkeep)
  obtain ⟨hbuilt, -⟩ := built_of_ofPoly hs ht
  have hone : ∀ l, t.levels = [l] → Ends (overOne l (t.reduce q)) σ
      (fun o τ => Leaves s o τ.point) fun τ => τ.point.Refines s := by
    intro l hls
    have hl : l ∈ t.levels := hls ▸ .head _
    obtain ⟨a, ha⟩ := hbuilt.level l hl
    refine ends_overOne hσ ha fun w hw => ?_
    obtain ⟨k, hk, rfl⟩ := mem_varsOf.1 (hbuilt.closed l hl hw)
    rw [hls] at hk
    rw [List.mem_singleton.1 hk]
  generalize t.reduce q = r at hone ⊢
  cases r.mainVar? with
  | none => exact ends_pure (leaves_self hσ)
  | some v =>
    obtain ⟨ls⟩ := t
    simp only
    cases hi : (Tower.mk ls).levelOf? v with
    | none =>
      rcases ls with _ | ⟨l, _ | ⟨k, ls⟩⟩
      · exact ends_throw hkeep
      · exact hone l rfl
      · exact ends_throw hkeep
    | some i =>
      rcases ls with _ | ⟨l, _ | ⟨k, ls⟩⟩
      · cases hi
      · exact hone l rfl
      · exact ends_overLevelOf hσ hbuilt

end ZeroTest

end Cylindrical

end
