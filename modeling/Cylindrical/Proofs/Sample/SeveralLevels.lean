import Mathlib
import Cylindrical.Proofs.Residue.NonVanishing
import Cylindrical.Proofs.Residue.Reconstruction
import Cylindrical.Proofs.Sample.Factor

/-!
# The zero test over several levels

A greatest common divisor modulo a prime without the variable shows that the value is not zero, since
a common zero has residues at every place over the prime.  A reconstruction is only believed after it has
been checked to divide; then it or its cofactor vanishes at the point, and enclosures tell which.
The exponents of reconstructions are those of remainders, so the enclosures are right.
-/

noncomputable section

namespace Cylindrical

namespace ZeroTest

open Tower ResiduePoly

variable {cfg : Config} {σ τ : PointState} {x : ℕ → ℝ} {t : Tower} {i : ℕ} {l : TowerLevel}
  {r : Poly}

section

variable {K : Type*} [CommRing K] [RationalAlgebra K] {z : ℕ → K}

/-- An outcome settles whether a polynomial vanishes at a point, or leaves it open. -/
structure Settles (z : ℕ → K) (r : Poly) (o : Outcome) : Prop where
  iff : ∀ b, o = .decided b → (b = true ↔ r.value z = 0)

theorem settles_replaced : Settles z r .replaced where
  iff _ h := by cases h

theorem settles_true (h : r.value z = 0) : Settles z r (.decided true) where
  iff b hb := by
    obtain rfl := Outcome.decided.inj hb
    exact ⟨fun _ => h, fun _ => rfl⟩

theorem settles_false (h : r.value z ≠ 0) : Settles z r (.decided false) where
  iff b hb := by
    obtain rfl := Outcome.decided.inj hb
    exact ⟨fun hb => absurd hb (by decide), fun h0 => absurd h0 h⟩

end

/-! ## Reconstructions -/

/-- The exponents of the images met so far count, except for those of one variable. -/
def ImagesFit (v : ℕ) (is : Images) : Prop :=
  ∀ d r, is = some (d, r) → r.MonomialsSatisfy fun m => ∀ w, w ≠ v → m.degreeOf w < Nat.pow 2 31

theorem imagesFit_none {v : ℕ} : ImagesFit v none := fun _ _ h => by cases h

theorem addImage_spec {v : ℕ} (degree p : ℕ) {image : ResiduePoly} {is : Images}
    (his : ImagesFit v is)
    (h : ∀ e ∈ image.image, ∀ w, w ≠ v → e.1.degreeOf w < Nat.pow 2 31) :
    ImagesFit v (addImage degree p image is).2 ∧ ∀ q, (addImage degree p image is).1 = some q →
      ∀ w, w ≠ v → q.degreeOf w < Nat.pow 2 31 := by
  have hadd : ∀ rec : Reconstruction,
      rec.MonomialsSatisfy (fun m => ∀ w, w ≠ v → m.degreeOf w < Nat.pow 2 31) → ∀ d,
      ImagesFit v (some (d, (rec.add p image.image).2)) ∧
        ∀ q, (rec.add p image.image).1 = some q → ∀ w, w ≠ v → q.degreeOf w < Nat.pow 2 31 := by
    intro rec hrec d
    obtain ⟨hnext, hq⟩ := Reconstruction.add_spec (p := p) hrec h
    refine ⟨fun d' r' he => ?_, fun q hqe w hw => ?_⟩
    · obtain ⟨-, rfl⟩ := Prod.mk.inj (Option.some.inj he)
      exact hnext
    · obtain ⟨ts, rfl, hts⟩ := hq q hqe
      exact Poly.degreeOf_ofTerms_lt (Nat.pow_pos (by omega)) fun u hu => hts u hu w hw
  unfold addImage
  split
  · exact hadd {} Reconstruction.monomialsSatisfy_empty degree
  · rename_i d rec
    split_ifs
    · exact ⟨his, fun q hq => by cases hq⟩
    · exact hadd rec (his d rec rfl) d
    · exact hadd {} Reconstruction.monomialsSatisfy_empty degree

/-! ## Acceptance -/

/-- A check leaves the point as it is, or accepts an outcome that is right at the real point. -/
inductive SoundCheck (x : ℕ → ℝ) (r : Poly) (s : SamplePoint) (τ : PointState) :
    Option Outcome → Prop
  | rejected : τ.point = s → SoundCheck x r s τ none
  | accepted {o : Outcome} : s.Evolves x τ.point → Settles x r o → SoundCheck x r s τ (some o)

theorem SoundCheck.spec {s : SamplePoint} {o : Outcome} (h : SoundCheck x r s τ (some o)) :
    s.Evolves x τ.point ∧ Settles x r o := by
  obtain _ | ⟨hev, ho⟩ := h
  exact ⟨hev, ho⟩

/-- Factor and cofactor of a level may take its place. -/
theorem resolve_factor_spec (hs : σ.point.Sound x) (ht : t.Over σ.point x) {f h : Poly}
    (hf : FactorOf t i l f) (hrem : (t.divRem l.var i l.defining f).2.toMv = 0)
    (hlow : ∀ w, w ≠ l.var → f.degreeOf w < Nat.pow 2 31)
    (hh : h.toMv = (t.divRem l.var i l.defining f).1.toMv) {b : Bool}
    (hrun : resolve cfg t i l.var f h σ = .ok b τ) :
    σ.point.Evolves x τ.point ∧ (b = true → f.value x = 0) := by
  have hco : FactorOf t i l h := (hf.cofactor ht.ordered ht.closed).congr hh
  have hfiber := hf.fiber_eq ht hrem
  have hhfiber : h.fiber l.var x = (t.divRem l.var i l.defining f).1.fiber l.var x :=
    Poly.value_eq_aeval_of_toMv_eq hh
  obtain ⟨hev, hb⟩ := resolve_spec hs (ht.level l (List.mem_of_getElem? hf.level))
    (hf.exponentsCount ht hs.exact hlow) ((hf.exponentsCount_cofactor ht hs.exact).congr hh)
    (by rw [Poly.value_eq_aeval_of_toMv_eq hh]; exact hf.value_mul_eq_zero ht hrem)
    (fun h0 => hf.redefines ht ⟨_, by rw [hfiber, mul_comm]⟩ h0)
    (fun h0 => hco.redefines ht ⟨_, by rw [hfiber, hhfiber]⟩ h0) hrun
  refine ⟨hev, fun hbt => ?_⟩
  rwa [if_pos hbt] at hb

theorem acceptGcd_spec (hs : σ.point.Sound x) (ht : t.Over σ.point x)
    (hl : t.levels[i]? = some l) {g : Poly} (hlow : ∀ w, w ≠ l.var → g.degreeOf w < Nat.pow 2 31)
    {o? : Option Outcome} (hrun : acceptGcd cfg t i l r g σ = .ok o? τ) :
    SoundCheck x r σ.point τ o? := by
  rw [acceptGcd] at hrun
  obtain ⟨_, σ₁, hcount, h₁⟩ := run_bind_eq_ok hrun
  have hσ₁ := count_eq_ok hcount
  rw [← hσ₁] at hs ht ⊢
  split_ifs at h₁ with hc
  · rw [Bool.and_eq_true] at hc
    obtain ⟨hf, hrem⟩ := factorOf_of_isProperFactor hl hc.1
    obtain ⟨b, σ₂, hres, h₂⟩ := run_bind_eq_ok h₁
    obtain ⟨hev, hb⟩ := resolve_factor_spec hs ht hf hrem hlow rfl hres
    cases b
    · obtain ⟨rfl, rfl⟩ := run_pure_eq_ok h₂
      exact .accepted hev settles_replaced
    · obtain ⟨rfl, rfl⟩ := run_pure_eq_ok h₂
      refine .accepted hev (settles_true ?_)
      have hbelow : ∀ k ∈ t.levels.take i, k.defining.value x = 0 := fun k hk => by
        obtain ⟨a, ha⟩ := ht.level k (List.mem_of_mem_take hk)
        exact ha.value_eq_zero
      rw [value_divRem (v := l.var) (d := g) hbelow r, hb rfl, mul_zero, zero_add,
        Poly.value_of_isZero x hc.2]
  · obtain ⟨rfl, rfl⟩ := run_pure_eq_ok h₁
    exact .rejected rfl

theorem acceptSplit_spec (hs : σ.point.Sound x) (ht : t.Over σ.point x)
    (hl : t.levels[i]? = some l) {f h : Poly}
    (hlow : ∀ w, w ≠ l.var → f.degreeOf w < Nat.pow 2 31) {o? : Option Outcome}
    (hrun : acceptSplit cfg t i l f h σ = .ok o? τ) : SoundCheck x r σ.point τ o? := by
  rw [acceptSplit] at hrun
  obtain ⟨_, σ₁, hcount, h₁⟩ := run_bind_eq_ok hrun
  have hσ₁ := count_eq_ok hcount
  rw [← hσ₁] at hs ht ⊢
  cases hdiv : t.divRem l.var i l.defining f with
  | mk q rem =>
  rw [hdiv] at h₁
  simp only at h₁
  split_ifs at h₁ with hc
  · simp only [Bool.and_eq_true] at hc
    obtain ⟨hf, hrem⟩ := factorOf_of_isProperFactor hl hc.1.1
    obtain ⟨b, σ₂, hres, h₂⟩ := run_bind_eq_ok h₁
    have hsub := Poly.toMv_eq_zero_of_isZero hc.2
    rw [Poly.toMv_sub, sub_eq_zero] at hsub
    obtain ⟨hev, -⟩ := resolve_factor_spec hs ht hf hrem hlow (by rw [hdiv]; exact hsub.symm) hres
    obtain ⟨rfl, rfl⟩ := run_pure_eq_ok h₂
    exact .accepted hev settles_replaced
  · obtain ⟨rfl, rfl⟩ := run_pure_eq_ok h₁
    exact .rejected rfl

/-! ## One prime -/

theorem images?_eq_some {v p : ℕ} {u : ResidueTower} {a : ResiduePoly}
    (h : images? t v r p = some (u, a)) :
    t.image? p = some u ∧ u.image? r = some a ∧ a.mainVar? = some v := by
  rw [images?] at h
  split at h
  · cases h
  · rename_i u' hu
    split at h
    · cases h
    · rename_i a' ha
      split_ifs at h with hc
      obtain ⟨rfl, rfl⟩ := Prod.mk.inj (Option.some.inj h)
      rw [Bool.and_eq_true, decide_eq_true_eq] at hc
      exact ⟨hu, ha, hc.1⟩

theorem recordSplit_fst {u : ResidueTower} {z : ZeroDivisor} {f h : ResiduePoly}
    (hfh : ((u.recordSplit z).levels[z.level]?).bind (·.split) = some (f, h)) : f = z.factor := by
  rw [ResidueTower.recordSplit, List.getElem?_mapIdx] at hfh
  obtain ⟨k, hk, hsplit⟩ := Option.bind_eq_some_iff.1 hfh
  obtain ⟨k', -, rfl⟩ := Option.map_eq_some_iff.1 hk
  rw [if_pos rfl] at hsplit
  exact (Prod.mk.inj (Option.some.inj hsplit)).1.symm

theorem degreeIn_of_mainDegree {v : ℕ} {a : ResiduePoly} (h : mainDegree v a = 0) :
    a.degreeIn v = 0 := by
  rw [mainDegree] at h
  split_ifs at h with hv
  · exact h
  · cases a with
    | const a => rfl
    | node w cs => exact if_neg fun hw => hv (congrArg some hw)

/-- A greatest common divisor modulo a prime without the variable shows that the value is not zero,
at whatever point the tower vanishes. -/
theorem value_ne_zero_of_mainDegree {K : Type*} [Field K] [RationalAlgebra K] {z : ℕ → K}
    (ht : t.VanishesAt z) (hl : t.levels[i]? = some l) (hr : ∀ w ∈ r.toMv.vars, w ≤ l.var) {p : ℕ}
    (hp : p.Prime) {u : ResidueTower} {a g : ResiduePoly}
    (h : images? t l.var r p = some (u, a)) (hg : u.gcd l.var (u.defining i) a = .ok g)
    (h0 : mainDegree l.var g = 0) : r.value z ≠ 0 := by
  have := algebraRat.charZero K
  obtain ⟨hu, ha, -⟩ := images?_eq_some h
  obtain ⟨P⟩ := Place.exists_place K hp
  have himage := fun P : Place K p => image?_spec hp ht hu P ha (b := l.var + 1)
    (ht.lt_reserved l (List.mem_of_getElem? hl)) fun w hw => Nat.lt_succ_of_le (hr w hw)
  exact ResidueTower.value_ne_zero_of_reduces hp ht.isMonicTower hu (d := (l.var, l.defining))
    (by rw [List.getElem?_map, hl, Option.map_some])
    ((himage P).1.trimmed fun _ hw hwu => ⟨hwu, Nat.lt_succ_iff.1 hw⟩)
    (List.forall_mem_map.2 ht.value_eq_zero) (fun P => (himage P).2) hg (degreeIn_of_mainDegree h0)

section

variable {s : SamplePoint} (he : s.Exact) (ht : t.Over s x) (hl : t.levels[i]? = some l)
  (hr : ∀ w ∈ r.toMv.vars, w ≤ l.var) {p : ℕ} (hp : p.Prime) {u : ResidueTower} {a : ResiduePoly}
  (h : images? t l.var r p = some (u, a))

include he ht hl hr hp h

/-- The exponents of the image of a greatest common divisor modulo a prime count. -/
theorem gcd_image_spec {g : ResiduePoly} (hg : u.gcd l.var (u.defining i) a = .ok g) :
    ∀ e ∈ g.image, ∀ w, w ≠ l.var → e.1.degreeOf w < Nat.pow 2 31 := by
  obtain ⟨hu, ha, -⟩ := images?_eq_some h
  obtain ⟨P⟩ := Place.exists_place ℝ hp
  have htx := ht.vanishesAt he
  have hvalid := valid_image hp htx hu
  have hdeg := degreeLE_image hu (ht.degreeOf_le he)
  have hna := (image?_spec hp htx hu P ha (b := l.var + 1)
    (htx.lt_reserved l (List.mem_of_getElem? hl)) fun w hw => Nat.lt_succ_of_le (hr w hw)).1
  obtain ⟨k, hk, -, hkv, hdef⟩ := exists_level_image hu hl
  rw [hdef, ← hkv] at hg
  rw [← hkv] at hna ⊢
  obtain ⟨hng, hbg⟩ := ResidueTower.bounded_gcd hvalid hdeg ⟨k, hk, rfl⟩ (hvalid.normal k hk) hna hg
  exact fun e he w hw => degreeOf_of_mem_image hng hbg (Nat.pow_pos (by omega)) hw he

/-- The exponents of the image of a zero divisor count. -/
theorem zeroDivisor_image_spec {z : ZeroDivisor} (hz : u.gcd l.var (u.defining i) a = .error z)
    {k : TowerLevel} (hk : t.levels[z.level]? = some k) :
    ∀ e ∈ z.factor.image, ∀ w, w ≠ k.var → e.1.degreeOf w < Nat.pow 2 31 := by
  obtain ⟨hu, ha, hav⟩ := images?_eq_some h
  obtain ⟨P⟩ := Place.exists_place ℝ hp
  have htx := ht.vanishesAt he
  have hvalid := valid_image hp htx hu
  have hdeg := degreeLE_image hu (ht.degreeOf_le he)
  have hlt := htx.lt_reserved l (List.mem_of_getElem? hl)
  have hna := (image?_spec hp htx hu P ha (b := l.var + 1) hlt
    fun w hw => Nat.lt_succ_of_le (hr w hw)).1
  obtain ⟨j, hj, -, hjv, hdef⟩ := exists_level_image hu hl
  rw [hdef, ← hjv] at hz
  rw [← hjv] at hna
  obtain ⟨m, hm, hnz, hbz⟩ :=
    ResidueTower.bounded_zeroDivisor hvalid hdeg ⟨j, hj, rfl⟩ (hvalid.normal j hj) hna hz
  obtain ⟨m', -, hm', hmv, -⟩ := exists_level_image hu hk
  obtain rfl := Option.some.inj (hm.symm.trans hm')
  rw [← hmv]
  exact fun e he w hw => degreeOf_of_mem_image hnz hbz (Nat.pow_pos (by omega)) hw he

end

/-! ## All primes -/

/-- A successful run that checks a candidate, if there is one, and goes on unless it is accepted. -/
inductive Tries {β : Type} (accept : β → PointM (Option Outcome)) (next : PointM Outcome)
    (σ : PointState) (o : Outcome) (τ : PointState) : Option β → Prop
  | missing : next σ = .ok o τ → Tries accept next σ o τ none
  | accepted {q : β} : accept q σ = .ok (some o) τ → Tries accept next σ o τ (some q)
  | rejected {q : β} {υ : PointState} : accept q σ = .ok none υ → next υ = .ok o τ →
      Tries accept next σ o τ (some q)

theorem tries_of_eq_ok {β : Type} {accept : β → PointM (Option Outcome)} {next : PointM Outcome}
    {o : Outcome} {q : β} (hrun : (do
      match ← accept q with
      | some o => return o
      | none => next) σ = .ok o τ) : Tries accept next σ o τ (some q) := by
  obtain ⟨o?, υ, haccept, hrest⟩ := run_bind_eq_ok hrun
  cases o? with
  | none => exact .rejected haccept hrest
  | some a =>
    obtain ⟨rfl, rfl⟩ := run_pure_eq_ok hrest
    exact .accepted haccept

/-- From what a check does and what the rest does, what both do. -/
theorem Tries.elim {β : Type} {accept : β → PointM (Option Outcome)} {next : PointM Outcome}
    {o : Outcome} {q? : Option β} {P : PointState → Option Outcome → Prop} {Q : Prop}
    (h : Tries accept next σ o τ q?) (hnone : P σ none)
    (haccept : ∀ q, q? = some q → ∀ o? υ, accept q σ = .ok o? υ → P υ o?)
    (hend : P τ (some o) → Q) (hnext : ∀ υ, P υ none → next υ = .ok o τ → Q) : Q := by
  cases h with
  | missing hrun => exact hnext σ hnone hrun
  | accepted hrun => exact hend (haccept _ rfl _ _ hrun)
  | rejected hrun hrest => exact hnext _ (haccept _ rfl _ _ hrun) hrest

/-- What one prime does in a successful test over several levels, where `next` goes on with the images
collected so far.  A greatest common divisor without the variable decides the test.  A prime without
images, or with a zero divisor of no level, is passed over.  Otherwise the image of the greatest common
divisor, or those of the factors of a lower level, are collected, and what is reconstructed from
them is tried. -/
inductive PrimeStep (cfg : Config) (t : Tower) (i : ℕ) (l : TowerLevel) (r : Poly) (p : ℕ)
    (next : Images → (ℕ → Images × Images) → PointM Outcome) (gcds : Images)
    (splits : ℕ → Images × Images) (σ : PointState) : Outcome → PointState → Prop
  | decided {u : ResidueTower} {a g : ResiduePoly} (images : images? t l.var r p = some (u, a))
      (gcd : u.gcd l.var (u.defining i) a = .ok g) (degree : mainDegree l.var g = 0) :
      PrimeStep cfg t i l r p next gcds splits σ (.decided false) σ
  | passed {o : Outcome} {τ : PointState} (rest : next gcds splits σ = .ok o τ) :
      PrimeStep cfg t i l r p next gcds splits σ o τ
  | common {u : ResidueTower} {a g : ResiduePoly} {o : Outcome} {τ : PointState}
      (images : images? t l.var r p = some (u, a)) (gcd : u.gcd l.var (u.defining i) a = .ok g)
      (tries : Tries (acceptGcd cfg t i l r) (next (addImage (mainDegree l.var g) p g gcds).2 splits)
        σ o τ (addImage (mainDegree l.var g) p g gcds).1) :
      PrimeStep cfg t i l r p next gcds splits σ o τ
  | factors {u : ResidueTower} {a f h : ResiduePoly} {z : ZeroDivisor} {k : TowerLevel}
      {is js : Option Poly × Images} {o : Outcome} {τ : PointState}
      (images : images? t l.var r p = some (u, a)) (gcd : u.gcd l.var (u.defining i) a = .error z)
      (level : t.levels[z.level]? = some k)
      (split : ((u.recordSplit z).levels[z.level]?).bind (·.split) = some (f, h))
      (factor : is = addImage (mainDegree k.var f) p f (splits z.level).1)
      (cofactor : js = addImage (mainDegree k.var f) p h (splits z.level).2)
      (tries : Tries (fun q => acceptSplit cfg t z.level k q.1 q.2)
        (next gcds fun j => if j = z.level then (is.2, js.2) else splits j) σ o τ
        (is.1.bind fun f => js.1.map fun h => (f, h))) :
      PrimeStep cfg t i l r p next gcds splits σ o τ

/-- The first prime in a successful test over several levels. -/
theorem overSeveral_cons_eq_ok {p : ℕ} {ps : List ℕ} {gcds : Images}
    {splits : ℕ → Images × Images} {o : Outcome}
    (hrun : overSeveral cfg t i l r (p :: ps) gcds splits σ = .ok o τ) :
    ∃ σ₁ : PointState, σ₁.point = σ.point ∧ σ₁.stats.replacements = σ.stats.replacements ∧
      PrimeStep cfg t i l r p (overSeveral cfg t i l r ps) gcds splits σ₁ o τ := by
  rw [overSeveral] at hrun
  obtain ⟨_, σ₁, hcount, h₁⟩ := run_bind_eq_ok hrun
  obtain ⟨hpoint, hstats⟩ : σ₁.point = σ.point ∧
      σ₁.stats.replacements = σ.stats.replacements := by
    cases hcount
    exact ⟨rfl, rfl⟩
  suffices h : ∃ σ₂ : PointState, σ₂.point = σ₁.point ∧
      σ₂.stats.replacements = σ₁.stats.replacements ∧
      PrimeStep cfg t i l r p (overSeveral cfg t i l r ps) gcds splits σ₂ o τ by
    rwa [hpoint, hstats] at h
  cases him : images? t l.var r p with
  | none =>
    rw [him] at h₁
    obtain ⟨_, σ₂, hcount, h₂⟩ := run_bind_eq_ok h₁
    cases hcount
    exact ⟨_, by rfl, by rfl, .passed h₂⟩
  | some ua =>
    obtain ⟨u, a⟩ := ua
    refine ⟨σ₁, rfl, rfl, ?_⟩
    rw [him] at h₁
    simp only at h₁
    cases hg : u.gcd l.var (u.defining i) a with
    | ok g =>
      rw [hg] at h₁
      simp only at h₁
      split_ifs at h₁ with h0
      · obtain ⟨rfl, rfl⟩ := run_pure_eq_ok h₁
        exact .decided him hg h0
      · refine .common him hg ?_
        generalize addImage (mainDegree l.var g) p g gcds = is at h₁ ⊢
        obtain ⟨g?, gcds'⟩ := is
        cases g? with
        | none => exact .missing h₁
        | some g => exact tries_of_eq_ok h₁
    | error z =>
      rw [hg] at h₁
      simp only at h₁
      cases hk : t.levels[z.level]? with
      | none =>
        rw [hk] at h₁
        exact .passed h₁
      | some k =>
      cases hfh : ((u.recordSplit z).levels[z.level]?).bind (·.split) with
      | none =>
        rw [hk, hfh] at h₁
        exact .passed h₁
      | some fh =>
        obtain ⟨f, h⟩ := fh
        rw [hk, hfh] at h₁
        simp only at h₁
        refine .factors him hg hk hfh rfl rfl ?_
        generalize addImage (mainDegree k.var f) p f (splits z.level).1 = is at h₁ ⊢
        generalize addImage (mainDegree k.var f) p h (splits z.level).2 = js at h₁ ⊢
        obtain ⟨f?, fs⟩ := is
        obtain ⟨h?, hs⟩ := js
        cases f? with
        | none => exact .missing h₁
        | some f =>
          cases h? with
          | none => exact .missing h₁
          | some h => exact tries_of_eq_ok (q := (f, h)) h₁

/-- The zero test over several levels. -/
theorem overSeveral_spec {ps : List ℕ} (hps : ∀ p ∈ ps, p.Prime) (hs : σ.point.Sound x)
    (ht : t.Over σ.point x) (hl : t.levels[i]? = some l) (hr : ∀ w ∈ r.toMv.vars, w ≤ l.var)
    {gcds : Images} (hgcds : ImagesFit l.var gcds) {splits : ℕ → Images × Images}
    (hsplits : ∀ j k, t.levels[j]? = some k → ImagesFit k.var (splits j).1) {o : Outcome}
    (hrun : overSeveral cfg t i l r ps gcds splits σ = .ok o τ) :
    σ.point.Evolves x τ.point ∧ Settles x r o := by
  induction ps generalizing σ gcds splits with
  | nil => cases hrun
  | cons p ps ih =>
    have hp := hps p (.head _)
    obtain ⟨σ₁, hpoint, -, hstep⟩ := overSeveral_cons_eq_ok hrun
    rw [← hpoint] at hs ht ⊢
    -- what the rest of the primes do, with images that fit
    have hrest : ∀ {is : Images}, ImagesFit l.var is → ∀ {js : ℕ → Images × Images},
        (∀ j k, t.levels[j]? = some k → ImagesFit k.var (js j).1) → ∀ υ : PointState,
        SoundCheck x r σ₁.point υ none → overSeveral cfg t i l r ps is js υ = .ok o τ →
        σ₁.point.Evolves x τ.point ∧ Settles x r o := by
      intro is his js hjs υ hυ hrun
      obtain ⟨hυ⟩ := hυ
      rw [← hυ] at hs ht ⊢
      exact ih (fun q hq => hps q (.tail _ hq)) hs ht his hjs hrun
    cases hstep with
    | decided him hg h0 =>
      exact ⟨.refl hs, settles_false
        (value_ne_zero_of_mainDegree (ht.vanishesAt hs.exact) hl hr hp him hg h0)⟩
    | passed hrun => exact hrest hgcds hsplits σ₁ (.rejected rfl) hrun
    | common him hg htries =>
      obtain ⟨hfit, hq⟩ := addImage_spec (mainDegree l.var _) p hgcds
        (gcd_image_spec hs.exact ht hl hr hp him hg)
      exact htries.elim (.rejected rfl)
        (fun q hsome o? υ haccept => acceptGcd_spec hs ht hl (hq q hsome) haccept)
        SoundCheck.spec (hrest hfit hsplits)
    | factors him hg hk hfh his hjs htries =>
      obtain rfl := recordSplit_fst hfh
      obtain ⟨hfit, hq⟩ := addImage_spec (mainDegree _ _) p (hsplits _ _ hk)
        (zeroDivisor_image_spec hs.exact ht hl hr hp him hg hk)
      rw [← his] at hfit hq
      refine htries.elim (.rejected rfl) (fun q hsome o? υ haccept => ?_) SoundCheck.spec
        (hrest hgcds fun j m hm => ?_)
      · obtain ⟨f, hf, hsome⟩ := Option.bind_eq_some_iff.1 hsome
        obtain ⟨h, -, rfl⟩ := Option.map_eq_some_iff.1 hsome
        exact acceptSplit_spec hs ht hk (hq f hf) haccept
      · split_ifs with hj
        · subst hj
          obtain rfl := Option.some.inj (hm.symm.trans hk)
          exact hfit
        · exact hsplits j m hm

end ZeroTest

end Cylindrical

end
