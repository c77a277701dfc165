import Mathlib
import Cylindrical.Proofs.Projection.Exact
import Cylindrical.Proofs.Projection.Filling

/-!
# The factors of a projection are well-formed

On every level the factors are canonical, square-free and pairwise coprime, they have the level as main
variable, and their links lead to lower levels; those that divide a factor of an atom are tagged so
(`factors_wellFormed`).  A level takes the parts that wait for it, and the divisors of parts are
parts (`Run.levelsBelow_wellFormed`).
-/

noncomputable section

namespace Cylindrical

namespace Projection

open Cylindrical.Poly

/-! ## Links -/

section

variable {levels : List (List ProjectionFactor)} {d : Derived} {l m : Link}

/-- The factors of a link are on the levels of the factors of a derived polynomial. -/
def OnLevelsOf (l : Link) (gs : List (Poly × ℕ)) : Prop :=
  ∀ f ∈ l.factors, ∃ g ∈ gs, f.1.level = levelOf g.1

theorem level_of_mem_foldl_insertPower {f : FactorRef × ℕ} {level k : ℕ} {powers : List (ℕ × ℕ)}
    {fs : List (FactorRef × ℕ)}
    (h : f ∈ powers.foldl (fun fs e => insertPower ⟨level, e.1⟩ (e.2 * k) fs) fs) :
    f.1.level = level ∨ ∃ g ∈ fs, f.1 = g.1 := by
  induction powers generalizing fs with
  | nil => exact .inr ⟨f, h, rfl⟩
  | cons e powers ih =>
    rcases ih h with h | ⟨g, hg, hfg⟩
    · exact .inl h
    · rcases ref_of_mem_insertPower hg with hg | ⟨k, hg⟩
      · exact .inl (by rw [hfg, hg])
      · exact .inr ⟨_, hg, hfg⟩

theorem onLevelsOf_linkOf (h : linkOf levels d = .ok l) : OnLevelsOf l d.factors := by
  have hfold : ∀ (gs : List (Poly × ℕ)) (k : Link), gs ⊆ d.factors → OnLevelsOf k d.factors →
      gs.foldlM (multiplyLink levels) k = .ok l → OnLevelsOf l d.factors := fun gs => by
    induction gs with
    | nil =>
      intro k _ hk h
      cases h
      exact hk
    | cons g gs ih =>
      intro k hgs hk h
      obtain ⟨hg, hgs⟩ := List.cons_subset.1 hgs
      rw [List.foldlM_cons] at h
      obtain ⟨m, hm, h⟩ := bind_eq_ok h
      refine ih m hgs (fun f hf => ?_) h
      rw [multiplyLink] at hm
      obtain ⟨⟨c, powers⟩, -, hm⟩ := bind_eq_ok hm
      cases hm
      rcases level_of_mem_foldl_insertPower hf with hlevel | ⟨e, he, hfe⟩
      · exact ⟨g, hg, hlevel⟩
      · obtain ⟨g', hg', hlevel⟩ := hk e he
        exact ⟨g', hg', by rw [hfe, hlevel]⟩
  rw [linkOf] at h
  split_ifs at h
  · cases h
    exact fun f hf => absurd hf List.not_mem_nil
  · exact hfold d.factors _ (List.Subset.refl _) (fun f hf => absurd hf List.not_mem_nil) h

/-- Each derived polynomial gets the position of a link on the levels of its factors. -/
theorem storeLinks_levels {ds : List Derived} {ids ids' : Array ℕ} {t u : LinkTable} (ht : Rooted t)
    (h : storeLinks levels ds ids t = .ok (ids', u)) : Prolongs t u ∧ ∃ js : List ℕ,
      ids'.toList = ids.toList ++ js ∧
        List.Forall₂ (fun d j => ∃ l, u.links[j]? = some l ∧ OnLevelsOf l d.factors) ds js := by
  induction ds generalizing ids t with
  | nil =>
    cases h
    exact ⟨fun _ _ => id, [], (List.append_nil _).symm, .nil⟩
  | cons d ds ih =>
    rw [storeLinks] at h
    obtain ⟨l, hl, h⟩ := bind_eq_ok h
    obtain ⟨hrooted, hprolongs, hstored⟩ := stored_intern ht l
    obtain ⟨hu, js, hjs, hall⟩ := @ih (ids.push (t.intern l).1) _ hrooted h
    refine ⟨fun i m hi => hu i m (hprolongs i m hi), (t.intern l).1 :: js,
      by rw [hjs, Array.toList_push, List.append_assoc, List.singleton_append], .cons ?_ hall⟩
    obtain ⟨m, hm, hsub, -⟩ := hstored.prolongs hu
    exact ⟨m, hm, fun f hf => onLevelsOf_linkOf hl f (hsub f hf)⟩

end

namespace Run

variable {s t : Run} {K : ℕ → Poly → Prop} {truncate : Bool} {n : ℕ}

/-! ## Operators -/

/-- The factor has the same polynomial, level and origin. -/
structure SameFactor (f g : ProjectionFactor) : Prop where
  poly : g.poly = f.poly
  level : g.level = f.level
  origin : g.origin = f.origin

/-- A factor with links of derived polynomials on lower levels. -/
def LinkedBelow (t : Run) (f g : ProjectionFactor) : Prop :=
  SameFactor f g ∧ ∀ i ∈ g.linkIds, BelowAt f.level t i

theorem mem_linkIds {f : ProjectionFactor} {i : ℕ} : i ∈ f.linkIds ↔
    i ∈ scanIds f.coeffLinks ∨ f.discriminant = some i ∨ i ∈ f.selfLinks ∨
      ∃ e ∈ f.pairLinks, i ∈ e.2 := by
  simp only [ProjectionFactor.linkIds, scanIds, List.mem_append, Option.mem_toList,
    List.mem_flatMap, or_assoc]

theorem filling_pairs {v : ℕ} {before : List ProjectionFactor}
    {link : ProjectionFactor × ℕ → RunM (ℕ × List ℕ)} (h : ∀ q ∈ before.zipIdx,
      Filling PartAt (link q) fun t e => ∀ i ∈ e.2, BelowAt v t i) :
    Filling PartAt (before.zipIdx.mapM link) fun t es =>
      ∀ i ∈ es.flatMap (·.2), BelowAt v t i :=
  (Filling.forall_mapM (kept_forall_belowAt v Prod.snd) h).mono fun t es hes i hi => by
    obtain ⟨e, he, hi⟩ := List.mem_flatMap.1 hi
    exact hes e he i hi

theorem filling_mcCallum {f : ProjectionFactor} {before : List ProjectionFactor}
    (hf : VarsIn (insert f.level (below f.level)) f.poly) (hself : f.selfLinks = [])
    (hbefore : ∀ q ∈ before, VarsIn (insert f.level (below f.level)) q.poly) :
    Filling PartAt (mcCallum truncate f before) fun t g => LinkedBelow t f g := by
  -- the resultants, after the discriminant
  have hpairs : ∀ (es : List (ℕ × Option ℕ)) (d : Option ℕ), Filling PartAt (do
      let pairLinks ← before.zipIdx.mapM fun q => do
        let r ← algebraically (AlgebraSystem.resultant f.level f.poly q.1.poly)
        return (q.2, [← request r false])
      return { f with coeffLinks := es, discriminant := d, pairLinks } : RunM ProjectionFactor)
      fun t g => (∀ i ∈ scanIds es, BelowAt f.level t i) → (∀ i ∈ d, BelowAt f.level t i) →
        LinkedBelow t f g := by
    refine fun es d => .bind (kept_forall_belowAt f.level (·.flatMap (·.2))) (filling_pairs ?_)
      fun pairs => .pure fun t hpairs hes hd => ⟨⟨rfl, rfl, rfl⟩, fun i hi => ?_⟩
    · intro q hq
      have hq := hbefore q.1 (List.fst_mem_of_mem_zipIdx hq)
      rw [← bind_assoc]
      exact .bind (kept_belowAt f.level)
        (filling_call_request _ fun _ => varsIn_of_subresultantCoeff hf hq) fun i =>
        .pure fun t hi => List.forall_mem_singleton.2 hi
    · rcases mem_linkIds.1 hi with hi | hi | hi | ⟨e, he, hi⟩
      · exact hes i hi
      · exact hd i hi
      · exact absurd (hself ▸ hi) List.not_mem_nil
      · exact hpairs i (List.mem_flatMap.2 ⟨e, he, hi⟩)
  rw [mcCallum]
  refine .bind (kept_forall_belowAt f.level scanIds)
    (filling_scanCoeffs fun c hc => varsIn_of_mem_coeffs_zipIdx hf hc) fun es => ?_
  by_cases hdeg : f.degree < 2
  · simp only [if_pos hdeg]
    exact (hpairs es none).mono fun t g h hes =>
      h hes fun i hi => absurd hi (Option.not_mem_none i)
  · simp only [if_neg hdeg]
    rw [← bind_assoc]
    refine .bind (kept_belowAt f.level)
      (filling_call_request _ fun _ => varsIn_of_discriminant hf) fun i => ?_
    exact (hpairs es (some i)).mono fun t g h hi hes =>
      h hes fun j hj => Option.mem_some_iff.1 hj ▸ hi

theorem varsIn_of_mem_reducta {v k : ℕ} {p : Poly} (hp : VarsIn (insert v (below v)) p) :
    ∀ r ∈ reducta v k p, VarsIn (insert v (below v)) r := by
  induction k generalizing p with
  | zero => exact List.forall_mem_nil _
  | succ k ih =>
    rw [reducta]
    split_ifs
    · exact List.forall_mem_nil _
    · exact List.forall_mem_cons.2 ⟨hp, ih hp.reductum⟩

theorem filling_hong {f : ProjectionFactor} {before : List ProjectionFactor}
    (hf : VarsIn (insert f.level (below f.level)) f.poly) (hdisc : f.discriminant = none)
    (hbefore : ∀ q ∈ before, q.level = f.level ∧ VarsIn (insert f.level (below f.level)) q.poly) :
    Filling PartAt (hong truncate f before) fun t g => LinkedBelow t f g := by
  -- the subresultants of reducta, of which those of the first one are kept
  have hheadD : ∀ {iss : List (List ℕ)} {t : Run}, (∀ is ∈ iss, ∀ i ∈ is, BelowAt f.level t i) →
      ∀ i ∈ iss.headD [], BelowAt f.level t i := fun {iss t} h => by
    cases iss with
    | nil => exact List.forall_mem_nil _
    | cons is iss => exact h is (.head _)
  rw [hong]
  refine .bind (kept_forall_belowAt f.level scanIds) (filling_scanReducedCoeffs
    (List.forall_mem_nil _) fun c hc => varsIn_of_mem_coeffs_zipIdx hf hc) fun es => ?_
  refine .bind (Q := fun t iss => ∀ is ∈ iss, ∀ i ∈ is, BelowAt f.level t i)
    (fun _ _ _ h his is hmem i hi => h.belowAt (his is hmem i hi))
    (.forall_mapM (kept_forall_belowAt f.level id) fun r hr => ?_) fun iss => ?_
  · have hr := varsIn_of_mem_reducta hf r hr
    exact filling_subresultants hr hr.derivative
  refine .bind (kept_forall_belowAt f.level (·.flatMap (·.2))) (filling_pairs ?_)
    fun pairs => .pure fun t hpairs his hes => ⟨⟨rfl, rfl, rfl⟩, fun i hi => ?_⟩
  · rintro ⟨q, j⟩ hq
    obtain ⟨hlevel, hq⟩ := hbefore q (List.fst_mem_of_mem_zipIdx hq)
    refine .bind (Q := fun t iss => ∀ is ∈ iss, ∀ i ∈ is, BelowAt f.level t i)
      (fun _ _ _ h his is hmem i hi => h.belowAt (his is hmem i hi))
      (.forall_mapM (kept_forall_belowAt f.level id) fun r hr => ?_) fun iss =>
      .pure fun t h => hheadD h
    rw [scannedReducta, hlevel] at hr
    exact filling_subresultants hf (varsIn_of_mem_reducta hq r hr)
  · rcases mem_linkIds.1 hi with hi | hi | hi | ⟨e, he, hi⟩
    · exact hes i hi
    · exact absurd (hdisc ▸ hi) (Option.not_mem_none i)
    · exact hheadD his i hi
    · exact hpairs i (List.mem_flatMap.2 ⟨e, he, hi⟩)

/-! ## Levels -/

/-- A canonical part whose links are derived polynomials on lower levels. -/
structure FactorAt (inputs : List Poly) (k : ℕ) (t : Run) (f : ProjectionFactor) : Prop where
  level : f.level = k
  canonical : f.poly.canonical = f.poly
  part : PartAt k f.poly
  links : ∀ i ∈ f.linkIds, BelowAt k t i
  origin : f.origin = .input ↔ ∃ q ∈ inputs, f.poly.toMv ∣ q.toMv

theorem FactorAt.extend {inputs : List Poly} {k : ℕ} {f : ProjectionFactor}
    (h : FactorAt inputs k s f) (hst : s.derived.toList <+: t.derived.toList) :
    FactorAt inputs k t f :=
  ⟨h.level, h.canonical, h.part, fun i hi => by
    obtain ⟨d, hd, hlow⟩ := h.links i hi
    obtain ⟨ds, hds⟩ := hst
    refine ⟨d, ?_, hlow⟩
    rw [← hds, List.getElem?_append_left (List.getElem?_eq_some_iff.1 hd).1, hd], h.origin⟩

theorem isSome_divExact?_iff {p d : Poly} (hd : d.toMv ≠ 0) :
    (p.divExact? d).isSome = true ↔ d.toMv ∣ p.toMv := by
  rw [Option.isSome_iff_exists]
  exact ⟨fun ⟨q, hq⟩ => ⟨q.toMv, (toMv_of_divExact? hq).2.trans (mul_comm _ _)⟩, exists_divExact? hd⟩

theorem filling_factorsOf {op : ProjectionOperator} {level : ℕ} {inputs ps : List Poly}
    {before : List ProjectionFactor}
    (hbefore : ∀ q ∈ before, q.level = level ∧ PartAt level q.poly)
    (hps : ∀ p ∈ ps, p.canonical = p ∧ PartAt level p) :
    Filling PartAt (factorsOf op truncate level inputs before ps) fun t fs =>
      (∀ f ∈ before, FactorAt inputs level t f) →
        fs.map (·.poly) = before.map (·.poly) ++ ps ∧ ∀ f ∈ fs, FactorAt inputs level t f := by
  induction ps generalizing before with
  | nil => exact .pure fun t h => ⟨(List.append_nil _).symm, h⟩
  | cons p ps ih =>
    obtain ⟨⟨hcanonical, hpart⟩, hps⟩ := List.forall_mem_cons.1 hps
    have hvars : ∀ {q : Poly}, PartAt level q → VarsIn (insert level (below level)) q := fun hq =>
      hq.vars.mono (below_succ_subset level)
    have hall : ∀ q ∈ before, q.level = level ∧ VarsIn (insert level (below level)) q.poly :=
      fun q hq => ⟨(hbefore q hq).1, hvars (hbefore q hq).2⟩
    intro s fs t h
    -- the factors after the one of this polynomial, which the operator has linked
    have hnext : ∀ {f g : ProjectionFactor} {s₁ : Run},
        f = ⟨p, level, if (inputs.any fun q => (q.divExact? p).isSome) = true then .input
          else .projection, [], none, [], []⟩ → Fills PartAt s s₁ ∧ LinkedBelow s₁ f g → (do
          count fun s => { s with factors := s.factors + 1 }
          factorsOf op truncate level inputs (before ++ [g]) ps : RunM (List ProjectionFactor)) s₁ =
            .ok fs t →
        Fills PartAt s t ∧ ((∀ f ∈ before, FactorAt inputs level t f) →
          fs.map (·.poly) = before.map (·.poly) ++ p :: ps ∧
            ∀ f ∈ fs, FactorAt inputs level t f) := by
      rintro _ g s₁ rfl ⟨hfills₁, hsame, hlinks⟩ h
      obtain ⟨_, s₂, hcount, h⟩ := run_bind_eq_ok h
      have hfills₂ := (filling_count (K := PartAt) _ _ _ _ hcount).1
      obtain ⟨hfills₃, hrest⟩ := ih (List.forall_mem_append.2 ⟨hbefore,
        List.forall_mem_singleton.2 ⟨hsame.level, hsame.poly ▸ hpart⟩⟩) hps s₂ fs t h
      refine ⟨(hfills₁.trans hfills₂).trans hfills₃, fun hb => ?_⟩
      have hg : FactorAt inputs level t g := by
        refine ⟨hsame.level, by rw [hsame.poly, hcanonical], hsame.poly ▸ hpart,
          fun i hi => hfills₃.belowAt (hfills₂.belowAt (hlinks i hi)), ?_⟩
        have hany : (inputs.any fun q => (q.divExact? p).isSome) = true ↔
            ∃ q ∈ inputs, p.toMv ∣ q.toMv := by
          simp only [List.any_eq_true, isSome_divExact?_iff hpart.ne_zero]
        rw [hsame.origin, hsame.poly]
        dsimp only
        rw [← hany]
        split_ifs with h
        · exact ⟨fun _ => h, fun _ => rfl⟩
        · exact ⟨nofun, fun h' => absurd h' h⟩
      obtain ⟨hmap, hfs⟩ := hrest (List.forall_mem_append.2 ⟨hb, List.forall_mem_singleton.2 hg⟩)
      refine ⟨?_, hfs⟩
      rw [hmap, List.map_append, List.map_singleton, hsame.poly, List.append_assoc,
        List.singleton_append]
    rw [factorsOf.eq_def] at h
    cases op with
    | mcCallum =>
      obtain ⟨g, s₁, hg, h⟩ := run_bind_eq_ok h
      refine hnext rfl (filling_mcCallum ?_ rfl ?_ s g s₁ hg) h
      · exact hvars hpart
      · exact fun q hq => (hall q hq).2
    | hong =>
      obtain ⟨g, s₁, hg, h⟩ := run_bind_eq_ok h
      refine hnext rfl (filling_hong ?_ rfl ?_ s g s₁ hg) h
      · exact hvars hpart
      · exact hall

/-- Only parts wait. -/
def WaitingParts (s : Run) : Prop := ∀ l, ∀ q ∈ s.pending.getD l [], PartAt l q

theorem Fills.waitingParts (h : Fills PartAt s t) (hs : s.WaitingParts) : t.WaitingParts :=
  fun l q hq => (h.waits l q hq).elim (hs l q) id

theorem take_waitingParts {ps : List Poly} (hs : s.WaitingParts) (h : take n s = .ok ps t) :
    (∀ p ∈ ps, PartAt n p) ∧ t.derived = s.derived ∧ t.WaitingParts := by
  cases h
  refine ⟨fun p hp => hs n p hp, rfl, fun l q hq => hs l q ?_⟩
  change q ∈ (s.pending.set n []).getD l [] at hq
  rw [List.getD_eq_getElem?_getD, List.getElem?_set] at hq
  split_ifs at hq with hl hlt
  · exact absurd hq List.not_mem_nil
  · exact absurd hq List.not_mem_nil
  · rwa [List.getD_eq_getElem?_getD]

/-- Factors of a level that are pairwise coprime. -/
structure LevelAt (inputs : List Poly) (k : ℕ) (t : Run) (fs : List ProjectionFactor) : Prop where
  factors : ∀ f ∈ fs, FactorAt inputs k t f
  coprime : fs.Pairwise fun f g => IsRelPrime f.poly.toMv g.poly.toMv

theorem levelsBelow_wellFormed {op : ProjectionOperator} {inputs : List (List Poly)}
    {levels : List (List ProjectionFactor)} (hs : s.WaitingParts)
    (h : levelsBelow op truncate inputs n s = .ok levels t) :
    s.derived.toList <+: t.derived.toList ∧
      ∀ k, LevelAt (inputs.getD k []) k t (levels.getD k []) := by
  induction n generalizing levels s t with
  | zero =>
    obtain ⟨rfl, rfl⟩ := run_pure_eq_ok h
    exact ⟨List.prefix_rfl, fun k => ⟨fun _ hf => absurd hf List.not_mem_nil, .nil⟩⟩
  | succ n ih =>
    rw [levelsBelow] at h
    obtain ⟨ps, s₁, htake, h₁⟩ := run_bind_eq_ok h
    obtain ⟨hps, hderived, hs₁⟩ := take_waitingParts hs htake
    obtain ⟨basis, s₂, hlift, h₂⟩ := run_bind_eq_ok h₁
    obtain ⟨hbasis, rfl⟩ := run_lift_eq_ok hlift
    have hbasis := basisOf_coprimeBasis hbasis
    obtain ⟨fs, s₃, hfs, h₃⟩ := run_bind_eq_ok h₂
    have hparts : ∀ b ∈ basis, b.canonical = b ∧ PartAt n b := fun b hb => by
      obtain ⟨p, hp, hbp⟩ := hbasis.dvd b hb
      have hpart := hps p hp
      refine ⟨hbasis.canonical b hb, hpart.of_dvd hbp fun hn => hbasis.not_isUnit b hb ?_⟩
      exact (isUnit_iff_isNumber (ne_zero_of_dvd_ne_zero hpart.ne_zero hbp)).2 hn
    have hnil : ∀ {C : ProjectionFactor → Prop}, ∀ f ∈ [], C f := fun _ hf =>
      absurd hf List.not_mem_nil
    obtain ⟨hfills, hlevel⟩ := filling_factorsOf hnil hparts _ _ _ hfs
    obtain ⟨hmap, hfactors⟩ := hlevel hnil
    obtain ⟨levels', s₄, hlevels, h₄⟩ := run_bind_eq_ok h₃
    obtain ⟨rfl, rfl⟩ := run_pure_eq_ok h₄
    obtain ⟨hderived', hbelow⟩ := ih (hfills.waitingParts hs₁) hlevels
    refine ⟨hderived ▸ hfills.derived.trans hderived', fun k => ?_⟩
    rw [getD_append_singleton]
    split_ifs with hk
    · rw [hk, length_levelsBelow hlevels]
      refine ⟨fun f hf => (hfactors f hf).extend hderived', ?_⟩
      have hpairwise : (fs.map (·.poly)).Pairwise fun p q => IsRelPrime p.toMv q.toMv :=
        hmap ▸ hbasis.pairwise
      rwa [List.pairwise_map] at hpairwise
    · exact hbelow k

/-! ## Atoms -/

/-- A part that is a factor of one of the polynomials. -/
def AtomPart (atoms : List Poly) (l : ℕ) (q : Poly) : Prop :=
  PartAt l q ∧ ∃ a ∈ atoms, ∃ F, a.factor = .ok F ∧ ∃ g ∈ F.factors, g.1 = q

theorem factors_of_isNumber {p : Poly} {F : Factorization} (hn : p.isNumber = true)
    (h : p.factor = .ok F) : F.factors = [] := by
  rw [factor] at h
  split_ifs at h
  · cases h
    rfl
  · obtain ⟨fs, hfs, h⟩ := bind_eq_ok h
    cases h
    have hv : p.canonical.mainVar? = none := by
      rw [mainVar?_eq_none_iff, isNumber_iff_vars, vars_eq_of_associated (associated_canonical p)]
      exact isNumber_iff_vars.1 hn
    rw [factorsUpTo, hv] at hfs
    cases hfs
    rfl

/-- All factors of the polynomials wait on the levels of their main variables. -/
def FactorsWait (atoms : List Poly) (t : Run) : Prop :=
  ∀ a ∈ atoms, ∀ F, a.factor = .ok F → ∀ g ∈ F.factors, t.WaitsFor g.1

theorem filling_requests {atoms as : List Poly} (hatoms : ∀ a ∈ atoms, reservedVar ∉ a.toMv.vars)
    (has : as ⊆ atoms) : Filling (AtomPart atoms) (as.mapM fun a => request a false) fun t _ =>
      FactorsWait as t := by
  have hkept : ∀ {bs : List Poly} {α : Type}, Kept (AtomPart atoms) fun t (_ : α) =>
      FactorsWait bs t := fun _ _ _ h hall a ha F hF g hg => h.waitsFor (hall a ha F hF g hg)
  induction as with
  | nil => exact .pure fun _ => nofun
  | cons a as ih =>
    obtain ⟨ha, has⟩ := List.cons_subset.1 has
    have hrequest : Filling (AtomPart atoms) (request a false) fun t _ => FactorsWait [a] t := by
      refine (filling_request (v := 0) false fun F hF g hg => ?_).mono fun t i h => ?_
      · refine ⟨partAt_of_isFactorOf (hatoms a ha) (fun h0 => ?_)
          (isFactorOf_of_mem_factor (hatoms a ha) hF g hg), a, ha, F, hF, g, hg, rfl⟩
        rw [factors_of_isNumber (isNumber_iff.2 ⟨0, by rw [h0, MvPolynomial.C_0]⟩) hF] at hg
        cases hg
      · refine List.forall_mem_singleton.2 fun F hF g hg => ?_
        rcases h.2 with hn | ⟨F', hF', hwaits⟩
        · rw [factors_of_isNumber hn hF] at hg
          cases hg
        · obtain rfl := Except.ok.inj (hF.symm.trans hF')
          exact hwaits g hg
    rw [List.mapM_cons]
    exact .bind hkept hrequest fun _ => .bind hkept (ih has) fun _ => .pure fun t has ha =>
      List.forall_mem_cons.2 ⟨ha a (.head _), has⟩

end Run

/-! ## The whole projection -/

/-- The polynomial divides a factor with the main variable `k` of a polynomial of the list. -/
def DividesFactor (atoms : List Poly) (k : ℕ) (p : Poly) : Prop :=
  ∃ a ∈ atoms, ∃ F, a.factor = .ok F ∧ ∃ g ∈ F.factors, g.1.mainVar? = some k ∧ p.toMv ∣ g.1.toMv

/-- A factor of the level `k`, as lifting relies on it. -/
structure WellFormed (p : Projection) (atoms : List Poly) (k : ℕ) (f : ProjectionFactor) :
    Prop where
  level : f.level = k
  canonical : f.poly.canonical = f.poly
  squarefree : Squarefree f.poly.toMv
  mainVar : f.poly.mainVar? = some k
  degree : 0 < f.poly.degreeOf k
  vars : ∀ v ∈ f.poly.vars, v ≤ k
  links : ∀ i ∈ f.linkIds, ∀ r ∈ (p.links.get i).factors,
    r.1.level < k ∧ (p.factor? r.1).isSome = true
  origin : f.origin = .input ↔ DividesFactor atoms k f.poly

variable {op : ProjectionOperator} {truncate : Bool} {atoms : List Poly} {n : ℕ}

theorem isSome_factor? {p : Projection} (h : p.Closed) {i : ℕ} {r : FactorRef × ℕ}
    (hr : r ∈ (p.links.get i).factors) : (p.factor? r.1).isSome = true := by
  rw [factor?, factors, List.getElem?_eq_getElem (h i r hr)]
  rfl

/-- The link of a derived polynomial on lower levels leads to lower levels. -/
theorem level_lt_of_belowAt {s : Run} {ids : Array ℕ} {table : LinkTable} {k j : ℕ}
    (hids : List.Forall₂ (fun (d : Derived) i => ∃ l, table.links[i]? = some l ∧
      OnLevelsOf l d.factors) s.derived.toList ids.toList) (hj : Run.BelowAt k s j)
    {r : FactorRef × ℕ} (hr : r ∈ (table.get (ids.getD j 0)).factors) : r.1.level < k := by
  obtain ⟨d, hd, hlow⟩ := hj
  obtain ⟨hlt, rfl⟩ := List.getElem?_eq_some_iff.1 hd
  obtain ⟨hlength, hget⟩ := List.forall₂_iff_get.1 hids
  obtain ⟨l, hl, hon⟩ := hget j hlt (hlength ▸ hlt)
  have hid : ids.getD j 0 = ids.toList.get ⟨j, hlength ▸ hlt⟩ := by
    rw [Array.getD_eq_getD_getElem?, ← Array.getElem?_toList,
      List.getElem?_eq_getElem (hlength ▸ hlt), Option.getD_some]
    rfl
  rw [hid, LinkTable.get, Array.getD_eq_getD_getElem?, hl, Option.getD_some] at hr
  obtain ⟨g, hg, hlevel⟩ := hon r hr
  exact hlevel ▸ hlow g hg

theorem ofAtoms_wellFormed {p : Projection} {links : List ℕ} {s t : Run}
    (hs : ∀ l, s.pending.getD l [] = [])
    (hatoms : ∀ a ∈ atoms, reservedVar ∉ a.toMv.vars) (hclosed : p.Closed)
    (h : ofAtoms op truncate atoms n s = .ok (p, links) t) (k : ℕ) :
    (∀ f ∈ p.factors k, p.WellFormed atoms k f) ∧
      (p.factors k).Pairwise fun f g => IsRelPrime f.poly.toMv g.poly.toMv := by
  rw [ofAtoms, Run.count, run_modify_bind] at h
  obtain ⟨requests, s₁, hrequests, h₁⟩ := run_bind_eq_ok h
  obtain ⟨hfills, hwaits⟩ := Run.filling_requests hatoms (List.Subset.refl _) _ _ _ hrequests
  have hinputs : ∀ l, ∀ q ∈ s₁.pending.getD l [], Run.AtomPart atoms l q := fun l q hq =>
    (hfills.waits l q hq).resolve_left fun h0 => by
      rw [hs l] at h0
      cases h0
  rw [run_get_bind] at h₁
  obtain ⟨levels, s₂, hlevels, h₂⟩ := run_bind_eq_ok h₁
  obtain ⟨-, hspec⟩ := Run.levelsBelow_wellFormed (fun l q hq => (hinputs l q hq).1) hlevels
  rw [run_get_bind] at h₂
  obtain ⟨⟨ids, table⟩, s₃, hlinks, h₃⟩ := run_bind_eq_ok h₂
  obtain ⟨hstore, -⟩ := run_lift_eq_ok hlinks
  obtain ⟨hp, -⟩ := run_pure_eq_ok h₃
  obtain ⟨rfl, rfl⟩ := Prod.mk.inj hp
  obtain ⟨-, js, hjs, hids⟩ := storeLinks_levels rooted_empty hstore
  rw [Array.toList_empty, List.nil_append] at hjs
  rw [factors_mapLinks rfl]
  refine ⟨List.forall_mem_map.2 fun f hf => ?_, List.pairwise_map.2 (hspec k).coprime⟩
  have hfactor := (hspec k).factors f hf
  have hpart := hfactor.part
  refine ⟨hfactor.level, hfactor.canonical, hpart.squarefree, hpart.mainVar, ?_, fun v hv => ?_,
    fun i hi r hr => ⟨?_, isSome_factor? hclosed hr⟩, hfactor.origin.trans ⟨?_, ?_⟩⟩
  · exact Nat.pos_of_ne_zero fun h0 => degreeOf_eq_zero_iff.1 h0 (mem_vars_of_mainVar? hpart.mainVar)
  · exact Nat.le_of_lt_succ (mem_below.1 (hpart.vars (mem_vars_iff.1 hv))).1
  · rw [ProjectionFactor.linkIds_mapLinks] at hi
    obtain ⟨j, hj, rfl⟩ := List.mem_map.1 hi
    exact level_lt_of_belowAt (hjs ▸ hids) (hfactor.links j hj) hr
  · rintro ⟨q, hq, hfq⟩
    obtain ⟨hq, a, ha, F, hF, g, hg, rfl⟩ := hinputs k q hq
    exact ⟨a, ha, F, hF, g, hg, hq.mainVar, hfq⟩
  · rintro ⟨a, ha, F, hF, g, hg, hk, hfg⟩
    obtain ⟨q, hq, hqg⟩ := hwaits a ha F hF g hg
    rw [levelOf, hk, Option.getD_some] at hq
    exact ⟨q, hq, hqg ▸ hfg⟩

end Projection

end Cylindrical

end
