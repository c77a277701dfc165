import Mathlib
import Cylindrical.Proofs.Projection.FactorLinks

/-!
# Links of a projection are exact

A level takes the polynomials that wait for it, and leaves others for the levels below.  When all
levels are done, everything that was left is a product over the basis of its level, so that all
derived polynomials have links (`Run.levelsBelow_spec`, `Run.levelsBelow_error`), and numbers are
replaced by positions of links with the same signs (`project_exact`).
-/

noncomputable section

namespace Cylindrical

namespace Projection

open Cylindrical.Poly

/-- The sign of a link at a real point, read off the signs of the factors there. -/
def signOf (p : Projection) : LinkSigns := fun i x =>
  (p.links.get i).eval fun f => (p.factor? f).map fun g => .ofReal (g.poly.value x)

variable {levels : List (List ProjectionFactor)} {fs : List ProjectionFactor} {d : Derived}
  {op : ProjectionOperator} {truncate : Bool} {n : ℕ}

/-! ## One more level -/

theorem getD_append_singleton (levels : List (List ProjectionFactor)) (fs : List ProjectionFactor)
    (l : ℕ) : (levels ++ [fs]).getD l [] =
      if l = levels.length then fs else levels.getD l [] := by
  rw [List.getD_eq_getElem?_getD, List.getD_eq_getElem?_getD]
  split_ifs with hl
  · rw [hl, List.getElem?_concat_length, Option.getD_some]
  · rcases Nat.lt_or_gt_of_ne hl with hlt | hgt
    · rw [List.getElem?_append_left hlt]
    · rw [List.getElem?_eq_none (by rw [List.length_append, List.length_singleton]; omega),
        List.getElem?_eq_none hgt.le]

theorem basisAt_append_subset (levels : List (List ProjectionFactor))
    (fs : List ProjectionFactor) (l : ℕ) : basisAt levels l ⊆ basisAt (levels ++ [fs]) l := by
  rw [basisAt, basisAt, getD_append_singleton]
  split_ifs with hl
  · rw [hl, List.getD_eq_default _ _ le_rfl]
    exact List.nil_subset _
  · exact List.Subset.refl _

theorem Expressible.append {g : Poly × ℕ} (h : Expressible levels g) :
    Expressible (levels ++ [fs]) g :=
  ⟨h.order, h.ne_zero, h.exponent, productsOver_mono (basisAt_append_subset _ _ _) h.mem⟩

theorem CoprimeLevels.append (h : CoprimeLevels levels) {s : Finset ℕ}
    (hfs : CoprimeIn s (fs.map (·.poly))) : CoprimeLevels (levels ++ [fs]) := fun l => by
  rw [basisAt, getD_append_singleton]
  split_ifs
  · exact ⟨s, hfs⟩
  · exact h l

namespace Run

variable {s t : Run}

theorem IsLeft.expressible {v : ℕ} {g : Poly × ℕ} (hg : IsLeft v t g)
    (h : ∀ l < v, ∀ q ∈ t.pending.getD l [], q.toMv ∈ productsOver (basisAt levels l)) :
    Expressible levels g := by
  obtain ⟨q, hq, hqg⟩ := hg.waits
  exact ⟨hg.nonzeroIn.order, hg.nonzeroIn.ne_zero, hg.exponent, hqg ▸ h _ hg.level q hq⟩

/-- Everything that waits below a level is a product over the bases of the levels, and so is all
that is derived on the way. -/
structure LevelsOf (op : ProjectionOperator) (n : ℕ) (s t : Run)
    (levels : List (List ProjectionFactor)) : Prop where
  length : levels.length = n
  coprime : CoprimeLevels levels
  exact : ∀ level, LevelExact op t.signOf level (levels.getD level [])
  waiting : ∀ l < n, ∀ q ∈ s.pending.getD l [], q.toMv ∈ productsOver (basisAt levels l)
  derived : ∃ ds, t.derived.toList = s.derived.toList ++ ds ∧
    ∀ d ∈ ds, ∀ g ∈ d.factors, Expressible levels g

theorem LevelsOf.expressible (h : LevelsOf op n s t levels)
    (hs : ∀ d ∈ s.derived.toList, ∀ g ∈ d.factors, IsLeft n s g) :
    ∀ d ∈ t.derived.toList, ∀ g ∈ d.factors, Expressible levels g := by
  obtain ⟨ds, hds, hexpr⟩ := h.derived
  intro d hd g hg
  rcases List.mem_append.1 (hds ▸ hd) with hd | hd
  · exact (hs d hd g hg).expressible h.waiting
  · exact hexpr d hd g hg

theorem take_spec {ps : List Poly} (hs : s.Graded) (h : take n s = .ok ps t) :
    ps = s.pending.getD n [] ∧ t.derived = s.derived ∧ t.Graded ∧
      ∀ l ≠ n, t.pending.getD l [] = s.pending.getD l [] := by
  cases h
  have hget : ∀ l ≠ n, (s.pending.set n []).getD l [] = s.pending.getD l [] := fun l hl => by
    rw [List.getD_eq_getElem?_getD, List.getElem?_set_ne hl.symm, List.getD_eq_getElem?_getD]
  refine ⟨rfl, rfl, fun l q hq => ?_, hget⟩
  by_cases hl : l = n
  · subst hl
    exfalso
    revert hq
    change q ∉ (s.pending.set l []).getD l []
    rw [List.getD_eq_getElem?_getD, List.getElem?_set_self']
    cases s.pending[l]? <;> exact List.not_mem_nil
  · exact hs l q (hget l hl ▸ hq)

/-- The polynomials of a level are refined to a coprime basis. -/
theorem returns_coprimeBasis_getD (hs : s.Graded) (n : ℕ) :
    Returns (coprimeBasis (s.pending.getD n [])) fun basis =>
      CoprimeIn (below (n + 1)) basis ∧
        ∀ p ∈ s.pending.getD n [], p.toMv ∈ productsOver basis :=
  (returns_coprimeBasis fun p hp => (hs n p hp).toGradedIn).mono fun _ ⟨hcoprime, hmem, _⟩ =>
    ⟨hcoprime, fun p hp => hmem p hp (hs n p hp).ne_zero⟩

theorem factorsOf_nil_spec {inputs : List Poly} {basis : List Poly}
    (h : CoprimeIn (below (n + 1)) basis)
    (hfs : factorsOf op truncate n inputs [] basis s = .ok fs t) :
    Grows n s t ∧ fs.map (·.poly) = basis ∧ LevelExact op t.signOf n fs := by
  have hnil : LevelExact op s.signOf n [] := fun _ _ => nofun
  exact factorsOf_spec hnil
    (fun p hp => (h.canonical p hp).toGradedIn.mono (below_succ_subset n)) hfs

theorem levelsBelow_spec {inputs : List (List Poly)} (hs : s.Graded)
    (h : levelsBelow op truncate inputs n s = .ok levels t) : LevelsOf op n s t levels := by
  induction n generalizing levels s t with
  | zero =>
    obtain ⟨rfl, rfl⟩ := run_pure_eq_ok h
    exact ⟨rfl, fun _ => ⟨∅, .nil⟩, fun _ _ _ => nofun, fun _ hl => by omega, [],
      (List.append_nil _).symm, nofun⟩
  | succ n ih =>
    rw [levelsBelow] at h
    obtain ⟨ps, s₁, htake, h₁⟩ := run_bind_eq_ok h
    obtain ⟨rfl, hderived₁, hs₁, hpending₁⟩ := take_spec hs htake
    obtain ⟨basis, s₂, hlift, h₂⟩ := run_bind_eq_ok h₁
    obtain ⟨hbasis, rfl⟩ := run_lift_eq_ok hlift
    obtain ⟨hcoprime, hmem⟩ := (returns_coprimeBasis_getD hs n).of_ok hbasis
    obtain ⟨fs, s₃, hfs, h₃⟩ := run_bind_eq_ok h₂
    obtain ⟨hgrows, hpoly, hexact⟩ := factorsOf_nil_spec hcoprime hfs
    obtain ⟨levels', s₄, hlevels, h₄⟩ := run_bind_eq_ok h₃
    obtain ⟨rfl, rfl⟩ := run_pure_eq_ok h₄
    have hbelow := ih (hgrows.graded hs₁) hlevels
    obtain ⟨ds, hds, hleft⟩ := hgrows.derived
    obtain ⟨es, hes, hexpr⟩ := hbelow.derived
    refine ⟨by rw [List.length_append, hbelow.length, List.length_singleton],
      hbelow.coprime.append (hpoly ▸ hcoprime), fun l => ?_, fun l hl q hq => ?_, ds ++ es,
      by rw [hes, hds, hderived₁, List.append_assoc], fun d hd g hg => ?_⟩
    · rw [getD_append_singleton]
      split_ifs with hln
      · rw [hln, hbelow.length]
        exact hexact.mono fun _ _ _ => signOf_append hes
      · exact hbelow.exact l
    · by_cases hln : l = n
      · rw [basisAt, getD_append_singleton, if_pos (hln.trans hbelow.length.symm), hpoly]
        exact hmem q (hln ▸ hq)
      · refine productsOver_mono (basisAt_append_subset _ _ _) (hbelow.waiting l (by omega) q ?_)
        exact hgrows.pending l q (hpending₁ l hln ▸ hq)
    · rcases List.mem_append.1 hd with hd | hd
      · exact ((hleft d hd g hg).expressible hbelow.waiting).append
      · exact (hexpr d hd g hg).append

theorem levelsBelow_error {inputs : List (List Poly)} {e : DecompositionError} (hs : s.Graded)
    (h : levelsBelow op truncate inputs n s = .error e t) : OfRequest e := by
  induction n generalizing s with
  | zero => cases h
  | succ n ih =>
    rw [levelsBelow] at h
    rcases run_bind_eq_error h with h | ⟨ps, s₁, htake, h⟩
    · cases h
    obtain ⟨rfl, -, hs₁, -⟩ := take_spec hs htake
    obtain ⟨basis, hbasis, hcoprime, -⟩ := returns_coprimeBasis_getD hs n
    rw [hbasis] at h
    rcases run_bind_eq_error h with h | ⟨_, s₂, hlift, h⟩
    · cases h
    obtain ⟨hok, rfl⟩ := run_lift_eq_ok hlift
    obtain rfl := Except.ok.inj hok
    rcases run_bind_eq_error h with h | ⟨fs, s₃, hfs, h⟩
    · exact rule_ofRequest.factorsOf _ _ _ _ _ h
    obtain ⟨hgrows, -, -⟩ := factorsOf_nil_spec hcoprime hfs
    rcases run_bind_eq_error h with h | ⟨levels, s₄, -, h⟩
    · exact ih (hgrows.graded hs₁) h
    · cases h

end Run

/-! ## The whole projection -/

theorem factors_mapLinks {p : Projection} {g : ℕ → ℕ}
    (hp : p.levels = levels.map (·.map (·.mapLinks g))) (level : ℕ) :
    p.factors level = (levels.getD level []).map (·.mapLinks g) := by
  rw [factors, hp, List.getD_eq_getElem?_getD, List.getElem?_map, List.getD_eq_getElem?_getD]
  cases levels[level]? <;> rfl

/-- The link at a position has the sign of the derived polynomial it was stored for. -/
theorem signOf_of_linkOfDerived {p : Projection} {g : ℕ → ℕ}
    (hp : p.levels = levels.map (·.map (·.mapLinks g))) {i : ℕ}
    (hi : LinkOfDerived levels p.links d i) (x : ℕ → ℝ) : p.signOf i x = some (d.signAt x) := by
  obtain ⟨l, hl, hclosed, hne, hsign⟩ := hi
  have hget : p.links.get i = l := by
    rw [LinkTable.get, Array.getD_eq_getD_getElem?, hl, Option.getD_some]
  rw [signOf, hget, ← hsign]
  refine Link.eval_eq_some fun f hf => ⟨?_, hne f hf⟩
  obtain ⟨q, hq⟩ : ∃ q, (levels.getD f.1.level [])[f.1.index]? = some q :=
    ⟨_, List.getElem?_eq_getElem (hclosed f hf)⟩
  rw [factor?, factors_mapLinks hp, List.getElem?_map, hq, Option.map_some, Option.map_some,
    factorSign, basisAt, List.getD_eq_getElem?_getD, List.getElem?_map, hq]
  rfl

/-- Numbers are replaced by positions of links with the same signs. -/
theorem signOf_ids {p : Projection} {g : ℕ → ℕ}
    (hp : p.levels = levels.map (·.map (·.mapLinks g))) {t : Run} {ids : Array ℕ}
    (hids : List.Forall₂ (LinkOfDerived levels p.links) t.derived.toList ids.toList) {i : ℕ}
    {x : ℕ → ℝ} {σ : Sign} (hi : t.signOf i x = some σ) : p.signOf (ids.getD i 0) x = some σ := by
  obtain ⟨d, hd, rfl⟩ := Option.map_eq_some_iff.1 hi
  rw [← Array.getElem?_toList] at hd
  obtain ⟨hlt, rfl⟩ := List.getElem?_eq_some_iff.1 hd
  obtain ⟨hlength, hget⟩ := List.forall₂_iff_get.1 hids
  have hlink := hget i hlt (hlength ▸ hlt)
  rw [Array.getD_eq_getD_getElem?, ← Array.getElem?_toList,
    List.getElem?_eq_getElem (hlength ▸ hlt), Option.getD_some]
  exact signOf_of_linkOfDerived hp hlink x

section

variable {atoms : List Poly} {s t : Run}

/-- The requests of the polynomials of a formula. -/
theorem mapM_request_spec {is : List ℕ} (hderived : s.derived = #[])
    (hatoms : ∀ a ∈ atoms, GradedIn (below n) a)
    (h : (atoms.mapM fun a => Run.request a false) s = .ok is t) :
    Run.Grows n s t ∧ (∀ d ∈ t.derived.toList, ∀ g ∈ d.factors, Run.IsLeft n t g) ∧
      List.Forall₂ (fun a i => ∀ x, t.signOf i x = some (.ofReal (a.value x))) atoms is := by
  obtain ⟨hgrows, hall⟩ := Run.mapM_spec (v := n)
    (R := fun t (a : Poly) i => ∀ x, t.signOf i x = some (.ofReal (a.value x)))
    (fun hgrows hr x => hgrows.signOf (hr x))
    (fun a ha {_ _ _} h => Run.request_spec (hatoms a ha) h) h
  obtain ⟨ds, hds, hleft⟩ := hgrows.derived
  rw [hderived, Array.toList_empty, List.nil_append] at hds
  exact ⟨hgrows, hds ▸ hleft, hall⟩

theorem ofAtoms_spec {p : Projection} {links : List ℕ} (hs : s.Graded) (hderived : s.derived = #[])
    (hatoms : ∀ a ∈ atoms, GradedIn (below n) a)
    (h : ofAtoms op truncate atoms n s = .ok (p, links) t) :
    List.Forall₂ (fun a i => ∀ x, p.signOf i x = some (.ofReal (a.value x))) atoms links ∧
      ∀ level, LevelExact op p.signOf level (p.factors level) := by
  rw [ofAtoms, Run.count, run_modify_bind] at h
  obtain ⟨requests, s₁, hrequests, h₁⟩ := run_bind_eq_ok h
  obtain ⟨hgrows, hleft, hall⟩ :=
    mapM_request_spec (by exact hderived) hatoms hrequests
  rw [run_get_bind] at h₁
  obtain ⟨levels, s₂, hlevels, h₂⟩ := run_bind_eq_ok h₁
  have hspec := Run.levelsBelow_spec (hgrows.graded hs) hlevels
  rw [run_get_bind] at h₂
  obtain ⟨⟨ids, table⟩, s₃, hlinks, h₃⟩ := run_bind_eq_ok h₂
  obtain ⟨hstore, -⟩ := run_lift_eq_ok hlinks
  obtain ⟨hp, -⟩ := run_pure_eq_ok h₃
  obtain ⟨rfl, rfl⟩ := Prod.mk.inj hp
  obtain ⟨-, js, hjs, hids⟩ := (returns_storeLinks hspec.coprime #[] rooted_empty
    (hspec.expressible hleft)).of_ok hstore
  rw [Array.toList_empty, List.nil_append] at hjs
  rw [← hjs] at hids
  have hsign : ∀ i x σ, s₂.signOf i x = some σ → signOf ⟨op, levels.map (·.map (·.mapLinks
      fun i => ids.getD i 0)), table⟩ (ids.getD i 0) x = some σ := fun i x σ => signOf_ids rfl hids
  obtain ⟨ds, hds, -⟩ := hspec.derived
  refine ⟨List.forall₂_map_right_iff.2 (hall.imp fun a i hi x => ?_), fun level => ?_⟩
  · exact hsign i x _ (Run.signOf_append hds (hi x))
  · rw [factors_mapLinks rfl]
    exact (hspec.exact level).mapLinks hsign

theorem ofAtoms_error {e : DecompositionError} (hs : s.Graded) (hderived : s.derived = #[])
    (hatoms : ∀ a ∈ atoms, GradedIn (below n) a)
    (h : ofAtoms op truncate atoms n s = .error e t) : Run.OfRequest e := by
  rw [ofAtoms, Run.count, run_modify_bind] at h
  rcases run_bind_eq_error h with h | ⟨requests, s₁, hrequests, h⟩
  · exact raises_mapM (fun a => rule_ofRequest.request a false) h
  obtain ⟨hgrows, hleft, -⟩ :=
    mapM_request_spec (by exact hderived) hatoms hrequests
  rw [run_get_bind] at h
  rcases run_bind_eq_error h with h | ⟨levels, s₂, hlevels, h⟩
  · exact Run.levelsBelow_error (hgrows.graded hs) h
  have hspec := Run.levelsBelow_spec (hgrows.graded hs) hlevels
  rw [run_get_bind] at h
  obtain ⟨r, hr, -⟩ :=
    returns_storeLinks hspec.coprime #[] rooted_empty (hspec.expressible hleft)
  rw [hr] at h
  rcases run_bind_eq_error h with h | ⟨_, _, _, h⟩
  · cases h
  · cases h

end

section

variable {atoms : List Poly} {s t : State}

/-- Before a projection nothing waits. -/
theorem graded_start (n : ℕ) (s : State) : Run.Graded { s with pending := List.replicate n [] } :=
  fun l q hq => by
    change q ∈ (List.replicate n []).getD l [] at hq
    rw [List.getD_eq_getElem?_getD, List.getElem?_replicate] at hq
    split_ifs at hq <;> exact absurd hq List.not_mem_nil

theorem ofAtoms_of_project {r : Projection × List ℕ} (h : project op truncate atoms n s = .ok r t) :
    ∃ u, ofAtoms op truncate atoms n { s with pending := List.replicate n [] } = .ok r u := by
  rw [project] at h
  split at h
  · rename_i r' u hrun
    cases h
    exact ⟨u, hrun⟩
  · cases h

theorem levelExact_of_project {p : Projection} {links : List ℕ}
    (hatoms : ∀ a ∈ atoms, a.order = .grLex ∧ ∀ v ∈ a.vars, v < n ∧ v ≠ reservedVar)
    (h : project op truncate atoms n s = .ok (p, links) t) (level : ℕ) :
    LevelExact op p.signOf level (p.factors level) := by
  obtain ⟨u, hrun⟩ := ofAtoms_of_project h
  refine (ofAtoms_spec (graded_start n s) rfl (fun a ha => ?_) hrun).2 level
  exact ⟨(hatoms a ha).1, fun v hv => mem_below.2 ((hatoms a ha).2 v (mem_vars_iff.2 hv))⟩

end

/-- The unit circle. -/
def circle : Poly := ofPower 0 2 + ofPower 1 2 - 1

end Projection

end Cylindrical

end
