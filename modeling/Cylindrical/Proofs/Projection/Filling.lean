import Mathlib
import Cylindrical.Proofs.Poly.Parts
import Cylindrical.Proofs.Projection.FactorLinks

/-!
# What a projection leaves for the lower levels

The operators derive polynomials in lower variables from the factors of a level, and leave square-free
parts of them for the levels of their main variables (`PartAt`).  The numbers of derived polynomials
that are handed out stand for products of such parts (`BelowAt`).  Nothing here depends on the order
of monomials.
-/

noncomputable section

namespace Cylindrical

namespace ProjectionFactor

/-- The links of coefficients, of the discriminant, of subresultants and of other factors. -/
def linkIds (f : ProjectionFactor) : List ℕ :=
  f.coeffLinks.filterMap (·.2) ++ f.discriminant.toList ++ f.selfLinks ++ f.pairLinks.flatMap (·.2)

theorem linkIds_mapLinks (g : ℕ → ℕ) (f : ProjectionFactor) :
    (f.mapLinks g).linkIds = f.linkIds.map g := by
  simp only [linkIds, mapLinks, List.map_append, List.filterMap_map, List.map_filterMap,
    List.flatMap_map, List.map_flatMap]
  cases f.discriminant <;> rfl

end ProjectionFactor

namespace Projection

open Cylindrical.Poly

variable {v l : ℕ} {p q : Poly}

/-- A square-free part with the main variable `l`, in lower variables. -/
structure PartAt (l : ℕ) (p : Poly) : Prop extends IsPart l p where
  mainVar : p.mainVar? = some l
  vars : VarsIn (below (l + 1)) p

theorem partAt_of_isFactorOf (hreserved : reservedVar ∉ p.toMv.vars) (hp0 : p.toMv ≠ 0)
    (h : IsFactorOf p q) : PartAt (levelOf q) q := by
  obtain ⟨v, hv, hpart⟩ := h.part
  have hr : reservedVar ∉ q.toMv.vars := fun hr => hreserved (vars_subset_of_dvd hp0 h.dvd hr)
  rw [levelOf, hv, Option.getD_some]
  exact ⟨hpart, hv, fun w hw => mem_below.2
    ⟨Nat.lt_succ_of_le (le_of_mainVar? hr hv hw), fun he => hr (he ▸ hw)⟩⟩

theorem PartAt.of_dvd (h : PartAt l p) (hd : q.toMv ∣ p.toMv) (hn : ¬q.isNumber = true) :
    PartAt l q where
  toIsPart := h.toIsPart.of_dvd hd
  mainVar := (h.toIsPart.of_dvd hd).mainVar?_of_dvd h.ne_zero
    (fun hr => (mem_below.1 (h.vars hr)).2 rfl) h.mainVar hd hn
  vars := h.vars.of_dvd h.ne_zero hd

/-! ## Filling the levels -/

namespace Run

variable {s t u : Run} {K : ℕ → Poly → Prop} {truncate : Bool}

/-- Polynomials that come to wait at a level are in `K`, and all numbers of derived polynomials stay. -/
structure Fills (K : ℕ → Poly → Prop) (s t : Run) : Prop where
  waits : ∀ l, ∀ q ∈ t.pending.getD l [], q ∈ s.pending.getD l [] ∨ K l q
  kept : ∀ l, ∀ q ∈ s.pending.getD l [], q ∈ t.pending.getD l []
  derived : s.derived.toList <+: t.derived.toList

/-- A derived polynomial that is a product of polynomials on lower levels. -/
def BelowAt (v : ℕ) (s : Run) (i : ℕ) : Prop :=
  ∃ d, s.derived.toList[i]? = some d ∧ ∀ g ∈ d.factors, levelOf g.1 < v

namespace Fills

theorem refl (s : Run) : Fills K s s := ⟨fun _ _ => .inl, fun _ _ => id, List.prefix_rfl⟩

theorem of_eq (hp : t.pending = s.pending) (hd : t.derived = s.derived) : Fills K s t :=
  ⟨fun _ _ hq => .inl (hp ▸ hq), fun _ _ hq => hp ▸ hq, hd ▸ List.prefix_rfl⟩

theorem trans (h₁ : Fills K s t) (h₂ : Fills K t u) : Fills K s u where
  waits l q hq := (h₂.waits l q hq).elim (h₁.waits l q) .inr
  kept l q hq := h₂.kept l q (h₁.kept l q hq)
  derived := h₁.derived.trans h₂.derived

theorem belowAt {i : ℕ} (h : Fills K s t) (hi : BelowAt v s i) : BelowAt v t i := by
  obtain ⟨d, hd, hlow⟩ := hi
  obtain ⟨ds, hds⟩ := h.derived
  refine ⟨d, ?_, hlow⟩
  rw [← hds, List.getElem?_append_left (List.getElem?_eq_some_iff.1 hd).1, hd]

theorem waitsFor (h : Fills K s t) (hp : s.WaitsFor p) : t.WaitsFor p := by
  obtain ⟨q, hq, hqp⟩ := hp
  exact ⟨q, h.kept _ q hq, hqp⟩

end Fills

/-- A computation that fills the levels with polynomials in `K`, and whose results are in `Q`. -/
def Filling {α : Type} (K : ℕ → Poly → Prop) (x : RunM α) (Q : Run → α → Prop) : Prop :=
  ∀ s a t, x s = .ok a t → Fills K s t ∧ Q t a

/-- A property of results that filling keeps. -/
def Kept {α : Type} (K : ℕ → Poly → Prop) (Q : Run → α → Prop) : Prop :=
  ∀ s t a, Fills K s t → Q s a → Q t a

namespace Filling

variable {α β : Type} {x : RunM α} {f : α → RunM β} {Q Q' : Run → α → Prop} {R : Run → β → Prop}

theorem mono (h : Filling K x Q) (hQ : ∀ t a, Q t a → Q' t a) : Filling K x Q' := fun s a t hx =>
  (h s a t hx).imp_right (hQ t a)

theorem pure {a : α} (h : ∀ t, Q t a) : Filling K (Pure.pure a) Q := fun s b t hx => by
  obtain ⟨rfl, rfl⟩ := run_pure_eq_ok hx
  exact ⟨.refl _, h _⟩

theorem bind (hQ : Kept K Q) (hx : Filling K x Q)
    (hf : ∀ a, Filling K (f a) fun t b => Q t a → R t b) : Filling K (x >>= f) R :=
  fun s b u hb => by
    obtain ⟨a, t, ha, hb⟩ := run_bind_eq_ok hb
    obtain ⟨hst, hqa⟩ := hx s a t ha
    obtain ⟨htu, hr⟩ := hf a t b u hb
    exact ⟨hst.trans htu, hr (hQ t u a htu hqa)⟩

/-- A step whose result does not depend on the state. -/
theorem bind_const {C : α → Prop} (hx : Filling K x fun _ => C)
    (hf : ∀ a, C a → Filling K (f a) R) : Filling K (x >>= f) R := fun s b u hb => by
  obtain ⟨a, t, ha, hb⟩ := run_bind_eq_ok hb
  obtain ⟨hst, hc⟩ := hx s a t ha
  obtain ⟨htu, hr⟩ := hf a hc t b u hb
  exact ⟨hst.trans htu, hr⟩

theorem forall_mapM {xs : List β} {f : β → RunM α} (hQ : Kept K Q)
    (hf : ∀ b ∈ xs, Filling K (f b) Q) : Filling K (xs.mapM f) fun t ys => ∀ y ∈ ys, Q t y := by
  induction xs with
  | nil => exact .pure fun _ => nofun
  | cons b xs ih =>
    obtain ⟨hb, hxs⟩ := List.forall_mem_cons.1 hf
    rw [List.mapM_cons]
    have hall : Kept K fun t (ys : List α) => ∀ y ∈ ys, Q t y := fun s t ys hst hys z hz =>
      hQ s t z hst (hys z hz)
    exact .bind hQ hb fun y => .bind hall (ih hxs) fun ys => .pure fun _ hys hy =>
      List.forall_mem_cons.2 ⟨hy, hys⟩

end Filling

theorem kept_belowAt (v : ℕ) : Kept K (BelowAt v) := fun _ _ _ h => h.belowAt

theorem kept_forall_belowAt {α : Type} (v : ℕ) (ids : α → List ℕ) :
    Kept K fun t a => ∀ i ∈ ids a, BelowAt v t i :=
  fun _ _ _ h hi i hmem => h.belowAt (hi i hmem)

/-! ## Steps -/

theorem filling_algebraically {α : Type} (y : AlgebraM α) :
    Filling K (algebraically y) fun _ a => ∃ s t, y s = .ok a t := fun s a t h => by
  obtain ⟨w, hw, rfl⟩ := run_focus_eq_ok h
  exact ⟨.of_eq rfl rfl, _, w, hw⟩

theorem filling_call {α : Type} (f : CallCounts → CallCounts) (y : Algebra α) :
    Filling K (algebraically (AlgebraSystem.call f y)) fun _ a => y = .ok a :=
  (filling_algebraically _).mono fun _ _ ⟨_, _, h⟩ => AlgebraSystem.call_eq_ok h

theorem filling_count (f : Stats → Stats) : Filling K (count f) fun _ _ => True := fun s a t h => by
  cases h
  exact ⟨.of_eq rfl rfl, trivial⟩

theorem filling_countTruncation (k : ℕ) : Filling K (countTruncation k) fun _ _ => True := by
  rw [countTruncation]
  split_ifs
  · exact filling_count _
  · exact .pure fun _ => trivial

theorem filling_store (d : Derived) :
    Filling K (store d) fun t i => t.derived.toList[i]? = some d := fun s i t h => by
  cases h
  exact ⟨⟨fun _ _ => .inl, fun _ _ => id, [d], Array.toList_push.symm⟩,
    Array.getElem?_toList.trans Array.getElem?_push_size⟩

theorem filling_leave (hp : K (levelOf p) p) : Filling K (leave p) fun t _ => t.WaitsFor p := by
  intro s r t h
  refine ⟨?_, waitsFor_of_leave h⟩
  obtain ⟨hderived, ⟨hpending, -⟩ | hpending⟩ := leave_eq_ok h
  · exact .of_eq hpending hderived
  · refine ⟨fun l q hq => ?_, fun l q hq => ?_, hderived ▸ List.prefix_rfl⟩
    · rw [hpending] at hq
      split_ifs at hq with hl
      · rcases List.mem_append.1 hq with hq | hq
        · exact .inl hq
        · exact .inr (hl ▸ List.mem_singleton.1 hq ▸ hp)
      · exact .inl hq
    · rw [hpending]
      split_ifs
      · exact List.mem_append_left _ hq
      · exact hq

theorem filling_forM_leave {gs : List (Poly × ℕ)} (hgs : ∀ g ∈ gs, K (levelOf g.1) g.1) :
    Filling K (gs.forM fun g => leave g.1) fun t _ => ∀ g ∈ gs, t.WaitsFor g.1 := by
  induction gs with
  | nil => exact .pure fun _ => nofun
  | cons g gs ih =>
    obtain ⟨hg, hgs⟩ := List.forall_mem_cons.1 hgs
    rw [List.forM_eq_forM, List.forM_cons]
    exact .bind (fun _ _ _ h => h.waitsFor) (filling_leave hg) fun _ =>
      (ih hgs).mono fun _ _ hall hw => List.forall_mem_cons.2 ⟨hw, hall⟩

/-- A request leaves the factors of its polynomial, and hands out the number of their product. -/
theorem filling_request (negated : Bool)
    (hK : ∀ F, p.factor = .ok F → ∀ g ∈ F.factors, K (levelOf g.1) g.1) :
    Filling K (request p negated) fun t i => (VarsIn (below v) p → BelowAt v t i) ∧
      (p.isNumber = true ∨ ∃ F, p.factor = .ok F ∧ ∀ g ∈ F.factors, t.WaitsFor g.1) := by
  have hstore : ∀ (d : Derived), Filling K (store (if negated then { d with sign := -d.sign } else d))
      fun t i => ∃ e, t.derived.toList[i]? = some e ∧ e.factors = d.factors := fun d =>
    (filling_store _).mono fun t i hi => ⟨_, hi, by cases negated <;> rfl⟩
  rw [request]
  refine .bind_const (filling_count _) fun _ _ => ?_
  by_cases hn : p.isNumber = true
  · rw [if_pos hn]
    refine .bind_const (C := (· = { sign := .ofRat p.constantValue })) (.pure fun _ => rfl) ?_
    rintro d rfl
    refine (hstore _).mono ?_
    rintro t i ⟨e, he, hfactors⟩
    exact ⟨fun _ => ⟨e, he, fun g hg => absurd (hfactors ▸ hg) List.not_mem_nil⟩, .inl hn⟩
  · rw [if_neg hn]
    refine .bind_const (filling_call _ _) fun F hF => ?_
    have hkept : Kept K fun t (_ : PUnit) => ∀ g ∈ F.factors, t.WaitsFor g.1 :=
      fun _ _ _ h hall g hg => h.waitsFor (hall g hg)
    refine .bind hkept (filling_forM_leave (hK F hF)) fun _ =>
      .bind_const (C := (· = ⟨.ofRat F.constant, F.factors⟩)) (.pure fun _ => rfl) ?_
    rintro d rfl
    refine (hstore _).mono ?_
    rintro t i ⟨e, he, hfactors⟩ hwaits
    refine ⟨fun hp => ⟨e, he, fun g hg => ?_⟩, .inr ⟨F, hF, hwaits⟩⟩
    have hp0 : p.toMv ≠ 0 := toMv_ne_zero_of_not_isNumber (by simpa using hn)
    have hfactor := isFactorOf_of_mem_factor (fun hr => (mem_below.1 (hp hr)).2 rfl) hF g
      (by rwa [hfactors] at hg)
    obtain ⟨w, hw, -⟩ := hfactor.part
    rw [levelOf, hw, Option.getD_some]
    exact (mem_below.1 (hp (vars_subset_of_dvd hp0 hfactor.dvd (mem_vars_of_mainVar? hw)))).1

/-- What is requested of polynomials below a level fills lower levels with parts. -/
theorem filling_request_of_varsIn (negated : Bool) (hp : VarsIn (below v) p) :
    Filling PartAt (request p negated) (BelowAt v) := by
  refine (filling_request (v := v) negated fun F hF g hg => ?_).mono fun t i h => h.1 hp
  have hreserved : reservedVar ∉ p.toMv.vars := fun hr => (mem_below.1 (hp hr)).2 rfl
  by_cases hp0 : p.toMv = 0
  · rw [factor, if_pos (toMv_eq_zero_iff.1 hp0)] at hF
    cases hF
    cases hg
  · exact partAt_of_isFactorOf hreserved hp0 (isFactorOf_of_mem_factor hreserved hF g hg)

/-- A polynomial that is computed and requested. -/
theorem filling_call_request {y : Algebra Poly} (f : CallCounts → CallCounts)
    (hy : ∀ d, y = .ok d → VarsIn (below v) d) :
    Filling PartAt (algebraically (AlgebraSystem.call f y) >>= fun d => request d false)
      (BelowAt v) :=
  .bind_const (filling_call _ _) fun d hd => filling_request_of_varsIn false (hy d hd)

theorem filling_subresultants {n : ℕ} (hp : VarsIn (insert v (below v)) p)
    (hq : VarsIn (insert v (below v)) q) :
    Filling PartAt (subresultants v p q n) fun t is => ∀ i ∈ is, BelowAt v t i :=
  .forall_mapM (kept_belowAt v) fun _ _ =>
    filling_call_request _ fun _ => varsIn_of_subresultantCoeff hp hq

/-! ## Coefficients -/

/-- The numbers in the entries of a scan. -/
def scanIds (es : List (ℕ × Option ℕ)) : List ℕ := es.filterMap (·.2)

theorem varsIn_of_mem_coeffs_zipIdx (hp : VarsIn (insert v (below v)) p) {c : Poly × ℕ}
    (h : c ∈ (p.coeffs v).zipIdx.reverse) : VarsIn (below v) c.1 := by
  rw [mem_coeffs_zipIdx h]
  exact hp.coeff c.2

theorem filling_store_zero : Filling PartAt (store { sign := .zero }) (BelowAt v) :=
  (filling_store _).mono fun _ _ hi => ⟨_, hi, nofun⟩

/-- One more entry in front of those of a scan. -/
theorem Filling.consEntry {x : RunM (List (ℕ × Option ℕ))} {k : ℕ} {i? : Option ℕ}
    (h : Filling K x fun t es => ∀ i ∈ scanIds es, BelowAt v t i) :
    Filling K (x >>= fun es => Pure.pure ((k, i?) :: es)) fun t es =>
      (∀ i ∈ i?, BelowAt v t i) → ∀ i ∈ scanIds es, BelowAt v t i :=
  .bind (kept_forall_belowAt v scanIds) h fun es => .pure fun t hes hi? i hi => by
    rw [scanIds, List.mem_filterMap] at hi
    obtain ⟨e, he, hei⟩ := hi
    rcases List.mem_cons.1 he with rfl | he
    · exact hi? i hei
    · exact hes i (List.mem_filterMap.2 ⟨e, he, hei⟩)

theorem filling_scanCoeffs {cs : List (Poly × ℕ)} (hcs : ∀ c ∈ cs, VarsIn (below v) c.1) :
    Filling PartAt (scanCoeffs truncate cs) fun t es => ∀ i ∈ scanIds es, BelowAt v t i := by
  induction cs with
  | nil => exact .pure fun _ => nofun
  | cons c cs ih =>
    obtain ⟨c, k⟩ := c
    obtain ⟨hc, hcs⟩ := List.forall_mem_cons.1 hcs
    -- the entries after the one with a number that was handed out
    have hnext : ∀ i, Filling PartAt (scanCoeffs truncate cs >>= fun es =>
        Pure.pure ((k, some i) :: es)) fun t es =>
          BelowAt v t i → ∀ i ∈ scanIds es, BelowAt v t i := fun i =>
      (ih hcs).consEntry.mono fun t es h hi => h fun j hj => Option.mem_some_iff.1 hj ▸ hi
    rw [scanCoeffs]
    split_ifs
    · exact .bind (kept_belowAt v) filling_store_zero hnext
    · refine .bind (kept_belowAt v) (filling_request_of_varsIn false hc) fun i => ?_
      refine .bind_const (filling_countTruncation k) fun _ _ => .pure fun t hi j hj => ?_
      obtain rfl : j = i := by simpa [scanIds] using hj
      exact hi
    · exact .bind (kept_belowAt v) (filling_request_of_varsIn false hc) hnext

theorem filling_reduceCoeff {vars : List ℕ} {higher : List Poly} {c : Poly}
    (hhigher : ∀ p ∈ higher, VarsIn (below v) p) (hc : VarsIn (below v) c) :
    Filling PartAt (reduceCoeff vars higher c) fun _ r? => ∀ r ∈ r?, VarsIn (below v) r.1 := by
  rw [reduceCoeff]
  split_ifs
  · refine .pure fun _ r hr => ?_
    obtain rfl := Option.mem_some_iff.1 hr
    exact hc
  · refine .bind_const (filling_algebraically _) ?_
    rintro basis ⟨s, t, hbasis⟩
    have hsupported : ∀ b ∈ basis ++ [c], b.toMv ∈ MvPolynomial.supported ℚ ↑(below v) :=
      List.forall_mem_append.2 ⟨AlgebraSystem.supported_of_mem_groebnerBasis hbasis fun p hp =>
        MvPolynomial.mem_supported.2 (Finset.coe_subset.2 (hhigher p hp)),
        List.forall_mem_singleton.2 (MvPolynomial.mem_supported.2 (Finset.coe_subset.2 hc))⟩
    split_ifs
    · exact .pure fun _ r hr => absurd hr (Option.not_mem_none r)
    · refine .bind_const (filling_count _) fun _ _ => .bind_const (filling_algebraically _) ?_
      rintro ⟨r, negated⟩ ⟨s, t, hr⟩
      obtain ⟨-, hvars, -⟩ := AlgebraSystem.reduce_spec hr
      refine .pure fun _ r' hr' => ?_
      obtain rfl := Option.mem_some_iff.1 hr'
      exact Finset.coe_subset.1 (MvPolynomial.mem_supported.1 (hvars _ hsupported))

theorem filling_scanReducedCoeffs {vars : List ℕ} {higher : List Poly} {cs : List (Poly × ℕ)}
    (hhigher : ∀ p ∈ higher, VarsIn (below v) p) (hcs : ∀ c ∈ cs, VarsIn (below v) c.1) :
    Filling PartAt (scanReducedCoeffs truncate vars higher cs) fun t es =>
      ∀ i ∈ scanIds es, BelowAt v t i := by
  induction cs generalizing higher with
  | nil => exact .pure fun _ => List.forall_mem_nil _
  | cons c cs ih =>
    obtain ⟨c, k⟩ := c
    obtain ⟨hc, hcs⟩ := List.forall_mem_cons.1 hcs
    have hnext : ∀ {higher' : List Poly} {i? : Option ℕ}, (∀ p ∈ higher', VarsIn (below v) p) →
        Filling PartAt (scanReducedCoeffs truncate vars higher' cs >>= fun es =>
          Pure.pure ((k, i?) :: es)) fun t es =>
            (∀ i ∈ i?, BelowAt v t i) → ∀ i ∈ scanIds es, BelowAt v t i := fun hhigher' =>
      (ih hhigher' hcs).consEntry
    rw [scanReducedCoeffs]
    split_ifs
    · exact .bind (kept_belowAt v) filling_store_zero fun i => (hnext hhigher).mono
        fun t es h hi => h fun j hj => Option.mem_some_iff.1 hj ▸ hi
    · refine .bind_const (filling_reduceCoeff hhigher hc) fun r? hr => ?_
      split
      · exact .bind_const (filling_count _) fun _ _ => .pure fun _ => List.forall_mem_nil _
      · rename_i r negated
        replace hr : VarsIn (below v) r := hr (r, negated) (Option.mem_some_self _)
        have hhigher' : ∀ p ∈ higher ++ [c], VarsIn (below v) p :=
          List.forall_mem_append.2 ⟨hhigher, List.forall_mem_singleton.2 hc⟩
        have hrest : ∀ i? : Option ℕ, Filling PartAt
            (if truncate && r.isDefinitelyNonzero then do
              countTruncation k
              return [(k, i?)]
            else return (k, i?) :: (← scanReducedCoeffs truncate vars (higher ++ [c]) cs)) fun t es =>
              (∀ i ∈ i?, BelowAt v t i) → ∀ i ∈ scanIds es, BelowAt v t i := fun i? => by
          split_ifs
          · refine .bind_const (filling_countTruncation k) fun _ _ => .pure fun t hi j hj => ?_
            rw [scanIds, List.mem_filterMap] at hj
            obtain ⟨e, he, hej⟩ := hj
            obtain rfl := List.mem_singleton.1 he
            exact hi j hej
          · exact hnext hhigher'
        by_cases hz : r.isZero = true
        · rw [if_pos hz]
          refine .bind_const (C := (· = none)) (.pure fun _ => rfl) ?_
          rintro _ rfl
          exact (hrest none).mono fun t es h => h fun i hi => absurd hi (Option.not_mem_none i)
        · rw [if_neg hz, map_eq_pure_bind, bind_assoc]
          refine .bind (kept_belowAt v) (filling_request_of_varsIn negated hr) fun i => ?_
          rw [pure_bind]
          exact (hrest (some i)).mono fun t es h hi => h fun j hj => Option.mem_some_iff.1 hj ▸ hi

end Run

end Projection

end Cylindrical

end
