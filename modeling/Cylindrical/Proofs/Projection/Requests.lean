import Mathlib
import Cylindrical.Proofs.Failure
import Cylindrical.Proofs.Groebner
import Cylindrical.Proofs.Poly.Factorization
import Cylindrical.Proofs.Poly.Subresultant
import Cylindrical.Proofs.Projection.Link

/-!
# Requests of a projection

A request factors a derived polynomial, leaves its factors for the levels of their main variables,
and is numbered.  The number keeps the sign of the polynomial at every point while further requests
are made (`Run.Grows`), so that links of a factor can still be read at the end.
-/

noncomputable section

open MvPolynomial

namespace Cylindrical

namespace Projection

open Cylindrical.Poly

/-! ## Variables below a level -/

/-- The variables below `v`. -/
def below (v : ℕ) : Finset ℕ := (Finset.range v).erase reservedVar

@[simp] theorem mem_below {v w : ℕ} : w ∈ below v ↔ w < v ∧ w ≠ reservedVar := by
  rw [below, Finset.mem_erase, Finset.mem_range, and_comm]

theorem below_succ_subset (v : ℕ) : below (v + 1) ⊆ insert v (below v) := fun w hw => by
  rw [mem_below] at hw
  rw [Finset.mem_insert, mem_below]
  omega

section

variable {v : ℕ} {p : Poly}

theorem levelOf_lt (hp : p.toMv.vars ⊆ below v) (hv : 0 < v) : levelOf p < v := by
  rw [levelOf]
  cases hm : p.mainVar? with
  | none => exact hv
  | some w => exact (mem_below.1 (hp (mem_vars_of_mainVar? hm))).1

theorem pos_of_not_isNumber (hp : p.toMv.vars ⊆ below v) (hn : ¬p.isNumber = true) : 0 < v := by
  rw [isNumber_iff_vars, ← Ne, ← Finset.nonempty_iff_ne_empty] at hn
  obtain ⟨w, hw⟩ := hn
  exact (Nat.zero_le w).trans_lt (mem_below.1 (hp hw)).1

theorem vars_subset_below_levelOf (hp : p.toMv.vars ⊆ below v) :
    p.toMv.vars ⊆ below (levelOf p + 1) := fun w hw => by
  have hreserved : reservedVar ∉ p.toMv.vars := fun h => (mem_below.1 (hp h)).2 rfl
  refine mem_below.2 ⟨?_, (mem_below.1 (hp hw)).2⟩
  rw [levelOf]
  cases hm : p.mainVar? with
  | none =>
    rw [isNumber_iff_vars.1 (mainVar?_eq_none_iff.1 hm)] at hw
    exact absurd hw (Finset.notMem_empty w)
  | some u => exact Nat.lt_succ_of_le (le_of_mainVar? hreserved hm hw)

end

/-! ## Growth of a run -/

/-- The sign that each numbered link has at each point. -/
abbrev LinkSigns := ℕ → (ℕ → ℝ) → Option Sign

namespace Run

variable {s t u : Run} {v : ℕ} {p : Poly} {d : Derived} {i : ℕ}

/-- A polynomial with the same terms waits at the level. -/
def WaitsFor (s : Run) (p : Poly) : Prop := ∃ q ∈ s.pending.getD (levelOf p) [], q.toMv = p.toMv

/-- The polynomials that wait at a level are nonzero, in its variable and lower ones. -/
def Graded (s : Run) : Prop :=
  ∀ l, ∀ p ∈ s.pending.getD l [], NonzeroIn (below (l + 1)) p

/-- The sign of a derived polynomial, by its number. -/
def signOf (s : Run) : LinkSigns := fun i x => s.derived[i]?.map (Derived.signAt x)

/-- Numbers keep their signs. -/
theorem signOf_append {ds : List Derived} (h : t.derived.toList = s.derived.toList ++ ds)
    {x : ℕ → ℝ} {σ : Sign} (hi : s.signOf i x = some σ) : t.signOf i x = some σ := by
  obtain ⟨d, hd, rfl⟩ := Option.map_eq_some_iff.1 hi
  rw [← Array.getElem?_toList] at hd
  obtain ⟨hlt, -⟩ := List.getElem?_eq_some_iff.1 hd
  rw [signOf, ← Array.getElem?_toList, h, List.getElem?_append_left hlt, hd, Option.map_some]

/-- A factor of a derived polynomial that was left for a lower level. -/
structure IsLeft (v : ℕ) (s : Run) (g : Poly × ℕ) : Prop where
  nonzeroIn : NonzeroIn (below v) g.1
  exponent : g.2 ≠ 0
  level : levelOf g.1 < v
  waits : s.WaitsFor g.1

/-- Polynomials are left for lower levels, and none is taken. -/
structure Leaves (s t : Run) : Prop where
  graded : s.Graded → t.Graded
  pending : ∀ l, ∀ q ∈ s.pending.getD l [], q ∈ t.pending.getD l []

/-- Besides, polynomials are derived, in variables below `v`. -/
structure Grows (v : ℕ) (s t : Run) : Prop extends Leaves s t where
  derived : ∃ ds, t.derived.toList = s.derived.toList ++ ds ∧
    ∀ d ∈ ds, ∀ g ∈ d.factors, IsLeft v t g

namespace Leaves

theorem refl (s : Run) : Leaves s s := ⟨id, fun _ _ => id⟩

theorem trans (h₁ : Leaves s t) (h₂ : Leaves t u) : Leaves s u :=
  ⟨fun h => h₂.graded (h₁.graded h), fun l q hq => h₂.pending l q (h₁.pending l q hq)⟩

theorem of_eq (h : t.pending = s.pending) : Leaves s t where
  graded hs := by rwa [Graded, h]
  pending l q hq := by rwa [h]

theorem waitsFor (h : Leaves s t) (hp : s.WaitsFor p) : t.WaitsFor p := by
  obtain ⟨q, hq, hqp⟩ := hp
  exact ⟨q, h.pending _ q hq, hqp⟩

theorem isLeft {g : Poly × ℕ} (h : Leaves s t) (hg : IsLeft v s g) : IsLeft v t g :=
  ⟨hg.nonzeroIn, hg.exponent, hg.level, h.waitsFor hg.waits⟩

theorem grows (h : Leaves s t) (hd : t.derived = s.derived) : Grows v s t :=
  ⟨h, [], by rw [hd, List.append_nil], nofun⟩

end Leaves

namespace Grows

theorem refl (v : ℕ) (s : Run) : Grows v s s := (Leaves.refl s).grows rfl

theorem of_eq (hp : t.pending = s.pending) (hd : t.derived = s.derived) : Grows v s t :=
  (Leaves.of_eq hp).grows hd

theorem trans (h₁ : Grows v s t) (h₂ : Grows v t u) : Grows v s u := by
  obtain ⟨ds, hds, hleft⟩ := h₁.derived
  obtain ⟨es, hes, hleft'⟩ := h₂.derived
  refine ⟨h₁.toLeaves.trans h₂.toLeaves, ds ++ es, by rw [hes, hds, List.append_assoc],
    fun d hd g hg => ?_⟩
  rcases List.mem_append.1 hd with hd | hd
  · exact h₂.toLeaves.isLeft (hleft d hd g hg)
  · exact hleft' d hd g hg

theorem signOf (h : Grows v s t) {x : ℕ → ℝ} {σ : Sign} (hi : s.signOf i x = some σ) :
    t.signOf i x = some σ := by
  obtain ⟨ds, hds, -⟩ := h.derived
  exact signOf_append hds hi

end Grows

/-! ## Steps -/

/-- A polynomial that is left comes last on its level, unless one with the same terms waits there. -/
theorem leave_eq_ok {r : PUnit} (h : leave p s = .ok r t) :
    t.derived = s.derived ∧ (t.pending = s.pending ∧ s.WaitsFor p ∨ ∀ l, t.pending.getD l [] =
      if levelOf p = l then s.pending.getD l [] ++ [p] else s.pending.getD l []) := by
  rw [leave, run_get_bind, ← levelOf] at h
  cases hps : s.pending[levelOf p]? with
  | none =>
    simp only [hps] at h
    cases h
  | some ps =>
    have hget : s.pending.getD (levelOf p) [] = ps := by
      rw [List.getD_eq_getElem?_getD, hps, Option.getD_some]
    simp only [hps] at h
    by_cases hany : ps.any p.sameTerms = true
    · simp only [if_pos hany] at h
      obtain ⟨-, rfl⟩ := run_pure_eq_ok h
      obtain ⟨q, hq, hsame⟩ := List.any_eq_true.1 hany
      exact ⟨rfl, .inl ⟨rfl, q, hget ▸ hq, (toMv_eq_of_sameTerms hsame).symm⟩⟩
    · simp only [if_neg hany] at h
      cases h
      refine ⟨rfl, .inr fun l => ?_⟩
      obtain ⟨hlt, -⟩ := List.getElem?_eq_some_iff.1 hps
      change (s.pending.set (levelOf p) (ps ++ [p])).getD l [] = _
      rw [List.getD_eq_getElem?_getD, List.getElem?_set, if_pos hlt]
      split_ifs with hl
      · rw [← hl, hget, Option.getD_some]
      · rw [List.getD_eq_getElem?_getD]

theorem waitsFor_of_leave {r : PUnit} (h : leave p s = .ok r t) : t.WaitsFor p := by
  rcases (leave_eq_ok h).2 with ⟨hpending, q, hq, hqp⟩ | hpending
  · exact ⟨q, by rwa [hpending], hqp⟩
  · refine ⟨p, ?_, rfl⟩
    rw [hpending, if_pos rfl]
    exact List.mem_append_right _ (.head _)

theorem leave_spec {r : PUnit} (hp : NonzeroIn (below v) p) (h : leave p s = .ok r t) :
    Leaves s t ∧ t.derived = s.derived ∧ t.WaitsFor p := by
  obtain ⟨hderived, hpending⟩ := leave_eq_ok h
  refine ⟨?_, hderived, waitsFor_of_leave h⟩
  rcases hpending with ⟨hpending, -⟩ | hpending
  · exact .of_eq hpending
  · refine ⟨fun hs l q hq => ?_, fun l q hq => ?_⟩
    · rw [hpending] at hq
      split_ifs at hq with hl
      · rcases List.mem_append.1 hq with hq | hq
        · exact hs l q hq
        · rw [List.mem_singleton.1 hq, ← hl]
          exact ⟨⟨hp.order, vars_subset_below_levelOf hp.vars⟩, hp.ne_zero⟩
      · exact hs l q hq
    · rw [hpending]
      split_ifs
      · exact List.mem_append_left _ hq
      · exact hq

theorem forM_leave_spec {gs : List (Poly × ℕ)} {r : PUnit}
    (hgs : ∀ g ∈ gs, NonzeroIn (below v) g.1) (h : gs.forM (fun g => leave g.1) s = .ok r t) :
    Leaves s t ∧ t.derived = s.derived ∧ ∀ g ∈ gs, t.WaitsFor g.1 := by
  induction gs generalizing s with
  | nil =>
    obtain ⟨-, rfl⟩ := run_pure_eq_ok h
    exact ⟨.refl _, rfl, nofun⟩
  | cons g gs ih =>
    obtain ⟨hg, hgs⟩ := List.forall_mem_cons.1 hgs
    rw [List.forM_eq_forM, List.forM_cons] at h
    obtain ⟨_, s₁, hleave, h⟩ := run_bind_eq_ok h
    obtain ⟨hs, hd, hwaits⟩ := leave_spec hg hleave
    obtain ⟨hs', hd', hall⟩ := ih hgs h
    exact ⟨hs.trans hs', hd'.trans hd, List.forall_mem_cons.2 ⟨hs'.waitsFor hwaits, hall⟩⟩

theorem store_spec (hd : ∀ g ∈ d.factors, IsLeft v s g) (h : store d s = .ok i t) :
    Grows v s t ∧ ∀ x, t.signOf i x = some (d.signAt x) := by
  cases h
  have hleaves : Leaves s { s with derived := s.derived.push d } := .of_eq rfl
  refine ⟨⟨hleaves, [d], Array.toList_push, fun e he g hg => ?_⟩, fun x => ?_⟩
  · obtain rfl := List.mem_singleton.1 he
    exact hleaves.isLeft (hd g hg)
  · rw [signOf, Array.getElem?_push_size, Option.map_some]

theorem algebraically_spec {α : Type} {y : AlgebraM α} {a : α}
    (h : algebraically y s = .ok a t) :
    Grows v s t ∧ ∃ w, y s.algebra = .ok a w := by
  obtain ⟨w, hw, rfl⟩ := run_focus_eq_ok h
  exact ⟨.of_eq rfl rfl, w, hw⟩

theorem count_spec {f : Stats → Stats} {r : PUnit} (h : count f s = .ok r t) : Grows v s t := by
  cases h
  exact .of_eq rfl rfl

theorem countTruncation_spec {k : ℕ} {r : PUnit} (h : countTruncation k s = .ok r t) :
    Grows v s t := by
  rw [countTruncation] at h
  split_ifs at h
  · exact count_spec h
  · obtain ⟨-, rfl⟩ := run_pure_eq_ok h
    exact .refl v _

/-- The derived polynomial of a factorization has the sign of the polynomial. -/
theorem signAt_factorization {F : Factorization} {c : ℚ} (hc : 0 < c)
    (h : p.toMv = C (c * F.constant) * powerProduct F.factors) (x : ℕ → ℝ) :
    Derived.signAt x ⟨.ofRat F.constant, F.factors⟩ = .ofReal (p.value x) := by
  have hprod : aeval x (powerProduct F.factors) =
      (F.factors.map fun g => g.1.value x ^ g.2).prod := by
    rw [powerProduct, map_list_prod, List.map_map]
    exact congrArg List.prod (List.map_congr_left fun g _ => map_pow _ _ _)
  rw [Derived.signAt, Poly.value, h, map_mul, aeval_C, eq_ratCast, Rat.cast_mul, mul_assoc,
    Sign.ofReal_mul_of_pos (Rat.cast_pos.2 hc), Sign.ofReal_mul, Sign.ofReal_cast, hprod,
    Sign.ofReal_prod, List.map_map]
  exact congrArg (_ * List.prod ·) (List.map_congr_left fun g _ => (Sign.ofReal_pow _ _).symm)

/-- A request has the sign of its polynomial. -/
theorem request_spec {negated : Bool} (hp : GradedIn (below v) p)
    (h : request p negated s = .ok i t) : Grows v s t ∧ ∀ x, t.signOf i x =
      some (if negated then -Sign.ofReal (p.value x) else .ofReal (p.value x)) := by
  have hstore : ∀ {d : Derived} {s₁ : Run}, (∀ g ∈ d.factors, IsLeft v s₁ g) →
      (∀ x, d.signAt x = .ofReal (p.value x)) →
      store (if negated then { d with sign := -d.sign } else d) s₁ = .ok i t →
      Grows v s₁ t ∧ ∀ x, t.signOf i x =
        some (if negated then -Sign.ofReal (p.value x) else .ofReal (p.value x)) := by
    intro d s₁ hd hsign h
    obtain ⟨hgrows, hstored⟩ := store_spec (v := v) (by cases negated <;> exact hd) h
    refine ⟨hgrows, fun x => ?_⟩
    rw [hstored, ← hsign]
    cases negated with
    | false => rfl
    | true => exact congrArg some (Sign.neg_mul _ _)
  rw [request] at h
  obtain ⟨_, s₁, hcount, h⟩ := run_bind_eq_ok h
  have hs₁ := count_spec (v := v) hcount
  by_cases hn : p.isNumber = true
  · rw [if_pos hn] at h
    obtain ⟨d, s₂, hd, h⟩ := run_bind_eq_ok h
    obtain ⟨rfl, rfl⟩ := run_pure_eq_ok hd
    obtain ⟨hgrows, hsign⟩ := hstore (d := { sign := .ofRat p.constantValue })
      (List.forall_mem_nil _) (fun x => by
      rw [Derived.signAt, List.map_nil, List.prod_nil, mul_one, value_of_isNumber x hn, eq_ratCast,
        Sign.ofReal_cast]) h
    exact ⟨hs₁.trans hgrows, hsign⟩
  · rw [if_neg hn] at h
    obtain ⟨F, s₂, hF, h⟩ := run_bind_eq_ok h
    obtain ⟨hs₂, w, hF⟩ := algebraically_spec (v := v) hF
    have hp0 : p.toMv ≠ 0 := fun h0 => hn (isNumber_iff.2 ⟨0, by rw [h0, C_0]⟩)
    obtain ⟨hfactors, c, hc, hprod⟩ := factor_spec hp.order hp0 (AlgebraSystem.call_eq_ok hF)
    have hnonzero : ∀ g ∈ F.factors, NonzeroIn (below v) g.1 := fun g hg =>
      ⟨(hfactors g hg).1.toGradedIn.mono hp.vars, (hfactors g hg).1.positive.ne_zero⟩
    obtain ⟨_, s₃, hleave, h⟩ := run_bind_eq_ok h
    obtain ⟨hs₃, hderived, hwaits⟩ := forM_leave_spec hnonzero hleave
    obtain ⟨d, s₄, hd, h⟩ := run_bind_eq_ok h
    obtain ⟨rfl, rfl⟩ := run_pure_eq_ok hd
    obtain ⟨hgrows, hsign⟩ := hstore (fun g hg => ⟨hnonzero g hg, (hfactors g hg).2,
      levelOf_lt (hnonzero g hg).vars (pos_of_not_isNumber hp.vars hn), hwaits g hg⟩)
      (signAt_factorization hc hprod) h
    exact ⟨(hs₁.trans hs₂).trans ((hs₃.grows hderived).trans hgrows), hsign⟩

end Run

end Projection

end Cylindrical

end
