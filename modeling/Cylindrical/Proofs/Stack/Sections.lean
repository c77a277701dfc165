import Mathlib
import Cylindrical.Proofs.Poly.Factorization
import Cylindrical.Proofs.Stack.Shrinking

/-!
# Sectors and sections

The roots that are found for the sections of a stack have enclosures that are not empty, and are
roots of positive order of some factor.  So the cells of a stack are sectors at rational numbers, on
which no factor has a root, and between them sections, on which some factor has one; the numbers
that their coordinates leave possible increase from cell to cell.
-/

namespace Cylindrical

namespace Stack

/-! ## Roots -/

variable {cfg : Config} {zero : ZeroTest.Config} {c : Cylinder} {f : ProjectionFactor} {v i n : ℕ}

theorem lt_of_mem_isolateIn {cs : List ℚ} {depth : ℕ} {lo hi : ℚ} (h : lo < hi) :
    ∀ s ∈ Univariate.isolateIn cs depth lo hi, s.lo < s.hi := by
  induction depth generalizing lo hi with
  | zero => exact List.forall_mem_singleton.2 h
  | succ depth ih =>
    rw [Univariate.isolateIn]
    split
    · nofun
    · exact List.forall_mem_singleton.2 h
    · obtain ⟨t, ht, ht', hsplit⟩ := Univariate.splitPoint_eq cs lo hi
      rw [hsplit]
      have hwidth : 0 < hi - lo := sub_pos.2 h
      exact List.forall_mem_append.2 ⟨ih (by nlinarith), ih (by nlinarith)⟩

theorem rootBound_pos (cs : List ℚ) : 0 < Univariate.rootBound cs := by
  rw [Univariate.rootBound]
  split
  · exact one_pos
  · exact Nat.cast_pos.2 (Nat.pow_pos two_pos)

theorem lt_of_mem_isolate {cs : List ℚ} : ∀ s ∈ Univariate.isolate cs, s.lo < s.hi := by
  rw [Univariate.isolate]
  dsimp only
  split_ifs
  · nofun
  · exact lt_of_mem_isolateIn (neg_lt_self (rootBound_pos _))

/-- Isolated roots have enclosures that are not empty. -/
theorem isolate_yields (p : Poly) : Yields (isolate v p) fun xs => ∀ x ∈ xs, x.Proper := by
  rw [isolate]
  split
  · exact .throw
  · exact .pure (List.forall_mem_singleton.2 trivial)
  · refine .pure (List.forall_mem_map.2 fun s hs => ?_)
    split_ifs
    · trivial
    · exact lt_of_mem_isolate s hs

theorem call_yields {α : Type} (g : CallCounts → CallCounts) (y : Algebra α) :
    Yields (algebraically (AlgebraSystem.call g y)) fun a => y = .ok a :=
  .focus (fun _ => rfl) (fun _ _ => rfl) fun s a t _ h => by
    obtain ⟨u, hu, rfl⟩ := run_focus_eq_ok h
    exact ⟨.refl s.point, AlgebraSystem.call_eq_ok hu⟩

theorem multiplicityFrom_yields (left m : ℕ) (p : Poly) :
    Yields (multiplicityFrom zero v left m p) fun k => m ≤ k := by
  induction left generalizing m p with
  | zero => exact .pure le_rfl
  | succ left ih =>
    rw [multiplicityFrom]
    refine (rule_yields.vanishes p).bind_any fun b => ?_
    split_ifs
    · exact (ih (m + 1) _).mono fun k hk => (Nat.le_succ m).trans hk
    · exact .pure le_rfl

end Stack

/-- A root of positive order of one of `n` factors, with an enclosure that is not empty. -/
structure FactorRoot.Valid (n : ℕ) (r : FactorRoot) : Prop where
  proper : r.coord.Proper
  factor_lt : r.factor < n
  multiplicity_pos : 0 < r.multiplicity

/-- A root of positive order of some of `n` factors, with an enclosure that is not empty. -/
structure Section.Valid (n : ℕ) (s : Section) : Prop where
  proper : s.coord.Proper
  ne_nil : s.orders ≠ []
  orders : ∀ o ∈ s.orders, o.1 < n ∧ 0 < o.2

namespace Stack

variable {cfg : Config} {zero : ZeroTest.Config} {c : Cylinder} {f : ProjectionFactor} {v i n : ℕ}

theorem confirm_yields {degree : ℕ} {g : Poly} {x : Coordinate} (hx : x.Proper) (hi : i < n) :
    Yields (confirm zero c i f degree g x) fun r? => ∀ r ∈ r?, r.Valid n := fun s r? t hs h => by
  have hpush := hs.push hx
  have hfound : ∀ {m : ℕ} {s₂ : StackState}, s₂.point.Shrinks (s.point.push x) → 0 < m → (do
      let coord := ((← get).point.get? c.level).getD x
      modify fun s => { s with point := s.point.pop }
      return some ⟨coord, i, m⟩ : StackM (Option FactorRoot)) s₂ = .ok r? t →
      t.point.Shrinks s.point ∧ ∀ r ∈ r?, r.Valid n := by
    intro m s₂ h₂ hm hrun
    cases hrun
    refine ⟨h₂.pop, ?_⟩
    rintro r ⟨⟩
    refine ⟨?_, hi, hm⟩
    change ((s₂.point.get? c.level).getD x).Proper
    cases hget : s₂.point.get? c.level with
    | none => exact hx
    | some y => exact h₂.proper hpush _ _ hget
  rw [confirm, run_modify_bind] at h
  obtain ⟨b, s₁, hb, h⟩ := run_bind_eq_ok h
  obtain ⟨h₁, -⟩ := rule_yields.vanishes g _ b s₁ hpush hb
  cases b with
  | false =>
    cases h
    exact ⟨h₁.pop, fun r hr => absurd hr (Option.not_mem_none r)⟩
  | true =>
    simp only [if_true] at h
    split_ifs at h
    · obtain ⟨m, s₂, hm, h⟩ := run_bind_eq_ok h
      obtain ⟨h₂, hm⟩ := multiplicityFrom_yields _ _ _ _ m s₂ (h₁.proper hpush) hm
      exact hfound (h₂.trans h₁) hm h
    · exact hfound h₁ one_pos h

/-- The roots of a factor. -/
theorem roots_yields {degree : ℕ} (hi : i < n) :
    Yields (roots zero c i f degree) fun rs => ∀ r ∈ rs, r.Valid n := by
  have hflatten : ∀ rss : List (List FactorRoot), (∀ rs ∈ rss, ∀ r ∈ rs, r.Valid n) →
      Yields (pure rss.flatten : StackM (List FactorRoot)) fun rs => ∀ r ∈ rs, r.Valid n :=
    fun rss h => .pure fun r hr => by
      obtain ⟨rs, hrs, hr⟩ := List.mem_flatten.1 hr
      exact h rs hrs r hr
  rw [roots]
  refine Shrinking.get.bind fun s _ => (rule_yields.normAt (fun _ => trivial) _ _ _).bind_any fun r => ?_
  split
  · refine (call_yields _ _).bind fun F hF => ?_
    have hpos := Poly.pos_of_mem_factor hF
    refine (Shrinking.forall_mapM fun q hq => ?_).bind hflatten
    exact (isolate_yields q.1).bind fun xs hxs => .pure (List.forall_mem_map.2 fun x hx =>
      ⟨hxs x hx, hi, hpos q hq⟩)
  · refine (call_yields _ _).bind fun F _ => ?_
    refine (Shrinking.forall_mapM fun q _ => ?_).bind hflatten
    exact (isolate_yields q.1).bind fun xs hxs =>
      Shrinking.forall_filterMapM fun x hx => confirm_yields (hxs x hx) hi

/-! ## Comparison -/

open Coordinate

theorem proper_refine {a : AlgebraicNumber} (h : (algebraic a).Proper) :
    (algebraic a.refine).Proper := (refine_shrinks (algebraic a)).proper h

theorem compareRational_yields {x : ℚ} {steps : ℕ} {a : AlgebraicNumber}
    (ha : (algebraic a).Proper) :
    Yields (compareRational x steps a) fun r => (algebraic r.2).Proper := by
  induction steps generalizing a with
  | zero => exact .pure ha
  | succ steps ih =>
    rw [compareRational]
    split_ifs
    · exact .pure ha
    · exact .pure ha
    · exact .pure ha
    · exact (rule_yields.count _).bind_any fun _ => ih (proper_refine ha)

theorem locateIn_yields {spans : List Interval} {steps : ℕ} {a : AlgebraicNumber}
    (ha : (algebraic a).Proper) :
    Yields (locateIn spans steps a) fun r => (algebraic r.2).Proper := by
  induction steps generalizing a with
  | zero => exact .throw
  | succ steps ih =>
    rw [locateIn]
    split
    · exact .pure ha
    · exact (rule_yields.count _).bind_any fun _ => ih (proper_refine ha)

theorem locate?_yields {cs : List ℚ} {spans : List Interval} {a : AlgebraicNumber}
    (ha : (algebraic a).Proper) :
    Yields (locate? cfg cs spans a) fun r => (algebraic r.2).Proper := by
  rw [locate?]
  split_ifs
  · exact .pure ha
  · exact (locateIn_yields ha).bind fun _ hr => .pure hr

/-- Both numbers have enclosures that are not empty. -/
def BothProper (a b : AlgebraicNumber) : Prop := (algebraic a).Proper ∧ (algebraic b).Proper

variable {a b : AlgebraicNumber}

theorem sameRoot_yields (h : BothProper a b) :
    Yields (sameRoot cfg a b) fun r => BothProper r.2.1 r.2.2 := by
  rw [sameRoot]
  refine (rule_yields.call _ _).bind_any fun g => ?_
  split_ifs
  · exact .pure h
  · refine (locate?_yields h.1).bind fun r hr => ?_
    split
    · exact .pure ⟨hr, h.2⟩
    · exact (locate?_yields h.2).bind fun _ hr' => .pure ⟨hr, hr'⟩

theorem testEquality_yields {mayEqual : Bool} {steps : ℕ} (h : BothProper a b) :
    Yields (testEquality cfg mayEqual steps a b) fun r => BothProper r.2.1 r.2.2 := by
  rw [testEquality]
  split_ifs
  · exact (rule_yields.count _).bind_any fun _ => sameRoot_yields h
  · exact .pure h

theorem compareAlgebraic_yields {mayEqual : Bool} {left steps : ℕ} (h : BothProper a b) :
    Yields (compareAlgebraic cfg mayEqual left steps a b) fun r => BothProper r.2.1 r.2.2 := by
  induction left generalizing steps a b with
  | zero =>
    rw [compareAlgebraic]
    split
    · exact .pure h
    · refine (testEquality_yields h).bind fun r hr => ?_
      obtain ⟨same, a, b⟩ := r
      cases same with
      | false => exact .throw
      | true => exact .pure hr
  | succ left ih =>
    rw [compareAlgebraic]
    split
    · exact .pure h
    · refine (testEquality_yields h).bind fun r hr => ?_
      obtain ⟨same, a, b⟩ := r
      cases same with
      | false =>
        refine (rule_yields.count _).bind_any fun _ => ?_
        split_ifs
        · exact ih ⟨proper_refine hr.1, hr.2⟩
        · exact ih ⟨hr.1, proper_refine hr.2⟩
      | true => exact .pure hr

theorem compare_yields {mayEqual : Bool} {x y : Coordinate} (hx : x.Proper) (hy : y.Proper) :
    Yields (compare cfg mayEqual x y) fun r => r.2.1.Proper ∧ r.2.2.Proper := by
  rw [compare.eq_def]
  split
  · exact .pure ⟨hx, hy⟩
  · exact (compareRational_yields hy).bind fun _ hr => .pure ⟨hx, hr⟩
  · exact (compareRational_yields hx).bind fun _ hr => .pure ⟨hr, hy⟩
  · exact (compareAlgebraic_yields ⟨hx, hy⟩).bind fun _ hr => .pure hr

theorem between_yields {steps : ℕ} {x y : Coordinate} (hx : x.Proper) (hy : y.Proper) :
    Yields (between steps x y) fun r => r.2.1.Proper ∧ r.2.2.Proper := by
  induction steps generalizing x y with
  | zero => exact .throw
  | succ steps ih =>
    rw [between]
    split_ifs
    · exact .pure ⟨hx, hy⟩
    · exact .pure ⟨hx, hy⟩
    · exact (rule_yields.count _).bind_any fun _ =>
        ih ((refine_shrinks x).proper hx) ((refine_shrinks y).proper hy)

/-! ## Sections -/

theorem valid_ofRoot {r : FactorRoot} (hr : r.Valid n) : (Section.ofRoot r).Valid n where
  proper := hr.proper
  ne_nil := List.cons_ne_nil _ _
  orders := List.forall_mem_singleton.2 ⟨hr.factor_lt, hr.multiplicity_pos⟩

theorem valid_merge {r : FactorRoot} {s : Section} (hr : r.Valid n) (hs : s.Valid n) :
    (Section.merge r s).Valid n where
  proper := by
    rw [Section.merge]
    dsimp only
    split_ifs
    · exact hr.proper
    · exact hs.proper
  ne_nil := List.append_ne_nil_of_left_ne_nil hs.ne_nil _
  orders := List.forall_mem_append.2
    ⟨hs.orders, List.forall_mem_singleton.2 ⟨hr.factor_lt, hr.multiplicity_pos⟩⟩

theorem insert_yields {r : FactorRoot} {ss : List Section} (hr : r.Valid n)
    (hss : ∀ s ∈ ss, s.Valid n) :
    Yields (Section.insert cfg c r ss) fun ss => ∀ s ∈ ss, s.Valid n := by
  induction ss generalizing r with
  | nil => exact .pure (List.forall_mem_singleton.2 (valid_ofRoot hr))
  | cons s ss ih =>
    obtain ⟨hs, hss⟩ := List.forall_mem_cons.1 hss
    rw [Section.insert]
    refine (compare_yields hr.proper hs.proper).bind fun o ho => ?_
    have hr' : FactorRoot.Valid n { r with coord := o.2.1 } :=
      ⟨ho.1, hr.factor_lt, hr.multiplicity_pos⟩
    have hs' : Section.Valid n { s with coord := o.2.2 } := ⟨ho.2, hs.ne_nil, hs.orders⟩
    simp only
    split
    · exact .pure (List.forall_mem_cons.2 ⟨valid_ofRoot hr', List.forall_mem_cons.2 ⟨hs', hss⟩⟩)
    · exact (ih hr' hss).bind fun _ hss' => .pure (List.forall_mem_cons.2 ⟨hs', hss'⟩)
    · split_ifs
      · exact .pure (List.forall_mem_cons.2 ⟨hs', hss⟩)
      · exact (rule_yields.count _).bind_any fun _ =>
          .pure (List.forall_mem_cons.2 ⟨valid_merge hr' hs', hss⟩)

theorem addFactors_yields {fs : List ProjectionFactor} {ss : List Section}
    (hn : i + fs.length ≤ n) (hss : ∀ s ∈ ss, s.Valid n) :
    Yields (addFactors cfg zero c i fs ss) fun r => ∀ s ∈ r.2, s.Valid n := by
  induction fs generalizing i ss with
  | nil => exact .pure hss
  | cons f fs ih =>
    rw [List.length_cons] at hn
    have hnext : ∀ (sh : Shape) (rs : List FactorRoot), (∀ r ∈ rs, r.Valid n) → Yields (do
        let ss ← rs.foldlM (fun ss r => do
          count fun s => { s with roots := s.roots + 1 }
          Section.insert cfg c r ss) ss
        let r ← addFactors cfg zero c (i + 1) fs ss
        return (sh :: r.1, r.2)) fun r => ∀ s ∈ r.2, s.Valid n := fun sh rs hrs =>
      (Shrinking.foldlM hss fun ss hss r hr => (rule_yields.count _).bind_any fun _ =>
        insert_yields (hrs r hr) hss).bind fun ss hss =>
          (ih (by omega) hss).bind fun _ hr => .pure hr
    rw [addFactors]
    refine (rule_yields.shape f).bind_any fun sh => ?_
    cases sh with
    | constant s => exact (Shrinking.pure (List.forall_mem_nil _)).bind (hnext _)
    | roots degree lead => exact (roots_yields (by omega)).bind (hnext _)

/-! ## Cells -/

theorem sectorsAbove_yields {s : Section} {ss : List Section} (hs : s.Valid n)
    (hss : ∀ s ∈ ss, s.Valid n) :
    Yields (sectorsAbove cfg s ss) fun ps => ∀ p ∈ ps, p.1.Valid n := by
  induction ss generalizing s with
  | nil => exact .pure (List.forall_mem_singleton.2 hs)
  | cons t ss ih =>
    obtain ⟨ht, hss⟩ := List.forall_mem_cons.1 hss
    rw [sectorsAbove]
    refine (between_yields hs.proper ht.proper).bind fun r hr => ?_
    obtain ⟨x, c, d⟩ := r
    have ht' : Section.Valid n { t with coord := d } := ⟨hr.2, ht.ne_nil, ht.orders⟩
    have hs' : Section.Valid n { s with coord := c } := ⟨hr.1, hs.ne_nil, hs.orders⟩
    exact (ih ht' hss).bind fun ps hps => .pure (List.forall_mem_cons.2 ⟨hs', hps⟩)

/-- The coordinates of the cells: a sector, then sections with the sectors above them. -/
theorem cellCoords_yields {ss : List Section} (hss : ∀ s ∈ ss, s.Valid n) :
    Yields (cellCoords cfg ss) fun cells => ∃ (x : ℚ) (ps : List (Section × ℚ)),
      cells = (rational x, none) ::
        ps.flatMap (fun p => [(p.1.coord, some p.1), (rational p.2, none)]) ∧
      ∀ p ∈ ps, p.1.Valid n := by
  cases ss with
  | nil => exact .pure ⟨0, [], rfl, nofun⟩
  | cons s ss =>
    obtain ⟨hs, hss⟩ := List.forall_mem_cons.1 hss
    rw [cellCoords]
    exact (sectorsAbove_yields hs hss).bind fun ps hps => .pure ⟨_, ps, by
      rw [List.flatMap_def], hps⟩

end Stack

namespace Coordinate

theorem Below.trans {x y z : Coordinate} (h₁ : x.Below y) (hy : y.Proper) (h₂ : y.Below z) :
    x.Below z := fun ξ ζ hξ hζ => by
  obtain ⟨η, hη⟩ := hy.exists_allows
  exact (h₁ ξ η hξ hη).trans (h₂ η ζ hη hζ)

/-- The order of neighbours is the order of all. -/
theorem pairwise_below {xs : List Coordinate} (h : xs.IsChain Below) (hp : ∀ x ∈ xs, x.Proper) :
    xs.Pairwise Below := by
  induction xs with
  | nil => exact .nil
  | cons x xs ih =>
    obtain ⟨-, hp⟩ := List.forall_mem_cons.1 hp
    have hxs := ih h.tail hp
    refine List.pairwise_cons.2 ⟨?_, hxs⟩
    cases xs with
    | nil => nofun
    | cons y ys =>
      have hxy := (List.isChain_cons_cons.1 h).1
      exact List.forall_mem_cons.2 ⟨hxy, fun z hz =>
        hxy.trans (hp y (.head _)) ((List.pairwise_cons.1 hxs).1 z hz)⟩

end Coordinate

namespace Stack

open Coordinate

/-- The cells of a stack: sectors at even positions, at rational numbers where no factor has a root,
and sections at odd ones, where some factor has a root of positive order. -/
structure Alternates (stack : List StackCell) : Prop where
  odd : stack.length % 2 = 1
  proper : ∀ s ∈ stack, s.coord.Proper
  sector : ∀ k s, stack[k]? = some s → k % 2 = 0 →
    s.coord.isRational = true ∧ ∀ m ∈ s.multiplicity, m = 0
  root : ∀ k s, stack[k]? = some s → k % 2 = 1 → ∃ m ∈ s.multiplicity, m ≠ 0
  below : stack.Pairwise fun s t => s.coord.Below t.coord

variable {cfg : Config} {zero : ZeroTest.Config} {c : Cylinder} {σ τ : StackState} {n k : ℕ}

/-- Pairs of one sort in turn. -/
theorem getElem?_flatMap_pair {α β : Type} (f g : α → β) (xs : List α) (k : ℕ) :
    (xs.flatMap fun x => [f x, g x])[k]? = xs[k / 2]?.map (if k % 2 = 0 then f else g) := by
  induction xs generalizing k with
  | nil => rfl
  | cons x xs ih =>
    rw [List.flatMap_cons]
    rcases k with _ | _ | k
    · rfl
    · rfl
    · rw [List.cons_append, List.cons_append, List.nil_append, List.getElem?_cons_succ,
        List.getElem?_cons_succ, ih, show (k + 1 + 1) % 2 = k % 2 by omega,
        show (k + 1 + 1) / 2 = k / 2 + 1 by omega, List.getElem?_cons_succ]

theorem getElem?_assemble {cells : List (Coordinate × Option Section)} {shapes : List Shape}
    {s : StackCell} (h : (assemble cells shapes)[k]? = some s) : ∃ e, cells[k]? = some e ∧
      s.coord = e.1 ∧ s.multiplicity =
        (List.range shapes.length).map fun i => (e.2.map (·.order i)).getD 0 := by
  obtain ⟨hk, rfl⟩ := List.getElem?_eq_some_iff.1 h
  have hk' := (assemble_spec cells shapes).1 ▸ hk
  exact ⟨cells[k], List.getElem?_eq_getElem hk', by simp only [assemble, List.getElem_zipWith],
    by simp only [assemble, List.getElem_zipWith]⟩

/-- On a section some factor has positive order. -/
theorem exists_order_ne_zero {s : Section} (hs : s.Valid n) :
    ∃ m ∈ (List.range n).map s.order, m ≠ 0 := by
  obtain ⟨o, os, ho⟩ := List.exists_cons_of_ne_nil hs.ne_nil
  obtain ⟨hlt, hpos⟩ := hs.orders o (ho ▸ .head _)
  refine ⟨s.order o.1, List.mem_map_of_mem (List.mem_range.2 hlt), ?_⟩
  rw [Section.order, ho, List.lookup_cons_self]
  exact hpos.ne'

theorem alternates_assemble {shapes : List Shape} {x : ℚ} {ps : List (Section × ℚ)}
    {cells : List (Coordinate × Option Section)}
    (hcells : cells = (rational x, none) ::
      ps.flatMap (fun p => [(p.1.coord, some p.1), (rational p.2, none)]))
    (hps : ∀ p ∈ ps, p.1.Valid shapes.length) (hchain : (cells.map (·.1)).IsChain Below) :
    Alternates (assemble cells shapes) := by
  have hlen : (assemble cells shapes).length = 2 * ps.length + 1 := by
    rw [(assemble_spec cells shapes).1, hcells, List.length_cons, List.length_flatMap]
    simp [mul_comm]
  -- a cell is the first sector, or a section or the sector above it
  have hcell : ∀ k s, (assemble cells shapes)[k]? = some s →
      (k % 2 = 0 ∧ s.coord.isRational = true ∧ ∀ m ∈ s.multiplicity, m = 0) ∨
        k % 2 = 1 ∧ ∃ t : Section, t.Valid shapes.length ∧ s.coord = t.coord ∧
          s.multiplicity = (List.range shapes.length).map t.order := by
    intro k s hs
    obtain ⟨e, he, hcoord, hmul⟩ := getElem?_assemble hs
    have hsector : e.2 = none → ∀ m ∈ s.multiplicity, m = 0 := fun hnone m hm => by
      rw [hmul, hnone] at hm
      obtain ⟨i, -, rfl⟩ := List.mem_map.1 hm
      rfl
    rw [hcells] at he
    rcases k with _ | k
    · obtain rfl := Option.some.inj he
      exact .inl ⟨rfl, by rw [hcoord]; rfl, hsector rfl⟩
    · rw [List.getElem?_cons_succ, getElem?_flatMap_pair, Option.map_eq_some_iff] at he
      obtain ⟨p, hp, rfl⟩ := he
      rcases Nat.mod_two_eq_zero_or_one k with hk | hk
      · rw [if_pos hk] at hcoord hmul
        exact .inr ⟨by omega, p.1, hps p (List.mem_of_getElem? hp), hcoord, hmul⟩
      · rw [if_neg (by omega)] at hcoord hsector
        exact .inl ⟨by omega, by rw [hcoord]; rfl, hsector rfl⟩
  have hproper : ∀ s ∈ assemble cells shapes, s.coord.Proper := fun s hs => by
    obtain ⟨k, hk⟩ := List.getElem?_of_mem hs
    rcases hcell k s hk with ⟨-, hrational, -⟩ | ⟨-, t, ht, hcoord, -⟩
    · revert hrational
      cases s.coord with
      | rational x => exact fun _ => trivial
      | algebraic a => nofun
    · exact hcoord ▸ ht.proper
  refine ⟨by omega, hproper, fun k s hs hk => ?_, fun k s hs hk => ?_, ?_⟩
  · rcases hcell k s hs with ⟨-, hsector⟩ | ⟨hodd, -⟩
    · exact hsector
    · omega
  · rcases hcell k s hs with ⟨heven, -⟩ | ⟨-, t, ht, -, hmul⟩
    · omega
    · exact hmul ▸ exists_order_ne_zero ht
  · rw [← map_coord_assemble cells shapes] at hchain
    exact List.pairwise_map.1 (pairwise_below hchain (List.forall_mem_map.2 hproper))

theorem isChain_cellCoords {ss : List Section} {cells : List (Coordinate × Option Section)}
    (h : cellCoords cfg ss σ = .ok cells τ) : (cells.map (·.1)).IsChain Below := by
  obtain ⟨x, ps, -, -, hchain⟩ := cellCoords_spec h
  exact hchain

/-- The cells of a stack at a point without empty enclosures. -/
theorem cells_yields (c : Cylinder) : Yields (cells cfg zero c) Alternates := by
  have hrest : Yields (do
      let r ← addFactors cfg zero c 0 c.factors []
      return assemble (← cellCoords cfg r.2) r.1 : StackM (List StackCell)) Alternates := by
    refine ((addFactors_yields (n := c.factors.length) (Nat.zero_add _).le
      fun s hs => absurd hs List.not_mem_nil).and
      fun s r t h => length_addFactors h).bind fun r hr => ?_
    refine ((cellCoords_yields hr.1).and fun s cells t h => isChain_cellCoords h).bind
      fun cells hcells => ?_
    obtain ⟨⟨x, ps, hshape, hps⟩, hchain⟩ := hcells
    exact .pure (alternates_assemble hshape (hr.2 ▸ hps) hchain)
  rw [cells]
  refine (rule_yields.count _).bind_any fun _ => Shrinking.get.bind fun s _ => ?_
  cases s.point.isRational with
  | true => exact hrest
  | false => exact (rule_yields.count _).bind_any fun _ => hrest

end Stack

end Cylindrical
