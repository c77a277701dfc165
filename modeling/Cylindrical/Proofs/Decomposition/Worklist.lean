import Mathlib
import Cylindrical.Proofs.Decomposition.Runs

/-!
# Open cells

A cell is open if it is not lifted and neither it nor an ancestor is decided.  Every open cell waits
on the worklist, but for those the lifting of which failed after they were taken off it.  The
lifting of all waiting cells ends with an empty worklist, so it decides a sentence if no lifting has
failed before.
-/

namespace Cylindrical

namespace Decomposition

variable {d e : Decomposition} {c : Cell} {ids lost : List ℕ} {i j : ℕ}

/-- The cell fixes not all variables, is not lifted, and neither it nor an ancestor is decided. -/
def Open (d : Decomposition) (i : ℕ) : Prop :=
  ∃ c, d.tree.get? i = some c ∧ c.children = none ∧ c.depth < d.size ∧ d.tree.isSettled i = false

/-- Once there is a projection, every open cell is on the worklist or among those that are lost. -/
def Covered (d : Decomposition) (lost : List ℕ) : Prop :=
  d.projection.isSome = true → ∀ i, d.Open i → i ∈ d.worklist ∨ i ∈ lost

/-! ## Undecided cells of a stack -/

theorem mem_undecided {t : CellTree} {b : Cell} (hj : j ∈ ids) (hb : t.get? j = some b)
    (hid : b.id = j) (htruth : b.truth = none) : j ∈ undecided t ids := by
  have hmem : b ∈ (ids.filterMap t.get?).filter (·.truth.isNone) :=
    List.mem_filter.2 ⟨List.mem_filterMap.2 ⟨j, hj, hb⟩, by rw [htruth]; rfl⟩
  rw [undecided]
  refine List.mem_map.2 ⟨b, List.mem_append.2 ?_, hid⟩
  cases hsec : b.isSection with
  | true => exact .inl (List.mem_reverse.2 (List.mem_filter.2 ⟨hmem, hsec⟩))
  | false => exact .inr (List.mem_reverse.2 (List.mem_filter.2 ⟨hmem, by rw [hsec]; rfl⟩))

theorem length_undecided_le (t : CellTree) (ids : List ℕ) :
    (undecided t ids).length ≤ ids.length := by
  rw [undecided, List.length_map, List.length_append, List.length_reverse, List.length_reverse]
  have hsplit := List.length_eq_length_filter_add (·.isSection)
    (l := (ids.filterMap t.get?).filter (·.truth.isNone))
  have hfilter := List.length_filter_le (·.truth.isNone) (ids.filterMap t.get?)
  have hmap := List.length_filterMap_le t.get? ids
  omega

/-! ## Steps -/

theorem SameTruths.isSettled (h : SameTruths d e) (hd : d.Consistent)
    (hc : d.tree.get? i = some c) : e.tree.isSettled i = d.tree.isSettled i := by
  have hwf := h.shape.wellFormed hd.tree
  obtain ⟨b, hb, -⟩ := h.shape.exists_get? hc
  rw [Bool.eq_iff_iff]
  exact ⟨fun hi => CellTree.Extends.isSettled (fun hb => h.shape.symm.extends hb)
      (fun {j v} hv => (h.truth j).symm.trans hv) hwf hd.tree hb hi,
    fun hi => CellTree.Extends.isSettled (fun hb => h.shape.extends hb)
      (fun {j v} hv => (h.truth j).trans hv) hd.tree hwf hc hi⟩

theorem SameTruths.open (h : SameTruths d e) (hd : d.Consistent) (hi : e.Open i) : d.Open i := by
  obtain ⟨b, hb, hleaf, hdepth, hopen⟩ := hi
  obtain ⟨a, ha, hstem, hchildren⟩ := h.shape.symm.exists_get? hb
  refine ⟨a, ha, hchildren.trans hleaf, ?_, (h.isSettled hd ha).symm.trans hopen⟩
  rw [← h.task.size, Cell.depth_of_stem hstem]
  exact hdepth

theorem Covered.of_sameTruths (h : d.Covered lost) (hd : d.Consistent) (he : SameTruths d e) :
    e.Covered lost := fun hp i hi => by
  rw [he.worklist]
  exact h (he.task.projection ▸ hp) i (he.open hd hi)

/-- The cells that a lifting leaves open wait afterwards. -/
theorem Covered.of_lifted (h : d.Covered lost) (hd : d.Consistent)
    (hc : d.tree.get? c.id = some c) (he : Lifted d e c ids) :
    e.Covered lost := fun hp i hi => by
  obtain ⟨b, hb, hleaf, hdepth, hopen⟩ := hi
  obtain ⟨c', hc', hstem⟩ := he.grows hc
  rw [he.worklist, List.mem_append]
  rcases he.cases hb with ⟨a, ha, hchildren⟩ | ⟨hmem, hparent⟩
  · have hne : i ≠ c.id := fun hi => by
      have hlifted := he.parent (hi ▸ hb)
      rw [hleaf] at hlifted
      cases hlifted
    obtain ⟨a', ha', hstem'⟩ := he.grows ha
    obtain rfl := Option.some.inj (hb.symm.trans ha')
    have hold : d.Open i := by
      refine ⟨a, ha, (hchildren hne).symm.trans hleaf, ?_, Bool.eq_false_iff.2 fun hsettled => ?_⟩
      · rw [← he.task.size, ← Cell.depth_of_stem hstem']
        exact hdepth
      · have := CellTree.Extends.isSettled he.grows he.truthGrows hd.tree he.consistent.tree ha
          hsettled
        rw [hopen] at this
        cases this
    exact (h (he.task.projection ▸ hp) i hold).imp_left .inr
  · obtain ⟨a, as, ha, -, -, hd'⟩ := he.consistent.tree.parent_some hb hparent
    obtain rfl := Option.some.inj (hc'.symm.trans ha)
    rw [CellTree.isSettled_eq he.consistent.tree hb, hparent, Option.map_some, Option.getD_some,
      Bool.or_eq_false_iff] at hopen
    have hlow : c.depth + 1 < d.size := by
      rw [← Cell.depth_of_stem hstem, ← he.task.size]
      omega
    rw [if_pos (by rw [hopen.2, decide_eq_true hlow]; rfl)]
    exact .inl (.inl (mem_undecided hmem hb (he.consistent.tree.id_eq hb)
      (Option.not_isSome_iff_eq_none.1 (by rw [hopen.1]; exact Bool.false_ne_true))))

theorem Restarted.covered {op : ProjectionOperator} (he : Restarted op d e) : e.Covered lost :=
  fun _ i hi => by
    obtain ⟨b, hb, hleaf, hdepth, hopen⟩ := hi
    obtain ⟨rfl, -⟩ := he.root hb
    rw [CellTree.isSettled_eq he.consistent.tree hb, Bool.or_eq_false_iff] at hopen
    have htruth : b.truth = none :=
      Option.not_isSome_iff_eq_none.1 (by rw [hopen.1]; exact Bool.false_ne_true)
    rw [he.worklist, CellTree.truthOf_eq hb, htruth]
    exact .inl (.head _)

theorem stepwise_covered (cfg : Config) (p : Prenex) (lost : List ℕ) :
    Stepwise fun d => Sound cfg p d ∧ d.Covered lost where
  consistent h := h.1.consistent
  labelled h := h.1.labelled
  same h he := ⟨(stepwise_sound cfg p).same h.1 he, h.2.of_sameTruths h.1.consistent he⟩
  lifted h hc hleaf he :=
    ⟨(stepwise_sound cfg p).lifted h.1 hc hleaf he, h.2.of_lifted h.1.consistent hc he⟩
  restarted h he := ⟨(stepwise_sound cfg p).restarted h.1 he, he.covered⟩

/-! ## The lifting of all waiting cells -/

/-- A bound for the number of cells that may still come off the worklist. -/
def pending (d : Decomposition) : ℕ :=
  d.worklist.length + (d.config.maxCells - d.tree.size) +
    if d.projection.any fun p => p.1.operator == .mcCallum then d.config.maxCells + 1 else 0

theorem pending_le_pendingBound (d : Decomposition) : d.pending ≤ d.pendingBound := by
  rw [pending, pendingBound]
  split_ifs <;> omega

theorem Restarted.size {op : ProjectionOperator} (he : Restarted op d e) : e.tree.size = 1 := by
  obtain ⟨b, hb⟩ := he.consistent.tree.root
  have hpos := CellTree.lt_size_iff.2 ⟨b, hb⟩
  have hle : ¬1 < e.tree.size := fun h => by
    obtain ⟨c, hc⟩ := CellTree.lt_size_iff.1 h
    exact absurd (he.root hc).1 one_ne_zero
  omega

/-- Fewer cells may come off the worklist after each step. -/
theorem Advances.pending_le {i : ℕ} (hd : d.Consistent) (he : Advances d i e) :
    e.pending ≤ d.pending := by
  rw [pending, pending]
  cases he with
  | pruned _ he =>
    rw [he.worklist, he.task.config, he.shape.size, he.task.projection]
  | @lifted c ids hc hleaf he =>
    have hlen := length_undecided_le e.tree ids
    have hsize := he.size
    have hle := he.size_le
    rw [hd.maxCells] at hle
    have hworklist : e.worklist.length ≤ ids.length + d.worklist.length := by
      rw [he.worklist, List.length_append]
      split_ifs
      · omega
      · simp
    rw [he.task.config, he.task.projection]
    omega
  | restarted hp he =>
    obtain ⟨p, links, hp, hop⟩ := hp
    obtain ⟨q, links', hq, hoq⟩ := he.projection
    have hsize := he.size
    have hworklist : e.worklist.length ≤ 1 := by
      rw [he.worklist]
      split_ifs <;> simp
    rw [hp, hq, he.config, Option.any_some, Option.any_some, hop, hoq]
    simp only [beq_self_eq_true, if_true]
    rw [if_neg (by decide)]
    omega

/-- The cell that a step takes off the worklist is not open afterwards. -/
theorem Advances.covered (hd : d.Consistent) (h : d.Covered (i :: lost)) (he : Advances d i e) :
    e.Covered lost := by
  have hdrop : e.Covered (i :: lost) → ¬e.Open i → e.Covered lost := fun hcov hi hp j hj =>
    (hcov hp j hj).imp_right fun hmem =>
      (List.mem_cons.1 hmem).resolve_left fun hji : j = i => hi (hji ▸ hj)
  cases he with
  | pruned hi he =>
    refine hdrop (h.of_sameTruths hd he) fun hopen => ?_
    obtain ⟨c, hc, hleaf, -, hsettled⟩ := he.open hd hopen
    rcases hi hc with hi | hi
    · rw [hleaf] at hi
      cases hi
    · rw [hsettled] at hi
      cases hi
  | lifted hc hleaf he =>
    have hid := hd.tree.id_eq hc
    refine hdrop (h.of_lifted hd (by rw [hid, hc]) he) fun hopen => ?_
    obtain ⟨b, hb, hleaf', -⟩ := hopen
    have hlifted := he.parent (by rw [hid, hb])
    rw [hleaf'] at hlifted
    cases hlifted
  | restarted _ he => exact he.covered

variable {cfg : Config} {p : Prenex}

theorem Advances.sound (h : Sound cfg p d) (he : Advances d i e) : Sound cfg p e := by
  cases he with
  | pruned _ he => exact (stepwise_sound cfg p).same h he
  | lifted hc hleaf he =>
    exact (stepwise_sound cfg p).lifted h (by rw [h.consistent.tree.id_eq hc, hc]) hleaf he
  | restarted _ he => exact (stepwise_sound cfg p).restarted h he

theorem Advances.projection_isSome (he : Advances d i e) (hp : d.projection.isSome = true) :
    e.projection.isSome = true := by
  cases he with
  | pruned _ he => rw [he.task.projection, hp]
  | lifted _ _ he => rw [he.task.projection, hp]
  | restarted _ he => exact he.projection_isSome

/-- A step that succeeds leaves no open cell behind; one that fails leaves behind the cell that it
took off the worklist. -/
theorem ends_liftNext_covered (h : Sound cfg p d) (hc : d.Covered lost)
    (hp : d.projection.isSome = true) :
    Ends liftNext d
      (fun b e => Sound cfg p e ∧ e.Covered lost ∧ e.projection.isSome = true ∧
        if b = true then e.pending < d.pending else e.worklist = [])
      fun e => ∃ i, Sound cfg p e ∧ e.Covered (i :: lost) := by
  have hpopped : ∀ {i is}, d.worklist = i :: is →
      Covered { d with worklist := is } (i :: lost) := fun {i is} hw hp j hj => by
    have hj' := hc hp j hj
    rw [hw] at hj'
    simp only [List.mem_cons] at hj' ⊢
    tauto
  refine (ends_liftNext h.consistent h.labelled hp).mono (fun b e he => ?_) fun e he => ?_
  · cases b with
    | false =>
      obtain ⟨hw, rfl⟩ := he
      exact ⟨h, hc, hp, hw⟩
    | true =>
      obtain ⟨i, is, hw, he⟩ := he
      have hs := h.pop is
      refine ⟨he.sound hs, he.covered hs.consistent (hpopped hw), he.projection_isSome hp,
        (he.pending_le hs.consistent).trans_lt ?_⟩
      rw [pending, pending, hw, List.length_cons]
      simp only
      omega
  · obtain ⟨i, is, hw, he⟩ := he
    have hs := h.pop is
    exact ⟨i, (stepwise_sound cfg p).same hs he, (hpopped hw).of_sameTruths hs.consistent he⟩

/-- The lifting of all waiting cells ends with an empty worklist, or leaves one more open cell
behind. -/
theorem ends_liftUpTo_covered (n : ℕ) (h : Sound cfg p d) (hc : d.Covered lost)
    (hp : d.projection.isSome = true) (hn : d.pending ≤ n) :
    Ends (liftUpTo n) d
      (fun _ e => Sound cfg p e ∧ e.Covered lost ∧ e.projection.isSome = true ∧ e.worklist = [])
      fun e => ∃ i, Sound cfg p e ∧ e.Covered (i :: lost) := by
  induction n generalizing d with
  | zero =>
    refine ends_pure ⟨h, hc, hp, ?_⟩
    rw [pending] at hn
    exact List.length_eq_zero_iff.1 (by omega)
  | succ n ih =>
    rw [liftUpTo]
    refine .bind ((ends_liftNext_covered h hc hp).mono (fun b e he => ?_) fun _ he => he)
    obtain ⟨hs, hcov, hproj, hnext⟩ := he
    cases b with
    | false => exact ends_pure ⟨hs, hcov, hproj, hnext⟩
    | true =>
      rw [if_pos rfl] at hnext
      exact ih hs hcov hproj (by omega)

theorem ends_liftAll_covered (h : Sound cfg p d) (hc : d.Covered lost) :
    Ends liftAll d
      (fun _ e => Sound cfg p e ∧ e.Covered lost ∧ e.projection.isSome = true ∧ e.worklist = [])
      fun e => ∃ i, Sound cfg p e ∧ e.Covered (i :: lost) := by
  rw [liftAll]
  refine .bind (((stepwise_covered cfg p lost).kept.ends_ensureProjected ⟨h, hc⟩).mono
    (fun _ e he => ?_) fun e he => ⟨0, he.1, fun hp j hj => (he.2 hp j hj).imp_right (.tail _)⟩)
  obtain ⟨⟨hs, hcov⟩, hp⟩ := he
  exact .bind (ends_get (ends_liftUpTo_covered _ hs hcov hp e.pending_le_pendingBound))

/-! ## Sentences -/

/-- No level is free. -/
def IsSentence (d : Decomposition) : Prop :=
  ∀ level, level < d.size → (d.quantifier level).isSome = true

instance : Decidable d.IsSentence :=
  inferInstanceAs (Decidable (∀ level, level < d.size → (d.quantifier level).isSome = true))

theorem IsSentence.of_formula (hs : d.IsSentence) (hf : e.formula = d.formula) : e.IsSentence := by
  rw [IsSentence, Decomposition.size, hf]
  intro level hlevel
  rw [quantifier, hf]
  exact hs level hlevel

theorem truthFrom_isSome {q : Quantifier} {sc : Bool} {ts : List (Option Bool)}
    (h : ∀ t ∈ ts, t.isSome = true) : (truthFrom sc (some q) ts).isSome = true := by
  rw [truthFrom, List.all_eq_true.2 h, if_pos rfl]
  split_ifs <;> rfl

/-- A cell of a sentence is decided if all cells over it are. -/
theorem stackTruth?_isSome (hs : d.IsSentence) (hd : c.depth < d.size)
    (hids : c.children = some ids) (hall : ∀ j ∈ ids, (d.tree.truthOf j).isSome = true) :
    (d.stackTruth? c).isSome = true := by
  obtain ⟨q, hq⟩ := Option.isSome_iff_exists.1 (hs c.depth hd)
  rw [stackTruth?_of_children hids, hq]
  refine truthFrom_isSome fun t ht => ?_
  obtain ⟨j, hj, rfl⟩ := List.mem_map.1 ht
  exact hall j hj

/-- A sentence is decided as soon as no cell is open. -/
theorem truth_isSome_of_not_open (h : d.Consistent) (hl : d.Labelled)
    (hp : d.projection.isSome = true) (hs : d.IsSentence) (hopen : ∀ i, ¬d.Open i) :
    d.truth.isSome = true := by
  obtain ⟨r, hr⟩ := h.tree.root
  have hsettled : d.tree.isSettled 0 = true := by
    refine CellTree.children_induction (motive := fun i _ => d.tree.isSettled i = true) h.tree
      (fun i c hc ih => ?_) hr
    by_contra hunsettled
    have hnone := hunsettled
    rw [CellTree.isSettled_eq h.tree hc, Bool.or_eq_true, not_or, hl i hc, Option.isSome_or,
      Bool.or_eq_true, not_or] at hnone
    obtain ⟨⟨hmatrix, hstack⟩, -⟩ := hnone
    rcases (h.dimension ▸ h.tree.depth_le hc : c.depth ≤ d.size).lt_or_eq with hlt | hfull
    · cases hids : c.children with
      | none => exact hopen i ⟨c, hc, hids, hlt, Bool.eq_false_iff.2 hunsettled⟩
      | some ids =>
        refine hstack (stackTruth?_isSome hs hlt hids fun j hj => ?_)
        obtain ⟨b, hb, hparent, hd⟩ := CellTree.exists_child h.tree hc hids hj
        have hchild := ih ids j b hids hj hb hd
        rw [CellTree.isSettled_eq h.tree hb, hparent, Option.map_some, Option.getD_some,
          Bool.or_eq_true] at hchild
        rw [CellTree.truthOf_eq hb]
        exact hchild.resolve_right hunsettled
    · exact hmatrix (h.matrixTruth?_isSome hp hc hfull)
  rw [CellTree.isSettled_eq h.tree hr, CellTree.root_parent h.tree hr, Bool.or_eq_true] at hsettled
  rw [truth, root, hr]
  exact hsettled.resolve_right nofun

/-- What `solve` returns for a sentence, if no open cell has been lost. -/
theorem solve_isSome (h : Sound cfg p d) (hc : d.Covered []) (hs : d.IsSentence)
    {b : Option Bool} (hrun : solve d = .ok b e) : b.isSome = true := by
  obtain ⟨hlift, rfl⟩ := solve_eq_ok hrun
  obtain ⟨he, hcov, hp, hw⟩ := (ends_liftAll_covered h hc).of_ok hlift
  refine truth_isSome_of_not_open he.consistent he.labelled hp
    (hs.of_formula (he.formula.trans h.formula.symm)) fun i hi => ?_
  rcases hcov hp i hi with hi | hi
  · rw [hw] at hi
    cases hi
  · cases hi

/-! ## Failures -/

/-- Whether a call takes cells off the worklist. -/
def Call.takes : Call → Bool
  | project _ => false
  | lift => true
  | liftPath _ => false
  | solve => true

/-- Calls lead from `d` to `e`, and `n` of those that take cells off the worklist have failed since
the last projection that was asked for. -/
inductive FailedLifts (d : Decomposition) : ℕ → Decomposition → Prop
  | refl : FailedLifts d 0 d
  | ok {n : ℕ} {e f : Decomposition} (call : Call) : FailedLifts d n e → call.run e = .ok () f →
      FailedLifts d n f
  | failed {n : ℕ} {e f : Decomposition} {err : DecompositionError} (call : Call) :
      FailedLifts d n e → call.run e = .error err f →
      FailedLifts d (if call.takes then n + 1 else n) f
  | projected {n : ℕ} {e f : Decomposition} (op : ProjectionOperator) : FailedLifts d n e →
      project op e = .ok () f → FailedLifts d 0 f

theorem covered_ofFormula {algebra : AlgebraSystem} {names : VariableTable} {f : Formula}
    (h : ofFormula cfg algebra names f = .ok d) : d.Covered lost := fun hp => by
  rw [ofFormula] at h
  split at h <;> cases h
  cases hp

/-- One call. -/
theorem Call.ends_run_covered (call : Call) (h : Sound cfg p d) (hc : d.Covered lost) :
    Ends call.run d (fun _ e => Sound cfg p e ∧ e.Covered lost) fun e => Sound cfg p e ∧
      ∃ more : List ℕ, more.length ≤ (if call.takes then 1 else 0) ∧ e.Covered (more ++ lost) := by
  have hkept := (stepwise_covered cfg p lost).kept
  have hlift : Ends liftAll d (fun _ e => Sound cfg p e ∧ e.Covered lost) fun e =>
      Sound cfg p e ∧ ∃ more : List ℕ, more.length ≤ 1 ∧ e.Covered (more ++ lost) :=
    (ends_liftAll_covered h hc).mono (fun _ e he => ⟨he.1, he.2.1⟩)
      fun e ⟨i, hs, hcov⟩ => ⟨hs, [i], le_rfl, hcov⟩
  cases call with
  | project op =>
    exact (hkept.ends_project ⟨h, hc⟩).mono (fun _ _ he => he) fun e he => ⟨he.1, [], le_rfl, he.2⟩
  | lift => exact hlift
  | liftPath path =>
    exact (hkept.ends_liftPath path ⟨h, hc⟩).mono (fun _ _ he => he)
      fun e he => ⟨he.1, [], le_rfl, he.2⟩
  | solve =>
    refine ends_discard ?_
    rw [Decomposition.solve]
    exact .bind (hlift.mono (fun _ e he => .bind (ends_get (ends_pure he))) fun _ he => he)

/-- Of the open cells, at most as many are missing from the worklist as calls have failed. -/
theorem covered_of_failedLifts {algebra : AlgebraSystem} {names : VariableTable} {f : Formula}
    {n : ℕ} (h : ofFormula cfg algebra names f = .ok d) (he : FailedLifts d n e) :
    Sound cfg d.formula e ∧ ∃ lost, lost.length ≤ n ∧ e.Covered lost := by
  induction he with
  | refl => exact ⟨sound_ofFormula h, [], le_rfl, covered_ofFormula h⟩
  | ok call _ hrun ih =>
    obtain ⟨hs, lost, hlen, hcov⟩ := ih
    obtain ⟨hs', hcov'⟩ := (call.ends_run_covered hs hcov).of_ok hrun
    exact ⟨hs', lost, hlen, hcov'⟩
  | failed call _ hrun ih =>
    obtain ⟨hs, lost, hlen, hcov⟩ := ih
    obtain ⟨hs', more, hmore, hcov'⟩ := (call.ends_run_covered hs hcov).of_error hrun
    refine ⟨hs', more ++ lost, ?_, hcov'⟩
    rw [List.length_append]
    split_ifs at hmore ⊢ <;> omega
  | projected op _ hrun ih =>
    obtain ⟨hs, -⟩ := ih
    have hend := Ends.of_ok (ends_project hs.consistent) hrun
    exact ⟨(stepwise_sound cfg _).restarted hs hend, [], le_rfl, hend.covered⟩

/-- As long as no lifting of waiting cells has failed since the last projection that was asked for,
a sentence is decided whenever `solve` returns. -/
theorem solve_isSome_of_failedLifts {algebra : AlgebraSystem} {names : VariableTable} {f : Formula}
    {e' : Decomposition} {b : Option Bool} (h : ofFormula cfg algebra names f = .ok d)
    (hs : d.IsSentence) (he : FailedLifts d 0 e) (hrun : solve e = .ok b e') :
    b.isSome = true := by
  obtain ⟨hsound, lost, hlen, hcov⟩ := covered_of_failedLifts h he
  obtain rfl := List.length_eq_zero_iff.1 (Nat.le_zero.1 hlen)
  exact solve_isSome hsound hcov (hs.of_formula hsound.formula) hrun

/-- A path that leads nowhere costs no cell: `solve` decides that there is a positive number. -/
theorem solve_isSome_of_failedLifts_positive : ∃ (d e f : Decomposition) (b : Option Bool),
    ofFormula {} {} (.ofNames ["x"]) (.quantified .exists [0] (.atom (.var 0) .gt)) = .ok d ∧
    d.IsSentence ∧ (∃ err, (Call.liftPath [5]).run d = .error err e) ∧ FailedLifts d 0 e ∧
    solve e = .ok b f ∧ b.isSome = true := by
  obtain ⟨d, hd, hs, hpath, hsolve⟩ : ∃ d, ofFormula {} {} (.ofNames ["x"])
      (.quantified .exists [0] (.atom (.var 0) .gt)) = .ok d ∧ d.IsSentence ∧
      (returned? ((Call.liftPath [5]).run d)).isNone = true ∧
      returned? (solve (stateAfter ((Call.liftPath [5]).run d))) = some (some true) :=
    ⟨_, rfl, by decide +kernel, by decide +kernel, by decide +kernel⟩
  obtain ⟨err, hpath⟩ := exists_eq_error hpath
  obtain ⟨f, hsolve⟩ := exists_eq_ok hsolve
  have hfailed := FailedLifts.failed _ .refl hpath
  exact ⟨d, _, f, some true, hd, hs, ⟨err, hpath⟩, hfailed, hsolve,
    solve_isSome_of_failedLifts hd hs hfailed hsolve⟩

/-- With room for one cell the first `solve` fails and takes the root off the worklist for good; the
next one returns without a decision. -/
theorem solve_eq_none_of_failedLifts : ∃ (d e f : Decomposition) (err : DecompositionError),
    ofFormula { maxCells := 1 } {} (.ofNames ["x"]) (.quantified .exists [0]
      (.atom (.var 0) .gt)) = .ok d ∧ d.IsSentence ∧
    solve d = .error err e ∧ solve e = .ok none f := by
  obtain ⟨d, hd, hs, hfirst, hnext⟩ : ∃ d, ofFormula { maxCells := 1 } {} (.ofNames ["x"])
      (.quantified .exists [0] (.atom (.var 0) .gt)) = .ok d ∧ d.IsSentence ∧
      (returned? (solve d)).isNone = true ∧
      returned? (solve (stateAfter (solve d))) = some none :=
    ⟨_, rfl, by decide +kernel, by decide +kernel, by decide +kernel⟩
  obtain ⟨err, hfirst⟩ := exists_eq_error hfirst
  obtain ⟨f, hnext⟩ := exists_eq_ok hnext
  exact ⟨d, _, f, err, hd, hs, hfirst, hnext⟩

end Decomposition

end Cylindrical
