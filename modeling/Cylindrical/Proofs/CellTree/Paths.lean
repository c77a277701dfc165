import Mathlib
import Cylindrical.Proofs.CellTree.Growth

/-!
# Paths

Where only cells without children get a stack, the positions of the cells, their parents, the stacks
over them, their indices, and the lists by depth describe the same tree (`CellTree.Arena`): paths
lead back to their cells, and the ancestors of a cell are the cells at the beginnings of its path.
-/

namespace Cylindrical

namespace CellTree

variable {t u : CellTree} {i j d : ℕ} {b c : Cell} {is : List ℕ}

/-! ## Trees where stacks go over childless cells -/

theorem Built.wellFormed (h : t.Built Cell.Childless) : t.WellFormed :=
  h.invariant wellFormed_root (fun ht hc hfree hs => hs.wellFormed ht hc hfree)
    (fun {t} i e ht => (t.sameShape_replaceCoord i e).wellFormed ht)
    fun {t} i v ht => (t.sameShape_setTruth i v).wellFormed ht

/-- The root is there from the start, and more cells only as long as they are allowed. -/
theorem Built.size_le {Free : Cell → Prop} (h : t.Built Free) : t.size ≤ max 1 t.maxCells := by
  refine h.invariant (P := fun t => t.size ≤ max 1 t.maxCells)
    (fun dimension maxCells => le_max_left 1 maxCells) (fun _ _ _ hs => ?_)
    (fun {t} i e ht => ?_) fun {t} i v ht => ?_
  · rw [hs.maxCells]
    exact hs.size_le.trans (le_max_right ..)
  · have hshape := t.sameShape_replaceCoord i e
    rwa [hshape.size, hshape.maxCells]
  · have hshape := t.sameShape_setTruth i v
    rwa [hshape.size, hshape.maxCells]

/-! ## Paths -/

theorem length_path (h : t.Parented) (hc : t.get? i = some c) : (t.path i).length = c.depth := by
  refine lineage_induction (motive := fun i c => (t.path i).length = c.depth)
    (fun i c hc ih => ?_) hc
  cases hp : c.parent with
  | none => rw [path_of_parent_none h hc hp, h.depth_root hc hp, List.length_nil]
  | some p =>
    obtain ⟨b, hb, hd⟩ := h.depth_child hc hp
    rw [path_of_parent_some h hc hp, List.length_append, ih p b hp hb hd, hd]
    rfl

/-- The steps of a path are taken one after the other. -/
theorem followFrom_append (t : CellTree) (full is js : List ℕ) (step i : ℕ) :
    t.followFrom full step i (is ++ js) =
      (t.followFrom full step i is).bind fun j =>
        t.followFrom full (step + is.length) j js := by
  induction is generalizing step i with
  | nil => rfl
  | cons k is ih =>
    rw [List.cons_append, followFrom, followFrom]
    cases (t.get? i).bind (·.children) with
    | none => rfl
    | some ids =>
      dsimp only
      cases ids[k]? with
      | none => rfl
      | some j =>
        dsimp only
        rw [ih, List.length_cons, Nat.add_right_comm, Nat.add_assoc]

theorem followFrom_path (h : t.WellFormed) (hc : t.get? i = some c) (full : List ℕ) :
    t.followFrom full 0 0 (t.path i) = .ok i := by
  refine lineage_induction (motive := fun i _ => t.followFrom full 0 0 (t.path i) = .ok i)
    (fun i c hc ih => ?_) hc
  cases hp : c.parent with
  | none =>
    obtain ⟨rfl, -⟩ := h.parent_none hc hp
    rw [path_of_parent_none h.parented hc hp, followFrom]
  | some p =>
    obtain ⟨b, ids, hb, hids, hindex, hd⟩ := h.parent_some hc hp
    rw [path_of_parent_some h.parented hc hp, followFrom_append, ih p b hp hb hd, Except.bind,
      followFrom, hb, Option.bind_some, hids]
    dsimp only
    rw [hindex]
    rfl

/-- The end of a path exists and has this path. -/
theorem path_of_followFrom (h : t.WellFormed) (hc : t.get? i = some c) {full : List ℕ} {step : ℕ}
    (hj : t.followFrom full step i is = .ok j) :
    t.path j = t.path i ++ is ∧ ∃ b, t.get? j = some b := by
  induction is generalizing i c step with
  | nil =>
    obtain rfl := Except.ok.inj hj
    exact ⟨(List.append_nil _).symm, c, hc⟩
  | cons k is ih =>
    rw [followFrom, hc, Option.bind_some] at hj
    cases hids : c.children with
    | none =>
      rw [hids] at hj
      cases hj
    | some ids =>
      rw [hids] at hj
      dsimp only at hj
      cases hk : ids[k]? with
      | none =>
        rw [hk] at hj
        cases hj
      | some l =>
        rw [hk] at hj
        obtain ⟨b, hb, -⟩ := h.child hc hids hk
        obtain ⟨hpath, hexists⟩ := ih hb hj
        exact ⟨by rw [hpath, path_child h hc hids hk, List.append_assoc]; rfl, hexists⟩

/-- An ancestor has the beginning of the path. -/
theorem path_ancestorAt? (h : t.Parented) (hc : t.get? i = some c)
    (hb : t.ancestorAt? i d = some b) : t.path b.id = (t.path i).take d := by
  refine lineage_induction (motive := fun i _ => t.ancestorAt? i d = some b →
    t.path b.id = (t.path i).take d) (fun i c hc ih hb => ?_) hc hb
  obtain ⟨-, hget, hd⟩ := get?_of_ancestorAt? h hb
  rw [ancestorAt?, lineage_eq h hc, List.find?_cons] at hb
  split at hb
  · -- the cell itself has the depth
    obtain rfl := Option.some.inj hb
    rw [h.id_eq hc, ← hd, ← length_path h hc, List.take_length]
  · cases hp : c.parent with
    | none =>
      rw [hp] at hb
      cases hb
    | some p =>
      rw [hp, Option.map_some, Option.getD_some] at hb
      obtain ⟨a, ha, hdepth⟩ := h.depth_child hc hp
      have hle : d ≤ (t.path p).length := by
        rw [length_path h ha, ← hd]
        exact depth_le_of_mem_lineage h ha (List.mem_of_find?_eq_some hb)
      rw [ih p a hp ha hdepth hb, path_of_parent_some h hc hp, List.take_append_of_le_length hle]

/-! ## The cells by position, by path and by depth -/

/-- The positions of cells, their paths, their ancestors, and the lists by depth agree. -/
structure Arena (t : CellTree) : Prop where
  id_eq : ∀ {i c}, t.get? i = some c → c.id = i
  follow_path : ∀ {i c}, t.get? i = some c → t.follow (t.path i) = .ok i
  path_follow : ∀ {is i}, t.follow is = .ok i → t.path i = is ∧ ∃ c, t.get? i = some c
  length_path : ∀ {i c}, t.get? i = some c → (t.path i).length = c.depth
  ancestor : ∀ {i c d}, t.get? i = some c → d ≤ c.depth → ∃ b, t.ancestorAt? i d = some b ∧
    t.get? b.id = some b ∧ t.path b.id = (t.path i).take d
  no_ancestor : ∀ {i c d}, t.get? i = some c → c.depth < d → t.ancestorAt? i d = none
  size_sample : ∀ {i c}, t.get? i = some c → (t.sample i).size = c.depth
  nodup_atDepth : ∀ d, (t.atDepth d).Nodup
  mem_atDepth : ∀ {i d}, i ∈ t.atDepth d ↔ ∃ c, t.get? i = some c ∧ c.depth = d
  size_le : t.size ≤ max 1 t.maxCells

theorem mem_ofDepth : i ∈ t.ofDepth d ↔ ∃ c, t.get? i = some c ∧ c.depth = d := by
  rw [ofDepth, List.mem_filter, List.mem_range, lt_size_iff]
  constructor
  · rintro ⟨⟨c, hc⟩, hd⟩
    rw [hc, Option.any_some, beq_iff_eq] at hd
    exact ⟨c, hc, hd⟩
  · rintro ⟨c, hc, hd⟩
    exact ⟨⟨c, hc⟩, by rw [hc, Option.any_some, beq_iff_eq, hd]⟩

/-- If only childless cells get a stack, positions, paths, ancestors and the lists by depth agree at
all times, and a stack that cannot be added leaves the tree as it was. -/
theorem Built.arena (h : t.Built Cell.Childless) :
    t.Arena ∧ ∀ {parent : ℕ} {stack : List StackCell} {e : DecompositionError} {u : CellTree},
      CellTree.addStack parent stack t = .error e u → u = t := by
  have hwf := h.wellFormed
  refine ⟨{
    id_eq := hwf.id_eq
    follow_path := fun hc => followFrom_path hwf hc _
    path_follow := fun {is i} hi => ?_
    length_path := length_path hwf.parented
    ancestor := fun hc hd => ?_
    no_ancestor := fun hc => ancestorAt?_eq_none hwf.parented hc
    size_sample := h.placed.size_sample
    nodup_atDepth := fun d => ?_
    mem_atDepth := fun {i d} => ?_
    size_le := h.size_le }, addStack_eq_error⟩
  · obtain ⟨c, hc⟩ := hwf.root
    obtain ⟨hpath, hexists⟩ := path_of_followFrom hwf hc hi
    rw [path_of_parent_none hwf.parented hc (root_parent hwf hc), List.nil_append] at hpath
    exact ⟨hpath, hexists⟩
  · obtain ⟨b, hb, hget, -⟩ := exists_ancestorAt? hwf.parented hc hd
    exact ⟨b, hb, hget, path_ancestorAt? hwf.parented hc hb⟩
  · rw [h.levelled.atDepth, ofDepth]
    exact List.nodup_range.filter _
  · rw [h.levelled.atDepth, mem_ofDepth]

/-- The sector over the section is at the end of its path. -/
theorem arena_smallTree :
    smallTree.path 4 = [1, 0] ∧ smallTree.follow (smallTree.path 4) = .ok 4 :=
  ⟨rfl, (Built.arena built_smallTree).1.follow_path rfl⟩

end CellTree

end Cylindrical
