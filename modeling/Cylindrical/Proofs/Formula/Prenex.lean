import Mathlib
import Cylindrical.Decomposition.Basic
import Cylindrical.Proofs.Focus
import Cylindrical.Proofs.Formula.Truth
import Cylindrical.Proofs.Poly.Substitution
import Cylindrical.Proofs.Sign

/-!
# Prenex forms

A decomposition is made from a formula exactly if the formula is prenex and well-formed over the table
of names: its leading blocks are not empty, no variable is bound twice, and all variables, bound or in
atoms, have names.  The levels are then the free variables in increasing order and the bound ones from
the outermost block inward, and the renamed matrix holds at the levels' coordinates exactly if the
matrix holds at the variables' values (`Decomposition.levels_of_prenex`).
-/

noncomputable section

namespace Cylindrical

/-! ## Truth at real points -/

namespace Formula

mutual

/-- The formula holds for these values of the variables. -/
def HoldsAt (x : ℕ → ℝ) : Formula → Prop
  | atom p r => r.holds (Sign.ofReal (p.value x)) = true
  | and fs => AllHoldAt x fs
  | or fs => SomeHoldsAt x fs
  | quantified .exists vs f => ∃ y : ℕ → ℝ, (∀ v, v ∉ vs → y v = x v) ∧ f.HoldsAt y
  | quantified .forall vs f => ∀ y : ℕ → ℝ, (∀ v, v ∉ vs → y v = x v) → f.HoldsAt y

/-- Every formula of a list holds. -/
def AllHoldAt (x : ℕ → ℝ) : List Formula → Prop
  | [] => True
  | f :: fs => f.HoldsAt x ∧ AllHoldAt x fs

/-- Some formula of a list holds. -/
def SomeHoldsAt (x : ℕ → ℝ) : List Formula → Prop
  | [] => False
  | f :: fs => f.HoldsAt x ∨ SomeHoldsAt x fs

end

variable {x y : ℕ → ℝ} {truth : Poly → Relation → Option Bool}

mutual

/-- A formula without quantifiers is evaluated to its truth where its atoms are. -/
theorem evalWith_eq_true_iff {f : Formula} (hf : f.isQuantifierFree = true)
    (h : ∀ a ∈ f.atoms, truth a.1 a.2 = some (a.2.holds (Sign.ofReal (a.1.value x)))) :
    f.evalWith truth = some true ↔ f.HoldsAt x := by
  cases f with
  | atom p r => rw [evalWith, h (p, r) (.head _), HoldsAt, Option.some_inj]
  | and fs => exact allTrue?_eq_true_iff.trans (forall_evalAllWith_iff hf h)
  | or fs => exact anyTrue?_eq_true_iff.trans (mem_evalAllWith_iff hf h)
  | quantified q vs f => cases hf

theorem forall_evalAllWith_iff {fs : List Formula} (hf : allQuantifierFree fs = true)
    (h : ∀ a ∈ atomsOf fs, truth a.1 a.2 = some (a.2.holds (Sign.ofReal (a.1.value x)))) :
    (∀ b ∈ evalAllWith truth fs, b = some true) ↔ AllHoldAt x fs := by
  cases fs with
  | nil => exact iff_of_true (List.forall_mem_nil _) trivial
  | cons f fs =>
    rw [allQuantifierFree, Bool.and_eq_true] at hf
    rw [evalAllWith, List.forall_mem_cons]
    exact and_congr (evalWith_eq_true_iff hf.1 fun a ha => h a (List.mem_append_left _ ha))
      (forall_evalAllWith_iff hf.2 fun a ha => h a (List.mem_append_right _ ha))

theorem mem_evalAllWith_iff {fs : List Formula} (hf : allQuantifierFree fs = true)
    (h : ∀ a ∈ atomsOf fs, truth a.1 a.2 = some (a.2.holds (Sign.ofReal (a.1.value x)))) :
    some true ∈ evalAllWith truth fs ↔ SomeHoldsAt x fs := by
  cases fs with
  | nil => exact iff_of_false List.not_mem_nil not_false
  | cons f fs =>
    rw [allQuantifierFree, Bool.and_eq_true] at hf
    rw [evalAllWith, List.mem_cons, eq_comm]
    exact or_congr (evalWith_eq_true_iff hf.1 fun a ha => h a (List.mem_append_left _ ha))
      (mem_evalAllWith_iff hf.2 fun a ha => h a (List.mem_append_right _ ha))

end

mutual

/-- A formula without quantifiers, renamed, at values of the new variables. -/
theorem holdsAt_rename (g : ℕ → ℕ) {f : Formula} (hf : f.isQuantifierFree = true) :
    (f.rename g).HoldsAt x ↔ f.HoldsAt fun v => x (g v) := by
  cases f with
  | atom p r => rw [rename, HoldsAt, HoldsAt, Poly.value_rename]
  | and fs => exact allHoldAt_rename g hf
  | or fs => exact someHoldsAt_rename g hf
  | quantified q vs f => cases hf

theorem allHoldAt_rename (g : ℕ → ℕ) {fs : List Formula} (hf : allQuantifierFree fs = true) :
    AllHoldAt x (renameAll g fs) ↔ AllHoldAt (fun v => x (g v)) fs := by
  cases fs with
  | nil => exact Iff.rfl
  | cons f fs =>
    rw [allQuantifierFree, Bool.and_eq_true] at hf
    exact and_congr (holdsAt_rename g hf.1) (allHoldAt_rename g hf.2)

theorem someHoldsAt_rename (g : ℕ → ℕ) {fs : List Formula} (hf : allQuantifierFree fs = true) :
    SomeHoldsAt x (renameAll g fs) ↔ SomeHoldsAt (fun v => x (g v)) fs := by
  cases fs with
  | nil => exact Iff.rfl
  | cons f fs =>
    rw [allQuantifierFree, Bool.and_eq_true] at hf
    exact or_congr (holdsAt_rename g hf.1) (someHoldsAt_rename g hf.2)

end

mutual

/-- The truth of a formula without quantifiers hangs on the variables of its atoms only. -/
theorem holdsAt_congr {f : Formula} (hf : f.isQuantifierFree = true)
    (h : ∀ a ∈ f.atoms, ∀ v ∈ a.1.toMv.vars, x v = y v) : f.HoldsAt x ↔ f.HoldsAt y := by
  cases f with
  | atom p r => rw [HoldsAt, HoldsAt, Poly.value_congr (h (p, r) (.head _))]
  | and fs => exact allHoldAt_congr hf h
  | or fs => exact someHoldsAt_congr hf h
  | quantified q vs f => cases hf

theorem allHoldAt_congr {fs : List Formula} (hf : allQuantifierFree fs = true)
    (h : ∀ a ∈ atomsOf fs, ∀ v ∈ a.1.toMv.vars, x v = y v) : AllHoldAt x fs ↔ AllHoldAt y fs := by
  cases fs with
  | nil => exact Iff.rfl
  | cons f fs =>
    rw [allQuantifierFree, Bool.and_eq_true] at hf
    exact and_congr (holdsAt_congr hf.1 fun a ha => h a (List.mem_append_left _ ha))
      (allHoldAt_congr hf.2 fun a ha => h a (List.mem_append_right _ ha))

theorem someHoldsAt_congr {fs : List Formula} (hf : allQuantifierFree fs = true)
    (h : ∀ a ∈ atomsOf fs, ∀ v ∈ a.1.toMv.vars, x v = y v) :
    SomeHoldsAt x fs ↔ SomeHoldsAt y fs := by
  cases fs with
  | nil => exact Iff.rfl
  | cons f fs =>
    rw [allQuantifierFree, Bool.and_eq_true] at hf
    exact or_congr (holdsAt_congr hf.1 fun a ha => h a (List.mem_append_left _ ha))
      (someHoldsAt_congr hf.2 fun a ha => h a (List.mem_append_right _ ha))

end

/-! ## Variables -/

/-- The variable occurs in an atom. -/
def Occurs (f : Formula) (v : ℕ) : Prop := ∃ a ∈ f.atoms, v ∈ a.1.toMv.vars

theorem pairwise_insertVar {v : ℕ} {vs : List ℕ} (h : vs.Pairwise (· < ·)) :
    (Poly.insertVar v vs).Pairwise (· < ·) := by
  induction vs with
  | nil => exact List.pairwise_singleton _ _
  | cons w ws ih =>
    obtain ⟨hw, hws⟩ := List.pairwise_cons.1 h
    rw [Poly.insertVar]
    split_ifs with hlt heq
    · refine List.pairwise_cons.2 ⟨fun u hu => ?_, h⟩
      rcases List.mem_cons.1 hu with rfl | hu
      · exact hlt
      · exact hlt.trans (hw u hu)
    · exact h
    · refine List.pairwise_cons.2 ⟨fun u hu => ?_, ih hws⟩
      rcases Poly.mem_insertVar.1 hu with rfl | hu
      · omega
      · exact hw u hu

theorem pairwise_foldl_insertVar (vs : List ℕ) {us : List ℕ} (h : us.Pairwise (· < ·)) :
    (vs.foldl (fun us v => Poly.insertVar v us) us).Pairwise (· < ·) :=
  List.foldlRecOn vs _ h fun _ hus _ _ => pairwise_insertVar hus

theorem pairwise_atomVars (f : Formula) : f.atomVars.Pairwise (· < ·) :=
  List.foldlRecOn f.atoms _ .nil fun _ hus a _ => pairwise_foldl_insertVar a.1.vars hus

theorem mem_atomVars {f : Formula} {v : ℕ} : v ∈ f.atomVars ↔ f.Occurs v := by
  have hatoms : ∀ (as : List (Poly × Relation)) (us : List ℕ),
      v ∈ as.foldl (fun us a => a.1.vars.foldl (fun us v => Poly.insertVar v us) us) us ↔
        (∃ a ∈ as, v ∈ a.1.toMv.vars) ∨ v ∈ us := fun as => by
    induction as with
    | nil => simp
    | cons a as ih =>
      intro us
      rw [List.foldl_cons, ih, Poly.mem_foldl_insertVar, Poly.mem_vars_iff]
      simp only [List.mem_cons, exists_eq_or_imp]
      rw [or_left_comm, or_assoc]
  simpa [atomVars, Occurs] using hatoms f.atoms []

/-! ## Blocks -/

/-- A formula with blocks of quantifiers put in front. -/
def quantify (blocks : List (Quantifier × List ℕ)) (f : Formula) : Formula :=
  blocks.foldr (fun b g => quantified b.1 b.2 g) f

theorem quantify_splitBlocks (f : Formula) : quantify f.splitBlocks.1 f.splitBlocks.2 = f := by
  fun_induction splitBlocks f with
  | case1 q vs f ih => exact congrArg (quantified q vs) ih
  | case2 f hf => rfl

/-- The bound variables with their quantifiers, from the outermost block inward. -/
def bindings (blocks : List (Quantifier × List ℕ)) : List (ℕ × Quantifier) :=
  blocks.flatMap fun b => b.2.map fun v => (v, b.1)

theorem map_fst_bindings (blocks : List (Quantifier × List ℕ)) :
    (bindings blocks).map (·.1) = blocks.flatMap (·.2) := by
  simp [bindings, List.map_flatMap, Function.comp_def]

end Formula

namespace Prenex

open Formula

variable {t : VariableTable} {q : Quantifier} {bound r : List (ℕ × Quantifier)}

theorem any_fst_beq_iff {v : ℕ} : bound.any (·.1 == v) = true ↔ v ∈ bound.map (·.1) := by
  simp

theorem bindBlock_eq_ok_iff {vs : List ℕ} (hbound : (bound.map (·.1)).Nodup) :
    bindBlock t q bound vs = .ok r ↔ (∀ v ∈ vs, t.contains v = true) ∧
      (bound.map (·.1) ++ vs).Nodup ∧ r = bound ++ vs.map fun v => (v, q) := by
  induction vs generalizing bound with
  | nil =>
    rw [bindBlock, Except.ok.injEq, List.append_nil, List.map_nil, List.append_nil]
    exact ⟨fun h => ⟨List.forall_mem_nil _, hbound, h.symm⟩, fun h => h.2.2.symm⟩
  | cons v vs ih =>
    rw [bindBlock, List.forall_mem_cons]
    split_ifs with ht hv
    · exact iff_of_false nofun fun h => by simp [h.1.1] at ht
    · refine iff_of_false nofun fun h => ?_
      exact (List.nodup_append.1 h.2.1).2.2 v (any_fst_beq_iff.1 hv) v (.head _) rfl
    · have hnodup : ((bound ++ [(v, q)]).map (·.1)).Nodup := by
        rw [List.map_append]
        exact hbound.append (List.nodup_singleton v) fun w hw hwv =>
          hv (any_fst_beq_iff.2 ((List.mem_singleton.1 hwv : w = v) ▸ hw))
      rw [ih hnodup, List.map_append, List.append_assoc, List.append_assoc]
      exact and_congr_left' ⟨fun h => ⟨by simpa using ht, h⟩, And.right⟩

theorem bindBlocks_eq_ok_iff {blocks : List (Quantifier × List ℕ)}
    (hbound : (bound.map (·.1)).Nodup) :
    bindBlocks t bound blocks = .ok r ↔ (∀ b ∈ blocks, b.2 ≠ []) ∧
      (∀ v ∈ blocks.flatMap (·.2), t.contains v = true) ∧
      (bound.map (·.1) ++ blocks.flatMap (·.2)).Nodup ∧ r = bound ++ bindings blocks := by
  induction blocks generalizing bound with
  | nil =>
    rw [bindBlocks, Except.ok.injEq, bindings, List.flatMap_nil, List.flatMap_nil, List.append_nil,
      List.append_nil]
    exact ⟨fun h => ⟨List.forall_mem_nil _, List.forall_mem_nil _, hbound, h.symm⟩,
      fun h => h.2.2.2.symm⟩
  | cons b blocks ih =>
    obtain ⟨q, vs⟩ := b
    cases vs with
    | nil => exact iff_of_false nofun fun h => h.1 (q, []) (.head _) rfl
    | cons v vs =>
      have hfst : (bound ++ (v :: vs).map fun v => (v, q)).map (·.1) =
          bound.map (·.1) ++ (v :: vs) := by
        simp [Function.comp_def]
      rw [bindBlocks, List.forall_mem_cons, and_iff_right (List.cons_ne_nil v vs),
        List.flatMap_cons, List.forall_mem_append, ← List.append_assoc]
      · cases hblock : bindBlock t q bound (v :: vs) with
        | error e =>
          refine iff_of_false nofun fun h => ?_
          rw [(bindBlock_eq_ok_iff hbound).2 ⟨h.2.1.1, h.2.2.1.of_append_left, rfl⟩] at hblock
          cases hblock
        | ok bound' =>
          obtain ⟨ht, hnodup, rfl⟩ := (bindBlock_eq_ok_iff hbound).1 hblock
          rw [← hfst] at hnodup ⊢
          rw [and_iff_right ht]
          refine (ih hnodup).trans ?_
          rw [List.append_assoc bound]
          rfl
      · exact List.cons_ne_nil v vs

/-- The formula is prenex and well-formed over the names. -/
structure Accepts (t : VariableTable) (f : Formula) : Prop where
  quantifierFree : f.splitBlocks.2.isQuantifierFree = true
  blocks : ∀ b ∈ f.splitBlocks.1, b.2 ≠ []
  bound : ∀ v ∈ f.splitBlocks.1.flatMap (·.2), t.contains v = true
  nodup : (f.splitBlocks.1.flatMap (·.2)).Nodup
  atoms : ∀ v, f.splitBlocks.2.Occurs v → t.contains v = true

/-- The variables of atoms that are not bound. -/
def free (f : Formula) : List ℕ :=
  f.splitBlocks.2.atomVars.filter fun v => !(bindings f.splitBlocks.1).any (·.1 == v)

/-- The variables in the order of their levels. -/
def ordered (f : Formula) : List ℕ := free f ++ f.splitBlocks.1.flatMap (·.2)

/-- The level of a variable. -/
def levelIn (vs : List ℕ) (v : ℕ) : ℕ := (vs.idxOf? v).getD v

/-- The formula in levels. -/
def levelled (t : VariableTable) (f : Formula) : Prenex where
  names := .ofNames ((ordered f).map t.nameOf)
  quantifiers := (free f).map (fun _ => none) ++ (bindings f.splitBlocks.1).map (some ·.2)
  matrix := f.splitBlocks.2.rename (levelIn (ordered f))

theorem ofFormula_eq_ok_iff {f : Formula} {p : Prenex} :
    ofFormula t f = .ok p ↔ Accepts t f ∧ p = levelled t f := by
  have hblocks : ∀ r, bindBlocks t [] f.splitBlocks.1 = .ok r ↔ _ := fun r =>
    bindBlocks_eq_ok_iff (List.nodup_nil)
  rw [ofFormula]
  simp only
  constructor
  · intro h
    split_ifs at h with hfree
    · cases h
    obtain ⟨bound, hbound, h⟩ := bind_eq_ok h
    obtain ⟨hne, ht, hnodup, rfl⟩ := (hblocks bound).1 hbound
    split at h
    · cases h
    · rename_i hnone
      refine ⟨⟨by simpa using hfree, hne, ht, hnodup, fun v hv => ?_⟩, ?_⟩
      · simpa using List.find?_eq_none.1 hnone v (mem_atomVars.2 hv)
      · obtain rfl := Except.ok.inj h
        rw [levelled, ordered, ← map_fst_bindings]
        rfl
  · rintro ⟨h, rfl⟩
    have hnone : f.splitBlocks.2.atomVars.find? (!t.contains ·) = none :=
      List.find?_eq_none.2 fun v hv => by simpa using h.atoms v (mem_atomVars.1 hv)
    rw [h.quantifierFree, (hblocks _).2 ⟨h.blocks, h.bound, h.nodup, rfl⟩, levelled, ordered,
      ← map_fst_bindings]
    simp only [hnone]
    rfl

/-! ## Levels -/

variable {f : Formula} {vs : List ℕ} {v : ℕ}

theorem mem_free :
    v ∈ free f ↔ f.splitBlocks.2.Occurs v ∧ v ∉ f.splitBlocks.1.flatMap (·.2) := by
  rw [free, List.mem_filter, mem_atomVars, Bool.not_eq_true', ← Bool.not_eq_true, any_fst_beq_iff,
    map_fst_bindings]

theorem pairwise_free (f : Formula) : (free f).Pairwise (· < ·) :=
  (pairwise_atomVars _).filter _

theorem nodup_ordered (h : Accepts t f) : (ordered f).Nodup := by
  have hfree : (free f).Nodup := (pairwise_free f).imp Nat.ne_of_lt
  exact hfree.append h.nodup fun _ hv hb => (mem_free.1 hv).2 hb

theorem levelIn_of_getElem? {i : ℕ} (h : vs.Nodup) (hi : vs[i]? = some v) : levelIn vs v = i := by
  obtain ⟨hlt, rfl⟩ := List.getElem?_eq_some_iff.1 hi
  have hidx : vs.idxOf? vs[i] = some i := List.idxOf?_eq_some_iff.2
    ⟨hlt, rfl, fun j hj he => hj.ne (h.getElem_inj_iff.1 he)⟩
  rw [levelIn, hidx, Option.getD_some]

/-- The variables are numbered in order. -/
theorem map_levelIn (h : vs.Nodup) : vs.map (levelIn vs) = List.range vs.length := by
  refine List.ext_getElem (by simp) fun i hi _ => ?_
  rw [List.getElem_map, List.getElem_range]
  exact levelIn_of_getElem? h (List.getElem?_eq_getElem _)

theorem bijOn_levelIn (h : vs.Nodup) : Set.BijOn (levelIn vs) {v | v ∈ vs} (Set.Iio vs.length) := by
  refine ⟨fun v hv => ?_, fun v hv w hw he => ?_, fun i hi => ?_⟩
  · obtain ⟨i, hi⟩ := List.mem_iff_getElem?.1 hv
    rw [levelIn_of_getElem? h hi]
    exact (List.getElem?_eq_some_iff.1 hi).1
  · obtain ⟨i, hi⟩ := List.mem_iff_getElem?.1 hv
    obtain ⟨j, hj⟩ := List.mem_iff_getElem?.1 hw
    rw [levelIn_of_getElem? h hi, levelIn_of_getElem? h hj] at he
    exact Option.some.inj (hi.symm.trans (he ▸ hj))
  · exact ⟨vs.get ⟨i, hi⟩, List.get_mem _ _, levelIn_of_getElem? h (List.getElem?_eq_getElem _)⟩

theorem size_levelled (t : VariableTable) (f : Formula) :
    (levelled t f).size = (ordered f).length := by
  rw [size, levelled, ordered, ← map_fst_bindings]
  simp

theorem quantifiers_of_mem_free (h : Accepts t f) (hv : v ∈ free f) :
    (levelled t f).quantifiers[levelIn (ordered f) v]? = some none := by
  obtain ⟨i, hi⟩ := List.mem_iff_getElem?.1 hv
  have hlt := (List.getElem?_eq_some_iff.1 hi).1
  rw [levelIn_of_getElem? (nodup_ordered h) (i := i)
    (by rw [ordered, List.getElem?_append_left hlt, hi]), levelled,
    List.getElem?_append_left (by rwa [List.length_map]), List.getElem?_map, hi, Option.map_some]

theorem quantifiers_of_mem_bindings (h : Accepts t f) (hv : (v, q) ∈ bindings f.splitBlocks.1) :
    (levelled t f).quantifiers[levelIn (ordered f) v]? = some (some q) := by
  obtain ⟨i, hi⟩ := List.mem_iff_getElem?.1 hv
  have hordered : (ordered f)[(free f).length + i]? = some v := by
    rw [ordered, List.getElem?_append_right (Nat.le_add_right _ _), Nat.add_sub_cancel_left,
      ← map_fst_bindings, List.getElem?_map, hi, Option.map_some]
  rw [levelIn_of_getElem? (nodup_ordered h) hordered, levelled,
    List.getElem?_append_right (by rw [List.length_map]; exact Nat.le_add_right _ _),
    List.length_map, Nat.add_sub_cancel_left, List.getElem?_map, hi, Option.map_some]

/-- The matrix in levels holds where the matrix itself holds. -/
theorem holdsAt_levelled {x y : ℕ → ℝ} (h : Accepts t f)
    (hxy : ∀ v ∈ ordered f, y (levelIn (ordered f) v) = x v) :
    (levelled t f).matrix.HoldsAt y ↔ f.splitBlocks.2.HoldsAt x := by
  rw [levelled, holdsAt_rename _ h.quantifierFree]
  refine holdsAt_congr h.quantifierFree fun a ha v hv => hxy v ?_
  by_cases hb : v ∈ f.splitBlocks.1.flatMap (·.2)
  · exact List.mem_append_right _ hb
  · exact List.mem_append_left _ (mem_free.2 ⟨⟨a, ha, hv⟩, hb⟩)

end Prenex

namespace Decomposition

open Formula Prenex

variable {cfg : Config} {algebra : AlgebraSystem} {t : VariableTable} {f : Formula}
  {d : Decomposition}

theorem ofFormula_eq_ok_iff : ofFormula cfg algebra t f = .ok d ↔ Accepts t f ∧
    d = { config := cfg, formula := levelled t f, algebra,
          tree := { dimension := (levelled t f).size, maxCells := cfg.maxCells } } := by
  rw [ofFormula]
  cases hp : Prenex.ofFormula t f with
  | error e =>
    refine iff_of_false nofun fun h => ?_
    rw [Prenex.ofFormula_eq_ok_iff.2 ⟨h.1, rfl⟩] at hp
    cases hp
  | ok p =>
    obtain ⟨haccepts, rfl⟩ := Prenex.ofFormula_eq_ok_iff.1 hp
    rw [Except.ok.injEq, and_iff_right haccepts, eq_comm]

/-- A decomposition is made exactly from the formulas that are prenex and well-formed over the names,
and its levels are the variables, free ones first, with their quantifiers. -/
theorem levels_of_prenex (cfg : Config) (algebra : AlgebraSystem) (t : VariableTable) (f : Formula) :
    quantify f.splitBlocks.1 f.splitBlocks.2 = f ∧
    ((∃ d, ofFormula cfg algebra t f = .ok d) ↔
      f.splitBlocks.2.isQuantifierFree = true ∧ (∀ b ∈ f.splitBlocks.1, b.2 ≠ []) ∧
      (∀ v ∈ f.splitBlocks.1.flatMap (·.2), t.contains v = true) ∧
      (f.splitBlocks.1.flatMap (·.2)).Nodup ∧
      ∀ v, f.splitBlocks.2.Occurs v → t.contains v = true) ∧
    ∀ d, ofFormula cfg algebra t f = .ok d → ∃ (vars : List ℕ) (level : ℕ → ℕ),
      vars.Pairwise (· < ·) ∧
      (∀ v, v ∈ vars ↔ f.splitBlocks.2.Occurs v ∧ v ∉ f.splitBlocks.1.flatMap (·.2)) ∧
      (vars ++ f.splitBlocks.1.flatMap (·.2)).map level = List.range d.size ∧
      Set.BijOn level {v | v ∈ vars ++ f.splitBlocks.1.flatMap (·.2)} (Set.Iio d.size) ∧
      (∀ v ∈ vars, d.quantifier (level v) = none) ∧
      (∀ b ∈ f.splitBlocks.1, ∀ v ∈ b.2, d.quantifier (level v) = some b.1) ∧
      ∀ x y : ℕ → ℝ, (∀ v ∈ vars ++ f.splitBlocks.1.flatMap (·.2), y (level v) = x v) →
        (d.formula.matrix.HoldsAt y ↔ f.splitBlocks.2.HoldsAt x) := by
  refine ⟨quantify_splitBlocks f, ⟨?_, ?_⟩, fun d hd => ?_⟩
  · rintro ⟨d, hd⟩
    obtain ⟨h, -⟩ := ofFormula_eq_ok_iff.1 hd
    exact ⟨h.quantifierFree, h.blocks, h.bound, h.nodup, h.atoms⟩
  · rintro ⟨hfree, hblocks, hbound, hnodup, hatoms⟩
    exact ⟨_, ofFormula_eq_ok_iff.2 ⟨⟨hfree, hblocks, hbound, hnodup, hatoms⟩, rfl⟩⟩
  · obtain ⟨h, rfl⟩ := ofFormula_eq_ok_iff.1 hd
    have hsize := size_levelled t f
    refine ⟨free f, levelIn (ordered f), pairwise_free f, fun v => mem_free, ?_, ?_, fun v hv => ?_,
      fun b hb v hv => ?_, fun x y => holdsAt_levelled h⟩
    · rw [size, hsize]
      exact map_levelIn (nodup_ordered h)
    · rw [size, hsize]
      exact bijOn_levelIn (nodup_ordered h)
    · rw [quantifier, quantifiers_of_mem_free h hv]
      rfl
    · have hmem : (v, b.1) ∈ bindings f.splitBlocks.1 :=
        List.mem_flatMap.2 ⟨b, hb, List.mem_map.2 ⟨v, hv, rfl⟩⟩
      rw [quantifier, quantifiers_of_mem_bindings h hmem]
      rfl

/-- The free variable comes first although it is the second one of the table. -/
theorem levels_of_prenex_square :
    ∃ d, ofFormula {} {} ⟨["y", "x"]⟩
        (.quantified .exists [0] (.atom (.ofPower 0 2 - .ofPower 1 1) .eq)) = .ok d ∧
      d.quantifier 0 = none ∧ d.quantifier 1 = some .exists ∧
      ∀ x y : ℕ → ℝ, y 0 = x 1 → y 1 = x 0 →
        (d.formula.matrix.HoldsAt y ↔
          (atom (.ofPower 0 2 - .ofPower 1 1) .eq).HoldsAt x) := by
  have hvars : (atom (.ofPower 0 2 - .ofPower 1 1) .eq).atomVars = [0, 1] := by decide +kernel
  obtain ⟨-, hok, hlevels⟩ := levels_of_prenex {} {} ⟨["y", "x"]⟩
    (.quantified .exists [0] (.atom (.ofPower 0 2 - .ofPower 1 1) .eq))
  simp only [splitBlocks, ← mem_atomVars, hvars] at hok hlevels
  obtain ⟨d, hd⟩ := hok.2 ⟨rfl, by decide, by decide, by decide, by decide⟩
  obtain ⟨vars, level, hsorted, hmem, hmap, -, hfree, hbound, hholds⟩ := hlevels d hd
  have hone : vars = [1] := by
    refine List.perm_singleton.1 ((List.perm_ext_iff_of_nodup (hsorted.imp Nat.ne_of_lt)
      (List.nodup_singleton 1)).2 fun v => ?_)
    rw [hmem]
    simp
    omega
  subst hone
  have hsize : d.size = 2 := by simpa using (congrArg List.length hmap).symm
  obtain ⟨h₁, h₀⟩ : level 1 = 0 ∧ level 0 = 1 := by simpa [hsize, List.range_succ] using hmap
  refine ⟨d, hd, h₁ ▸ hfree 1 (by simp), h₀ ▸ hbound (.exists, [0]) (by simp) 0 (by simp),
    fun x y hy₀ hy₁ => hholds x y ?_⟩
  simp [h₁, h₀, hy₀, hy₁]

end Decomposition

end Cylindrical

end
