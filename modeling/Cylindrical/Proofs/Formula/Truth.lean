import Mathlib
import Cylindrical.Decomposition.Basic
import Cylindrical.Proofs.Focus

/-!
# Three-valued truth

A formula without quantifiers is decided as soon as its atoms are.  The truth of a cell from that of
the cells over it is the three-valued fold by the quantifier of the level where the short circuit is
on, and at most that where it is off.  It stays when more cells are decided, and lists of truths
that agree where both are decided have no different folds.
-/

namespace Cylindrical

/-! ## Folds over lists of truths -/

theorem allTrue?_isSome {ts : List (Option Bool)} (h : ∀ t ∈ ts, t.isSome = true) :
    (allTrue? ts).isSome = true := by
  induction ts with
  | nil => rfl
  | cons t ts ih =>
    cases t with
    | none => cases h none (.head _)
    | some b =>
      cases b with
      | false => rfl
      | true => exact ih fun t ht => h t (.tail _ ht)

theorem anyTrue?_isSome {ts : List (Option Bool)} (h : ∀ t ∈ ts, t.isSome = true) :
    (anyTrue? ts).isSome = true := by
  induction ts with
  | nil => rfl
  | cons t ts ih =>
    cases t with
    | none => cases h none (.head _)
    | some b =>
      cases b with
      | true => rfl
      | false => exact ih fun t ht => h t (.tail _ ht)

theorem allTrue?_eq_false_iff {ts : List (Option Bool)} :
    allTrue? ts = some false ↔ some false ∈ ts := by
  induction ts with
  | nil => simp [allTrue?]
  | cons t ts ih =>
    cases t with
    | none => simp [allTrue?, ← ih]
    | some b => cases b <;> simp [allTrue?, ih]

theorem anyTrue?_eq_true_iff {ts : List (Option Bool)} :
    anyTrue? ts = some true ↔ some true ∈ ts := by
  induction ts with
  | nil => simp [anyTrue?]
  | cons t ts ih =>
    cases t with
    | none => simp [anyTrue?, ← ih]
    | some b => cases b <;> simp [anyTrue?, ih]

theorem allTrue?_eq_true_iff {ts : List (Option Bool)} :
    allTrue? ts = some true ↔ ∀ t ∈ ts, t = some true := by
  induction ts with
  | nil => simp [allTrue?]
  | cons t ts ih =>
    cases t with
    | none => simp [allTrue?]
    | some b => cases b <;> simp [allTrue?, ih]

theorem anyTrue?_eq_false_iff {ts : List (Option Bool)} :
    anyTrue? ts = some false ↔ ∀ t ∈ ts, t = some false := by
  induction ts with
  | nil => simp [anyTrue?]
  | cons t ts ih =>
    cases t with
    | none => simp [anyTrue?]
    | some b => cases b <;> simp [anyTrue?, ih]

/-! ## Formulas without quantifiers -/

namespace Formula

variable {truth : Poly → Relation → Option Bool}

mutual

theorem evalWith_isSome {f : Formula} (hf : f.isQuantifierFree = true)
    (h : ∀ a ∈ f.atoms, (truth a.1 a.2).isSome = true) : (f.evalWith truth).isSome = true := by
  cases f with
  | atom p r => exact h (p, r) (.head _)
  | and fs => exact allTrue?_isSome (evalAllWith_isSome hf h)
  | or fs => exact anyTrue?_isSome (evalAllWith_isSome hf h)
  | quantified q vs f => cases hf

theorem evalAllWith_isSome {fs : List Formula} (hf : allQuantifierFree fs = true)
    (h : ∀ a ∈ atomsOf fs, (truth a.1 a.2).isSome = true) :
    ∀ t ∈ evalAllWith truth fs, t.isSome = true := by
  cases fs with
  | nil => exact nofun
  | cons f fs =>
    rw [allQuantifierFree, Bool.and_eq_true] at hf
    intro t ht
    rcases List.mem_cons.1 ht with rfl | ht
    · exact evalWith_isSome hf.1 fun a ha => h a (List.mem_append_left _ ha)
    · exact evalAllWith_isSome hf.2 (fun a ha => h a (List.mem_append_right _ ha)) t ht

end

mutual

theorem isQuantifierFree_rename (g : ℕ → ℕ) (f : Formula) :
    (f.rename g).isQuantifierFree = f.isQuantifierFree := by
  cases f with
  | atom p r => rfl
  | and fs => exact allQuantifierFree_renameAll g fs
  | or fs => exact allQuantifierFree_renameAll g fs
  | quantified q vs f => rfl

theorem allQuantifierFree_renameAll (g : ℕ → ℕ) (fs : List Formula) :
    allQuantifierFree (renameAll g fs) = allQuantifierFree fs := by
  cases fs with
  | nil => rfl
  | cons f fs =>
    rw [renameAll, allQuantifierFree, allQuantifierFree, isQuantifierFree_rename,
      allQuantifierFree_renameAll]

end

end Formula

theorem Prenex.isQuantifierFree_matrix {t : VariableTable} {f : Formula} {p : Prenex}
    (h : Prenex.ofFormula t f = .ok p) : p.matrix.isQuantifierFree = true := by
  rw [Prenex.ofFormula] at h
  simp only at h
  split_ifs at h with hfree
  · cases h
  · obtain ⟨bound, -, h⟩ := bind_eq_ok h
    split at h
    · cases h
    · cases h
      rw [Formula.isQuantifierFree_rename]
      simpa using hfree

/-! ## Quantifiers -/

/-- The value of a quantified level from the values over the cells of a stack; that of a free level
is the common one. -/
def foldTruth : Option Quantifier → List (Option Bool) → Option Bool
  | some .exists, ts => anyTrue? ts
  | some .forall, ts => allTrue? ts
  | none, [] => none
  | none, t :: ts => if ts.all (· == t) then t else none

/-- The second list is decided wherever the first one is, in the same way. -/
def TruthLE (ts us : List (Option Bool)) : Prop :=
  List.Forall₂ (fun t u => ∀ b, t = some b → u = some b) ts us

theorem TruthLE.eq_of_isSome {ts us : List (Option Bool)} (h : TruthLE ts us)
    (hts : ∀ t ∈ ts, t.isSome = true) : us = ts := by
  induction h with
  | nil => rfl
  | cons ht _ ih =>
    obtain ⟨b, hb⟩ := Option.isSome_iff_exists.1 (hts _ (.head _))
    rw [ih fun t ht => hts t (.tail _ ht), hb, ht b hb]

theorem TruthLE.mem {ts us : List (Option Bool)} (h : TruthLE ts us) {b : Bool}
    (hb : some b ∈ ts) : some b ∈ us := by
  obtain ⟨u, hu, hub⟩ := exists_mem_of_forall₂' h hb
  exact hub b rfl ▸ hu

/-- No position is decided in two ways. -/
def TruthAgree (ts us : List (Option Bool)) : Prop :=
  List.Forall₂ (fun t u => ∀ b b', t = some b → u = some b' → b = b') ts us

theorem TruthAgree.symm {ts us : List (Option Bool)} (h : TruthAgree ts us) : TruthAgree us ts :=
  (h.imp fun _ _ htu b b' hu ht => (htu b' b ht hu).symm).flip

/-- What one list has at some position the other one does not deny at all of them. -/
theorem TruthAgree.not_forall {ts us : List (Option Bool)} (h : TruthAgree ts us) {b : Bool}
    (hb : some b ∈ ts) : ¬∀ u ∈ us, u = some (!b) := fun hus => by
  obtain ⟨u, hu, hub⟩ := exists_mem_of_forall₂' h hb
  exact Bool.self_ne_not b (hub b (!b) rfl (hus u hu))

/-- Lists that agree are not folded to different values. -/
theorem foldTruth_agree {ts us : List (Option Bool)} {b b' : Bool} (q : Option Quantifier)
    (h : TruthAgree ts us) (hts : foldTruth q ts = some b) (hus : foldTruth q us = some b') :
    b = b' := by
  -- one value shows on one cell alone, the other one on all of them
  cases q with
  | none =>
    cases h with
    | nil => cases hts
    | cons hhead _ =>
      rw [foldTruth] at hts hus
      split_ifs at hts hus
      exact hhead b b' hts hus
  | some q =>
    cases q with
    | «exists» =>
      rw [foldTruth] at hts hus
      cases b <;> cases b'
      · rfl
      · exact absurd (anyTrue?_eq_false_iff.1 hts) (h.symm.not_forall (anyTrue?_eq_true_iff.1 hus))
      · exact absurd (anyTrue?_eq_false_iff.1 hus) (h.not_forall (anyTrue?_eq_true_iff.1 hts))
      · rfl
    | «forall» =>
      rw [foldTruth] at hts hus
      cases b <;> cases b'
      · rfl
      · exact absurd (allTrue?_eq_true_iff.1 hus) (h.not_forall (allTrue?_eq_false_iff.1 hts))
      · exact absurd (allTrue?_eq_true_iff.1 hts) (h.symm.not_forall (allTrue?_eq_false_iff.1 hus))
      · rfl

namespace Decomposition

variable {ts us : List (Option Bool)} {b : Bool} {sc : Bool}

theorem truthFrom_free : truthFrom sc none ts = foldTruth none ts := by
  cases ts with
  | nil => rfl
  | cons t ts =>
    cases t with
    | none =>
      rw [foldTruth]
      split_ifs <;> rfl
    | some b => simp [truthFrom, foldTruth]

/-- With the short circuit the truth of a cell is the fold. -/
theorem truthFrom_true (q : Option Quantifier) : truthFrom true q ts = foldTruth q ts := by
  cases q with
  | none => exact truthFrom_free
  | some q =>
    rw [truthFrom, Bool.true_and]
    have hmem : ∀ b, ts.contains (some b) = true ↔ some b ∈ ts := fun b => List.contains_iff_mem
    cases q with
    | «exists» =>
      rw [foldTruth, Quantifier.target]
      split_ifs with ht hall
      · exact (anyTrue?_eq_true_iff.2 ((hmem _).1 ht)).symm
      · refine (anyTrue?_eq_false_iff.2 fun t hts => ?_).symm
        obtain ⟨b, rfl⟩ := Option.isSome_iff_exists.1 (List.all_eq_true.1 hall t hts)
        cases b
        · rfl
        · exact absurd ((hmem _).2 hts) ht
      · cases hany : anyTrue? ts with
        | none => rfl
        | some b =>
          cases b with
          | true => exact absurd ((hmem _).2 (anyTrue?_eq_true_iff.1 hany)) ht
          | false =>
            refine absurd (List.all_eq_true.2 fun t hts => ?_) hall
            rw [anyTrue?_eq_false_iff.1 hany t hts]
            rfl
    | «forall» =>
      rw [foldTruth, Quantifier.target]
      split_ifs with ht hall
      · exact (allTrue?_eq_false_iff.2 ((hmem _).1 ht)).symm
      · refine (allTrue?_eq_true_iff.2 fun t hts => ?_).symm
        obtain ⟨b, rfl⟩ := Option.isSome_iff_exists.1 (List.all_eq_true.1 hall t hts)
        cases b
        · exact absurd ((hmem _).2 hts) ht
        · rfl
      · cases hall' : allTrue? ts with
        | none => rfl
        | some b =>
          cases b with
          | false => exact absurd ((hmem _).2 (allTrue?_eq_false_iff.1 hall')) ht
          | true =>
            refine absurd (List.all_eq_true.2 fun t hts => ?_) hall
            rw [allTrue?_eq_true_iff.1 hall' t hts]
            rfl

/-- Without the short circuit a quantified cell is decided once all cells over it are. -/
theorem truthFrom_false_isSome (q : Quantifier) :
    (truthFrom false (some q) ts).isSome = true ↔ ∀ t ∈ ts, t.isSome = true := by
  rw [truthFrom, Bool.false_and, if_neg Bool.false_ne_true, ← List.all_eq_true]
  by_cases h : ts.all Option.isSome = true
  · rw [if_pos h]
    exact ⟨fun _ => h, fun _ => rfl⟩
  · rw [if_neg h]
    exact ⟨nofun, fun hall => absurd hall h⟩

/-- A value found without the short circuit is that found with it. -/
theorem truthFrom_false (q : Option Quantifier) (h : truthFrom false q ts = some b) :
    truthFrom true q ts = some b := by
  cases q with
  | none => exact h
  | some q =>
    rw [truthFrom, Bool.false_and, if_neg Bool.false_ne_true] at h
    rw [truthFrom, Bool.true_and]
    split_ifs at h with hall ht
    · rw [if_pos ht]
      exact h
    · rw [if_neg ht, if_pos hall, if_neg ht]
      exact h

/-- The truth of a cell stays when more cells over it are decided. -/
theorem truthFrom_mono (q : Option Quantifier) (hle : TruthLE ts us)
    (h : truthFrom sc q ts = some b) : truthFrom sc q us = some b := by
  cases q with
  | none =>
    cases ts with
    | nil => cases h
    | cons t ts =>
      have hall : ∀ u ∈ t :: ts, u.isSome = true := by
        cases t with
        | none => cases h
        | some c =>
          simp only [truthFrom, List.head?_cons, Option.join_some] at h
          split_ifs at h with hall
          intro u hu
          rw [beq_iff_eq.1 (List.all_eq_true.1 hall u hu)]
          rfl
      rw [hle.eq_of_isSome hall]
      exact h
  | some q =>
    rw [truthFrom] at h
    by_cases ht : (sc && ts.contains (some q.target)) = true
    · rw [if_pos ht] at h
      rw [truthFrom]
      rw [Bool.and_eq_true, List.contains_iff_mem] at ht
      have hus : us.contains (some q.target) = true := List.contains_iff_mem.2 (hle.mem ht.2)
      rw [ht.1, hus, Bool.and_self, if_pos rfl]
      exact h
    · rw [if_neg ht] at h
      by_cases hall : ts.all Option.isSome = true
      · rw [hle.eq_of_isSome (List.all_eq_true.1 hall), truthFrom, if_neg ht]
        exact h
      · rw [if_neg hall] at h
        cases h

end Decomposition

end Cylindrical
