import Mathlib
import Cylindrical.Proofs.Decomposition.Runs

/-!
# Early truth is final

The cells over a cell know the signs that it knows, and those of the levels they fix.  A product of
signs, a formula and so the matrix keep the value they have when more signs become known, since an
unknown factor blocks a product unless another one vanishes.  What is decided on a cell is therefore
decided in the same way on all cells over it, at any depth (`matrixTruth?_of_reachable`).
-/

namespace Cylindrical

/-! ## More signs are known -/

/-- The second assignment gives all signs that the first one gives. -/
def SignLE (sign sign' : FactorRef → Option Sign) : Prop :=
  ∀ f s, sign f = some s → sign' f = some s

theorem SignLE.trans {sign sign' sign'' : FactorRef → Option Sign} (h : SignLE sign sign')
    (h' : SignLE sign' sign'') : SignLE sign sign'' := fun f s hs => h' f s (h f s hs)

namespace Link

variable {sign sign' : FactorRef → Option Sign} {s s' : Option Sign} {t : Sign}
  {fs : List (FactorRef × ℕ)}

/-- After an unknown factor only one that vanishes decides the product. -/
theorem eq_zero_of_evalFactors_none (h : evalFactors sign none fs = some t) : t = .zero := by
  induction fs with
  | nil => cases h
  | cons f fs ih =>
    rw [evalFactors] at h
    split at h
    · exact (Option.some.inj h).symm
    · exact ih h
    · exact ih h

theorem evalFactors_mono (hsign : SignLE sign sign') (hs : ∀ u, s = some u → s' = some u)
    (h : evalFactors sign s fs = some t) : evalFactors sign' s' fs = some t := by
  induction fs generalizing s s' with
  | nil => exact hs t h
  | cons f fs ih =>
    rw [evalFactors] at h ⊢
    cases hf : sign f.1 with
    | some u =>
      rw [hsign _ _ hf]
      rw [hf] at h
      have hs' : ∀ v, s.map (· * u.pow f.2) = some v → s'.map (· * u.pow f.2) = some v :=
        fun v hv => by
          obtain ⟨w, hw, rfl⟩ := Option.map_eq_some_iff.1 hv
          rw [hs w hw, Option.map_some]
      cases u with
      | zero => exact h
      | negative => exact ih hs' h
      | positive => exact ih hs' h
    | none =>
      have hnone : evalFactors sign none fs = some t := by rwa [hf] at h
      have hunknown : ∀ {s' : Option Sign} (u : Sign), none = some u → s' = some u := fun u hu =>
        absurd hu.symm (Option.some_ne_none u)
      -- a factor that was unknown may now vanish, but then so does the product
      cases hf' : sign' f.1 with
      | none => exact ih hunknown hnone
      | some u =>
        cases u with
        | zero => exact congrArg some (eq_zero_of_evalFactors_none hnone).symm
        | negative => exact ih hunknown hnone
        | positive => exact ih hunknown hnone

theorem eval_mono (hsign : SignLE sign sign') (l : Link) (h : l.eval sign = some t) :
    l.eval sign' = some t := by
  rw [eval] at h ⊢
  split_ifs at h ⊢
  · exact h
  · exact evalFactors_mono hsign (fun _ hu => hu) h

end Link

/-! ## More atoms are decided -/

theorem allTrue?_mono {ts us : List (Option Bool)} {b : Bool} (hle : TruthLE ts us)
    (h : allTrue? ts = some b) : allTrue? us = some b := by
  cases b with
  | false => exact allTrue?_eq_false_iff.2 (hle.mem (allTrue?_eq_false_iff.1 h))
  | true =>
    have hall := allTrue?_eq_true_iff.1 h
    rw [hle.eq_of_isSome fun t ht => by rw [hall t ht]; rfl]
    exact h

theorem anyTrue?_mono {ts us : List (Option Bool)} {b : Bool} (hle : TruthLE ts us)
    (h : anyTrue? ts = some b) : anyTrue? us = some b := by
  cases b with
  | true => exact anyTrue?_eq_true_iff.2 (hle.mem (anyTrue?_eq_true_iff.1 h))
  | false =>
    have hall := anyTrue?_eq_false_iff.1 h
    rw [hle.eq_of_isSome fun t ht => by rw [hall t ht]; rfl]
    exact h

namespace Formula

variable {truth truth' : Poly → Relation → Option Bool}

mutual

theorem evalWith_mono (h : ∀ p r b, truth p r = some b → truth' p r = some b) {f : Formula}
    {b : Bool} (hf : f.evalWith truth = some b) : f.evalWith truth' = some b := by
  cases f with
  | atom p r => exact h p r b hf
  | and fs => exact allTrue?_mono (evalAllWith_le h fs) hf
  | or fs => exact anyTrue?_mono (evalAllWith_le h fs) hf
  | quantified q vs f => cases hf

theorem evalAllWith_le (h : ∀ p r b, truth p r = some b → truth' p r = some b)
    (fs : List Formula) : TruthLE (evalAllWith truth fs) (evalAllWith truth' fs) := by
  cases fs with
  | nil => exact .nil
  | cons f fs => exact .cons (fun b hf => evalWith_mono h hf) (evalAllWith_le h fs)

end

end Formula

/-! ## Cells over a cell -/

namespace CellTree

variable {t : CellTree} {i j k : ℕ} {b c : Cell}

/-- The second cell is the first one or lies over it, at any depth. -/
inductive LiesOver (t : CellTree) (i : ℕ) : ℕ → Prop
  | refl : LiesOver t i i
  | child {j k : ℕ} {ids : List ℕ} (h : LiesOver t i j)
      (hids : (t.get? j).bind (·.children) = some ids) (hk : k ∈ ids) : LiesOver t i k

/-- A cell has no signs of the factors of levels that it does not fix. -/
theorem factorSign_eq_none (h : t.WellFormed) (hc : t.get? i = some c) {f : FactorRef}
    (hd : c.depth < f.level + 1) : t.factorSign i f = none := by
  rw [factorSign, ancestorAt?_eq_none h.parented hc hd]
  rfl

/-- The cells of the stack over a cell know the signs that it knows. -/
theorem signLE_child {ids : List ℕ} (h : t.WellFormed) (hc : t.get? j = some c)
    (hids : c.children = some ids) (hk : k ∈ ids) : SignLE (t.factorSign j) (t.factorSign k) := by
  intro f s hs
  obtain ⟨b, hb, hp, hd⟩ := exists_child h hc hids hk
  rw [factorSign_child h hb hp, if_neg]
  · exact hs
  · intro hlevel
    rw [factorSign_eq_none h hc (by omega)] at hs
    cases hs

theorem LiesOver.signLE (h : t.WellFormed) (hij : t.LiesOver i j) :
    SignLE (t.factorSign i) (t.factorSign j) := by
  induction hij with
  | refl => exact fun _ _ hs => hs
  | child _ hids hk ih =>
    obtain ⟨c, hc, hids⟩ := Option.bind_eq_some_iff.1 hids
    exact ih.trans (signLE_child h hc hids hk)

end CellTree

/-! ## The matrix -/

namespace Decomposition

variable {d e : Decomposition} {i j : ℕ} {b : Bool}

/-- The matrix keeps its value when more signs are known. -/
theorem matrixTruth?_mono (hsign : SignLE (d.tree.factorSign i) (d.tree.factorSign j))
    (h : d.matrixTruth? i = some b) : d.matrixTruth? j = some b := by
  rw [matrixTruth?] at h ⊢
  cases hp : d.projection with
  | none =>
    rw [hp] at h
    cases h
  | some p =>
    rw [hp] at h
    refine Formula.evalWith_mono (fun q r v hv => ?_) h
    obtain ⟨s, hs, rfl⟩ := Option.map_eq_some_iff.1 hv
    obtain ⟨link, hlink, hs⟩ := Option.bind_eq_some_iff.1 hs
    rw [hlink, Option.bind_some, linkSign, Link.eval_mono hsign _ hs, Option.map_some]

/-- In every state that calls leave behind, what the matrix is decided to be on a cell it is decided to
be on all cells over it. -/
theorem matrixTruth?_of_reachable {cfg : Config} {algebra : AlgebraSystem} {names : VariableTable}
    {f : Formula} (h : ofFormula cfg algebra names f = .ok d) (he : Reachable d e)
    (hij : e.tree.LiesOver i j) (hb : e.matrixTruth? i = some b) : e.matrixTruth? j = some b :=
  matrixTruth?_mono (hij.signLE (sound_of_reachable h he).consistent.tree) hb

/-- Where `x` vanishes, `x * y = 0` is decided while nothing is known of `y`, and two levels above it
stays decided. -/
theorem matrixTruth?_of_reachable_product : ∃ d e : Decomposition,
    ofFormula {} {} (.ofNames ["x", "y", "z"]) (.quantified .exists [0, 1, 2]
      (.or [.atom (.var 0 * .var 1) .eq, .atom (.var 2) .gt])) = .ok d ∧ Reachable d e ∧
    e.tree.path 2 = [1] ∧ e.tree.path 7 = [1, 0, 0] ∧ e.tree.LiesOver 2 7 ∧
    e.matrixTruth? 2 = some true ∧ e.matrixTruth? 7 = some true := by
  have hd : (ofFormula {} {} (.ofNames ["x", "y", "z"]) (.quantified .exists [0, 1, 2]
      (.or [.atom (.var 0 * .var 1) .eq, .atom (.var 2) .gt]))).toOption.any (fun d =>
        let e := stateAfter ((Call.liftPath [1, 0]).run d)
        e.tree.path 2 = [1] ∧ e.tree.path 7 = [1, 0, 0] ∧
          (e.tree.get? 2).bind (·.children) = some [4, 5, 6] ∧
          (e.tree.get? 4).bind (·.children) = some [7, 8, 9] ∧
          e.matrixTruth? 2 = some true) = true := by
    decide +kernel
  obtain ⟨d, hd, hrun⟩ := (Option.any_eq_true _ _).1 hd
  obtain ⟨hpath, hpath', hids, hids', htruth⟩ := of_decide_eq_true hrun
  have he := Reachable.step (.liftPath [1, 0]) (.refl (d := d))
  have hover := (CellTree.LiesOver.refl.child hids (.head _)).child hids' (.head _)
  exact ⟨d, _, ok_of_toOption hd, he, hpath, hpath', hover, htruth,
    matrixTruth?_of_reachable (ok_of_toOption hd) he hover htruth⟩

end Decomposition

end Cylindrical
