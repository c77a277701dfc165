import Mathlib
import Cylindrical.Proofs.Projection.Link

/-!
# Links with unknown signs

The signs of some factors may be unknown.  A link whose exponents are positive is evaluated as far
as the known signs allow: to a sign exactly when the product has this sign whatever the unknown
signs are, and to no sign exactly when two choices of them give different products
(`Link.eval_iff_completions`).
-/

noncomputable section

namespace Cylindrical

/-- All factors have signs, the known ones among them. -/
def Completes (σ : FactorRef → Sign) (sign : FactorRef → Option Sign) : Prop :=
  ∀ f s, sign f = some s → σ f = s

/-- The completion that gives all unknown factors the same sign. -/
def fillWith (u : Sign) (sign : FactorRef → Option Sign) (f : FactorRef) : Sign := (sign f).getD u

theorem completes_fillWith (u : Sign) (sign : FactorRef → Option Sign) :
    Completes (fillWith u sign) sign := fun f s hs => by rw [fillWith, hs, Option.getD_some]

namespace Link

variable {σ : FactorRef → Sign} {sign : FactorRef → Option Sign} {l : Link} {s : Sign}
  {fs : List (FactorRef × ℕ)}

/-- The product vanishes where its constant or a factor does. -/
theorem signAt_eq_zero_iff (hm : ∀ f ∈ l.factors, 1 ≤ f.2) :
    l.signAt σ = .zero ↔ l.sign = .zero ∨ ∃ f ∈ l.factors, σ f.1 = .zero := by
  have hpow : ∀ f ∈ l.factors, σ f.1 ^ f.2 = .zero ↔ σ f.1 = .zero := fun f hf =>
    pow_eq_zero_iff (Nat.one_le_iff_ne_zero.1 (hm f hf))
  have hprod : (l.factors.map fun f => σ f.1 ^ f.2).prod = .zero ↔
      ∃ f ∈ l.factors, σ f.1 = .zero :=
    List.prod_eq_zero_iff.trans (List.mem_map.trans
      ⟨fun ⟨f, hf, h⟩ => ⟨f, hf, (hpow f hf).1 h⟩, fun ⟨f, hf, h⟩ => ⟨f, hf, (hpow f hf).2 h⟩⟩)
  exact mul_eq_zero.trans (or_congr_right hprod)

/-! ## Evaluation -/

/-- A factor that is known to vanish decides, whatever stands before it. -/
theorem evalFactors_of_vanishes (h : ∃ f ∈ fs, sign f.1 = some .zero) (s? : Option Sign) :
    evalFactors sign s? fs = some .zero := by
  induction fs generalizing s? with
  | nil =>
    obtain ⟨f, hf, -⟩ := h
    cases hf
  | cons g gs ih =>
    obtain ⟨f, hf, hzero⟩ := h
    rw [evalFactors]
    rcases List.mem_cons.1 hf with rfl | hf
    · rw [hzero]
    · split
      · rfl
      · exact ih ⟨f, hf, hzero⟩ _
      · exact ih ⟨f, hf, hzero⟩ _

theorem evalFactors_none (h : ∀ f ∈ fs, sign f.1 ≠ some .zero) :
    evalFactors sign none fs = none := by
  induction fs with
  | nil => rfl
  | cons g gs ih =>
    obtain ⟨hg, hgs⟩ := List.forall_mem_cons.1 h
    rw [evalFactors]
    split
    · exact absurd ‹_› hg
    · exact ih hgs
    · exact ih hgs

/-- An unknown factor leaves the product open when no factor is known to vanish. -/
theorem evalFactors_of_unknown (h : ∀ f ∈ fs, sign f.1 ≠ some .zero)
    (hu : ∃ f ∈ fs, sign f.1 = none) (s? : Option Sign) : evalFactors sign s? fs = none := by
  induction fs generalizing s? with
  | nil =>
    obtain ⟨f, hf, -⟩ := hu
    cases hf
  | cons g gs ih =>
    obtain ⟨f, hf, hnone⟩ := hu
    obtain ⟨hg, hgs⟩ := List.forall_mem_cons.1 h
    rw [evalFactors]
    rcases List.mem_cons.1 hf with rfl | hf
    · rw [hnone]
      exact evalFactors_none hgs
    · split
      · exact absurd ‹_› hg
      · exact ih hgs ⟨f, hf, hnone⟩ _
      · exact evalFactors_none hgs

/-! ## Completions -/

/-- A sign that evaluation finds is that of the product under every completion. -/
theorem signAt_of_eval (hm : ∀ f ∈ l.factors, 1 ≤ f.2) (h : l.eval sign = some s)
    (hσ : Completes σ sign) : l.signAt σ = s := by
  by_cases hvanish : l.sign = .zero ∨ ∃ f ∈ l.factors, sign f.1 = some .zero
  · have hzero : l.eval sign = some .zero := by
      rw [eval]
      split_ifs with hz
      · rfl
      · exact evalFactors_of_vanishes (hvanish.resolve_left hz) _
    rw [← Option.some.inj (hzero.symm.trans h), signAt_eq_zero_iff hm]
    rcases hvanish with hz | ⟨f, hf, h0⟩
    · exact .inl hz
    · exact .inr ⟨f, hf, hσ f.1 _ h0⟩
  · obtain ⟨hz, hne⟩ := not_or.1 hvanish
    have hne : ∀ f ∈ l.factors, sign f.1 ≠ some .zero := fun f hf h0 => hne ⟨f, hf, h0⟩
    have hknown : ∀ f ∈ l.factors, sign f.1 = some (σ f.1) ∧ f.2 ≠ 0 := fun f hf => by
      cases hf' : sign f.1 with
      | none =>
        rw [eval, if_neg hz, evalFactors_of_unknown hne ⟨f, hf, hf'⟩] at h
        cases h
      | some t => exact ⟨by rw [hσ f.1 t hf'], Nat.one_le_iff_ne_zero.1 (hm f hf)⟩
    exact Option.some.inj ((eval_eq_some hknown).symm.trans h)

/-- When evaluation finds no sign, zero and a positive sign for all unknown factors give different
products: one vanishes, the other does not. -/
theorem exists_ne_of_eval_eq_none (hm : ∀ f ∈ l.factors, 1 ≤ f.2) (h : l.eval sign = none) :
    ∃ σ τ, Completes σ sign ∧ Completes τ sign ∧ l.signAt σ ≠ l.signAt τ := by
  have hz : l.sign ≠ .zero := fun hz => by
    rw [eval, if_pos hz] at h
    cases h
  have hne : ∀ f ∈ l.factors, sign f.1 ≠ some .zero := fun f hf h0 => by
    rw [eval, if_neg hz, evalFactors_of_vanishes ⟨f, hf, h0⟩] at h
    cases h
  have hunknown : ∃ f ∈ l.factors, sign f.1 = none := by
    by_contra hall
    push Not at hall
    have hknown : ∀ f ∈ l.factors, sign f.1 = some (fillWith .zero sign f.1) ∧ f.2 ≠ 0 :=
      fun f hf => by
        obtain ⟨t, ht⟩ := Option.ne_none_iff_exists'.1 (hall f hf)
        exact ⟨by rw [fillWith, ht, Option.getD_some], Nat.one_le_iff_ne_zero.1 (hm f hf)⟩
    rw [eval_eq_some hknown] at h
    cases h
  refine ⟨_, _, completes_fillWith .zero sign, completes_fillWith .positive sign, fun heq => ?_⟩
  have hzero : l.signAt (fillWith .zero sign) = .zero := by
    obtain ⟨f, hf, hnone⟩ := hunknown
    exact (signAt_eq_zero_iff hm).2 (.inr ⟨f, hf, by rw [fillWith, hnone, Option.getD_none]⟩)
  rcases (signAt_eq_zero_iff hm).1 (heq.symm.trans hzero) with h0 | ⟨f, hf, h0⟩
  · exact hz h0
  · rw [fillWith] at h0
    cases hf' : sign f.1 with
    | none =>
      rw [hf', Option.getD_none] at h0
      cases h0
    | some t =>
      rw [hf', Option.getD_some] at h0
      exact hne f hf (hf'.trans (congrArg some h0))

/-- Evaluation is the best that can be said of the product from the known signs: it finds a sign
exactly when all completions agree on it, and none exactly when two of them differ.  Factors may
repeat. -/
theorem eval_iff_completions (hm : ∀ f ∈ l.factors, 1 ≤ f.2) (sign : FactorRef → Option Sign) :
    (∀ s, l.eval sign = some s ↔ ∀ σ, Completes σ sign → l.signAt σ = s) ∧
      (l.eval sign = none ↔
        ∃ σ τ, Completes σ sign ∧ Completes τ sign ∧ l.signAt σ ≠ l.signAt τ) := by
  have hdecided : ∀ {s}, l.eval sign = some s → ∀ σ, Completes σ sign → l.signAt σ = s :=
    fun h σ hσ => signAt_of_eval hm h hσ
  cases heval : l.eval sign with
  | none =>
    obtain ⟨σ, τ, hσ, hτ, hne⟩ := exists_ne_of_eval_eq_none hm heval
    refine ⟨fun s => ⟨nofun, fun hall => ?_⟩, fun _ => ⟨σ, τ, hσ, hτ, hne⟩, fun _ => rfl⟩
    exact absurd ((hall σ hσ).trans (hall τ hτ).symm) hne
  | some t =>
    refine ⟨fun s => ⟨fun h => hdecided (heval.trans h), fun hall => ?_⟩, nofun, ?_⟩
    · have hfill := completes_fillWith .zero sign
      rw [← hall _ hfill, hdecided heval _ hfill]
    · rintro ⟨σ, τ, hσ, hτ, hne⟩
      exact absurd ((hdecided heval σ hσ).trans (hdecided heval τ hτ).symm) hne

/-- The link `-f ^ 2 * g` with `f` unknown: a zero of `g` decides although it comes after `f`, and
a sign of `g` does not although the power of `f` is even. -/
theorem eval_iff_completions_square :
    let l : Link := ⟨.negative, [(⟨0, 0⟩, 2), (⟨1, 0⟩, 1)]⟩
    let only (s : Sign) (f : FactorRef) : Option Sign := if f = ⟨1, 0⟩ then some s else none
    (∀ f ∈ l.factors, 1 ≤ f.2) ∧
      (∀ σ, Completes σ (only .zero) → l.signAt σ = .zero) ∧
      ∃ σ τ, Completes σ (only .positive) ∧ Completes τ (only .positive) ∧
        l.signAt σ ≠ l.signAt τ := by
  intro l only
  have hm : ∀ f ∈ l.factors, 1 ≤ f.2 := by decide
  exact ⟨hm, ((eval_iff_completions hm (only .zero)).1 .zero).1 (by decide),
    (eval_iff_completions hm (only .positive)).2.1 (by decide)⟩

end Link

end Cylindrical

end
