import Mathlib
import Cylindrical.Stack.Lifting
import Cylindrical.Proofs.Stack.RootOrder

/-!
# Merging of sections

Sections in increasing order are a finite map from numbers to the orders of factors there.  Inserting
a root changes this map at the number of the root only, where the factor of the root is added unless
it has an order already (`insert_arranged`).  So what a number of roots leaves behind depends on the
set of them alone, not on the order in which they are inserted nor on how often (`InsertsAll.spec`).
-/

noncomputable section

namespace Cylindrical

/-- The root stands for the number of the pair, is one of its factor, and has the order there that
`mult` gives. -/
structure FactorRoot.At (mult : ℝ → ℕ → ℕ) (r : FactorRoot) (p : ℝ × ℕ) : Prop where
  gives : r.coord.Gives p.1
  factor : r.factor = p.2
  multiplicity : r.multiplicity = mult p.1 p.2

namespace Section

/-- The sections stand for these numbers, which increase strictly. -/
structure Arranged (ss : List Section) (ξs : List ℝ) : Prop where
  gives : List.Forall₂ (fun s ξ => s.coord.Gives ξ) ss ξs
  increasing : ξs.Pairwise (· < ·)

open Classical in
/-- The orders of the factors in the section at a number, if there is one. -/
def ordersAt : List Section → ℝ → Option (List (ℕ × ℕ))
  | [], _ => none
  | s :: ss, ξ => if s.coord.Gives ξ then some s.orders else ordersAt ss ξ

/-- The order of a factor in the section at a number, if the factor is one of that section. -/
def orderAt (ss : List Section) (ξ : ℝ) (f : ℕ) : Option ℕ := (ordersAt ss ξ).bind (·.lookup f)

/-- The orders with that of a factor which has none yet. -/
def addOrder (f m : ℕ) (os : List (ℕ × ℕ)) : List (ℕ × ℕ) :=
  if os.any (·.1 == f) then os else os ++ [(f, m)]

/-- Roots are inserted one after the other, each in a run that returns. -/
inductive InsertsAll : List FactorRoot → List Section → List Section → Prop
  | nil {ss} : InsertsAll [] ss ss
  | cons {cfg c r rs ss ss' ss'' σ τ} (first : insert cfg c r ss σ = .ok ss' τ)
      (rest : InsertsAll rs ss' ss'') : InsertsAll (r :: rs) ss ss''

variable {cfg : Stack.Config} {c : Cylinder} {r : FactorRoot} {s : Section} {ss ss' : List Section}
  {σ τ : StackState} {ξ η ρ : ℝ} {ξs : List ℝ} {f j m : ℕ}

/-! ## Sections as a map -/

theorem ordersAt_cons (h : s.coord.Gives η) :
    ordersAt (s :: ss) ξ = if ξ = η then some s.orders else ordersAt ss ξ := by
  rw [ordersAt]
  by_cases hξ : ξ = η
  · rw [if_pos hξ, if_pos (hξ ▸ h)]
  · rw [if_neg hξ, if_neg fun h' => hξ (h'.unique h)]

theorem arranged_cons : Arranged (s :: ss) (ξ :: ξs) ↔
    s.coord.Gives ξ ∧ (∀ η ∈ ξs, ξ < η) ∧ Arranged ss ξs := by
  refine ⟨fun ⟨hgives, hinc⟩ => ?_, fun ⟨hs, hlt, hss⟩ => ?_⟩
  · obtain ⟨hs, hss⟩ := List.forall₂_cons.1 hgives
    obtain ⟨hlt, hinc⟩ := List.pairwise_cons.1 hinc
    exact ⟨hs, hlt, hss, hinc⟩
  · exact ⟨.cons hs hss.gives, .cons hlt hss.increasing⟩

namespace Arranged

theorem nil : Arranged [] [] := ⟨.nil, .nil⟩

theorem ordersAt_eq_none (h : Arranged ss ξs) (hξ : ξ ∉ ξs) : ordersAt ss ξ = none := by
  obtain ⟨hgives, -⟩ := h
  induction hgives with
  | nil => rfl
  | cons hs _ ih =>
    rw [List.mem_cons, not_or] at hξ
    rw [ordersAt_cons hs, if_neg hξ.1, ih hξ.2]

/-- The map gives back the orders of all sections. -/
theorem map_ordersAt (h : Arranged ss ξs) : ξs.map (ordersAt ss) = ss.map fun s => some s.orders := by
  induction ss generalizing ξs with
  | nil =>
    cases h.gives
    rfl
  | cons s ss ih =>
    obtain - | ⟨-, -⟩ := h.gives
    rename_i ξ ξs
    obtain ⟨hs, hlt, hss⟩ := arranged_cons.1 h
    rw [List.map_cons, List.map_cons, ordersAt_cons hs, if_pos rfl, ← ih hss]
    refine congrArg _ (List.map_congr_left fun η hη => ?_)
    rw [ordersAt_cons hs, if_neg (hlt η hη).ne']

/-- The orders of all factors in the sections, one function for each. -/
theorem map_lookup (h : Arranged ss ξs) :
    (ss.map fun s f => s.orders.lookup f) = ξs.map (orderAt ss) := by
  have hmap := congrArg (List.map fun os? f => Option.bind os? (·.lookup f)) h.map_ordersAt
  rw [List.map_map, List.map_map] at hmap
  exact hmap.symm

theorem eq_of_mem_iff {ξs' : List ℝ} (h : Arranged ss ξs) (h' : Arranged ss' ξs')
    (hmem : ∀ ξ, ξ ∈ ξs ↔ ξ ∈ ξs') : ξs = ξs' :=
  List.Pairwise.eq_of_mem_iff h.increasing h'.increasing fun {ξ} => hmem ξ

end Arranged

theorem any_eq_isSome_lookup (os : List (ℕ × ℕ)) (f : ℕ) :
    os.any (·.1 == f) = (os.lookup f).isSome := by
  induction os with
  | nil => rfl
  | cons o os ih =>
    rw [List.any_cons, List.lookup_cons, ih, Bool.beq_comm]
    cases f == o.1 <;> rfl

theorem has_eq_isSome_lookup (s : Section) : s.has = fun f => (s.orders.lookup f).isSome :=
  funext (any_eq_isSome_lookup s.orders)

theorem addOrder_of_isSome {os : List (ℕ × ℕ)} (h : (os.lookup f).isSome) :
    addOrder f m os = os := by
  rw [addOrder, any_eq_isSome_lookup, if_pos h]

theorem lookup_addOrder (os : List (ℕ × ℕ)) (f m j : ℕ) :
    (addOrder f m os).lookup j = (os.lookup j).or (if j = f then some m else none) := by
  rw [addOrder, any_eq_isSome_lookup]
  split_ifs with hf hj hj
  · subst hj
    exact (Option.or_eq_left_of_isSome hf).symm
  · rw [Option.or_none]
  · rw [List.lookup_append, List.lookup_cons, beq_iff_eq.2 hj]
  · rw [List.lookup_append, List.lookup_cons, beq_eq_false_iff_ne.2 hj, List.lookup_nil]

/-! ## Insertion -/

/-- What one comparison leads to: the root comes before the first section, or is inserted behind it,
or joins it. -/
theorem insert_cons_eq_ok (hs : s.coord.Gives ξ) (hr : r.coord.Gives ρ)
    (h : insert cfg c r (s :: ss) σ = .ok ss' τ) :
    ∃ x y, Coordinate.Gives x ρ ∧ Coordinate.Gives y ξ ∧
      ((ρ < ξ ∧ ss' = ofRoot { r with coord := x } :: { s with coord := y } :: ss) ∨
        (ξ < ρ ∧ ∃ σ' rest, insert cfg c { r with coord := x } ss σ' = .ok rest τ ∧
          ss' = { s with coord := y } :: rest) ∨
        (ρ = ξ ∧ ∃ t : Section, t.coord.Gives ξ ∧
          t.orders = addOrder r.factor r.multiplicity s.orders ∧ ss' = t :: ss)) := by
  rw [insert] at h
  obtain ⟨⟨o, x, y⟩, σ', hcompare, h⟩ := run_bind_eq_ok h
  obtain ⟨ho, hx, hy⟩ := Stack.compare_spec hr hs hcompare
  refine ⟨x, y, hx, hy, ?_⟩
  cases o with
  | lt =>
    obtain ⟨rfl, -⟩ := run_pure_eq_ok h
    exact .inl ⟨ho, rfl⟩
  | gt =>
    obtain ⟨rest, σ'', hrest, h⟩ := run_bind_eq_ok h
    obtain ⟨rfl, rfl⟩ := run_pure_eq_ok h
    exact .inr (.inl ⟨ho, σ', rest, hrest, rfl⟩)
  | eq =>
    obtain rfl : ρ = ξ := ho
    refine .inr (.inr ⟨rfl, ?_⟩)
    by_cases hhas : Section.has ⟨y, s.orders⟩ r.factor = true
    · simp only [hhas, if_true] at h
      obtain ⟨rfl, -⟩ := run_pure_eq_ok h
      exact ⟨⟨y, s.orders⟩, hy, (if_pos hhas).symm, rfl⟩
    · simp only [hhas] at h
      obtain ⟨_, σ'', -, h⟩ := run_bind_eq_ok h
      obtain ⟨rfl, -⟩ := run_pure_eq_ok h
      refine ⟨_, ?_, (if_neg hhas).symm, rfl⟩
      simp only [merge]
      split_ifs
      · exact hx
      · exact hy

/-- Inserting a root changes the map that the sections are at its number only. -/
theorem insert_arranged (hss : Arranged ss ξs) (hr : r.coord.Gives ρ)
    (h : insert cfg c r ss σ = .ok ss' τ) :
    ∃ ξs', Arranged ss' ξs' ∧ (∀ ξ, ξ ∈ ξs' ↔ ξ = ρ ∨ ξ ∈ ξs) ∧
      ∀ ξ, ordersAt ss' ξ = if ξ = ρ then
        some (addOrder r.factor r.multiplicity ((ordersAt ss ρ).getD [])) else ordersAt ss ξ := by
  induction ss generalizing ξs r σ ss' with
  | nil =>
    cases hss.gives
    obtain ⟨rfl, -⟩ := run_pure_eq_ok h
    refine ⟨[ρ], arranged_cons.2 ⟨hr, List.forall_mem_nil _, .nil⟩, fun ξ => List.mem_cons,
      fun ξ => ordersAt_cons hr⟩
  | cons s ss ih =>
    obtain - | ⟨-, -⟩ := hss.gives
    rename_i ξ₀ ξs
    obtain ⟨hs, hlt, hss'⟩ := arranged_cons.1 hss
    obtain ⟨x, y, hx, hy, ⟨hρ, rfl⟩ | ⟨hρ, σ', rest, hrest, rfl⟩ | ⟨rfl, t, ht, horders, rfl⟩⟩ :=
      insert_cons_eq_ok hs hr h
    · have hbelow : ∀ η ∈ ξ₀ :: ξs, ρ < η :=
        List.forall_mem_cons.2 ⟨hρ, fun η hη => hρ.trans (hlt η hη)⟩
      refine ⟨ρ :: ξ₀ :: ξs, arranged_cons.2 ⟨hx, hbelow, arranged_cons.2 ⟨hy, hlt, hss'⟩⟩,
        fun ξ => List.mem_cons, fun ξ => ?_⟩
      rw [hss.ordersAt_eq_none fun hmem => (hbelow ρ hmem).false, ordersAt_cons hs]
      exact (ordersAt_cons hx).trans (by rw [ordersAt_cons hy]; rfl)
    · obtain ⟨ξs', harranged, hmem, hrest⟩ := ih hss' hx hrest
      refine ⟨ξ₀ :: ξs', arranged_cons.2 ⟨hy, fun η hη => ?_, harranged⟩, fun ξ => ?_, fun ξ => ?_⟩
      · rcases (hmem η).1 hη with rfl | hη
        · exact hρ
        · exact hlt η hη
      · rw [List.mem_cons, hmem, List.mem_cons, or_left_comm]
      · rw [ordersAt_cons hy, hrest, ordersAt_cons hs, ordersAt_cons hs, if_neg hρ.ne']
        split_ifs with hξ hξ'
        · exact absurd (hξ.symm.trans hξ') hρ.ne
        · rfl
        · rfl
        · rfl
    · refine ⟨ρ :: ξs, arranged_cons.2 ⟨ht, hlt, hss'⟩, fun ξ => ?_, fun ξ => ?_⟩
      · rw [List.mem_cons, or_self_left]
      · rw [ordersAt_cons ht, ordersAt_cons hs, ordersAt_cons hs, if_pos rfl, horders,
          Option.getD_some]
        split_ifs <;> rfl

theorem lookup_getD (ss : List Section) (ξ : ℝ) (f : ℕ) :
    ((ordersAt ss ξ).getD []).lookup f = orderAt ss ξ f := by
  rw [orderAt]
  cases ordersAt ss ξ <;> rfl

/-- Of all orders only that of the factor at the root is new, and only if there was none. -/
theorem orderAt_insert (hss : Arranged ss ξs) (hr : r.coord.Gives ρ)
    (h : insert cfg c r ss σ = .ok ss' τ) (ξ : ℝ) (f : ℕ) : orderAt ss' ξ f =
      (orderAt ss ξ f).or (if (ξ, f) = (ρ, r.factor) then some r.multiplicity else none) := by
  obtain ⟨-, -, -, horders⟩ := insert_arranged hss hr h
  rw [orderAt, horders]
  by_cases hξ : ξ = ρ
  · subst hξ
    simp only [if_true, Option.bind_some, lookup_addOrder, lookup_getD, Prod.mk.injEq, true_and]
  · simp only [Prod.mk.injEq, hξ, false_and, if_false, Option.or_none, orderAt]

/-- A root of a factor that has an order there already leaves all numbers and orders as they are. -/
theorem insert_of_isSome (hss : Arranged ss ξs) (hr : r.coord.Gives ρ)
    (h : insert cfg c r ss σ = .ok ss' τ) (hold : (orderAt ss ρ r.factor).isSome) :
    Arranged ss' ξs ∧ ss'.map (·.orders) = ss.map (·.orders) := by
  obtain ⟨ξs', harranged, hmem, horders⟩ := insert_arranged hss hr h
  obtain ⟨os, hos, hlookup⟩ : ∃ os, ordersAt ss ρ = some os ∧ (os.lookup r.factor).isSome := by
    rw [orderAt, Option.isSome_bind, Option.any_eq_true] at hold
    exact hold
  have hsame : ordersAt ss' = ordersAt ss := funext fun ξ => by
    rw [horders, hos, Option.getD_some, addOrder_of_isSome hlookup]
    split_ifs with hξ
    · rw [hξ, hos]
    · rfl
  have hρ : ρ ∈ ξs := by
    by_contra hρ
    rw [hss.ordersAt_eq_none hρ] at hos
    cases hos
  obtain rfl : ξs' = ξs := harranged.eq_of_mem_iff hss fun ξ => by
    rw [hmem, or_iff_right_of_imp]
    exact fun hξ => hξ ▸ hρ
  refine ⟨harranged, List.map_injective_iff.2 (Option.some_injective _) ?_⟩
  rw [List.map_map, List.map_map]
  exact harranged.map_ordersAt.symm.trans ((congrArg (List.map · _) hsame).trans hss.map_ordersAt)

/-! ## Several roots -/

variable {mult : ℝ → ℕ → ℕ} {rs rs' : List FactorRoot} {ps ps' : List (ℝ × ℕ)}
  {ss₁ ss₂ : List Section}

/-- What the sections are afterwards depends on the set of the roots only. -/
theorem InsertsAll.spec (h : InsertsAll rs ss ss') (hss : Arranged ss ξs)
    (hrs : List.Forall₂ (FactorRoot.At mult) rs ps) :
    ∃ ξs', Arranged ss' ξs' ∧ (∀ ξ, ξ ∈ ξs' ↔ ξ ∈ ξs ∨ ∃ f, (ξ, f) ∈ ps) ∧
      ∀ ξ f, orderAt ss' ξ f =
        (orderAt ss ξ f).or (if (ξ, f) ∈ ps then some (mult ξ f) else none) := by
  induction h generalizing ξs ps with
  | nil =>
    cases hrs
    exact ⟨ξs, hss, fun ξ => by simp, fun ξ f => by simp⟩
  | cons first rest ih =>
    obtain - | ⟨hp, hps⟩ := hrs
    rename_i p ps
    obtain ⟨ξs₁, hss₁, hmem₁, -⟩ := insert_arranged hss hp.gives first
    obtain ⟨ξs₂, hss₂, hmem₂, horders⟩ := ih hss₁ hps
    refine ⟨ξs₂, hss₂, fun ξ => ?_, fun ξ f => ?_⟩
    · have hfst : (∃ f, (ξ, f) = p) ↔ ξ = p.1 := ⟨fun ⟨f, hf⟩ => congrArg Prod.fst hf,
        fun hξ => ⟨p.2, Prod.ext hξ rfl⟩⟩
      simp only [hmem₂, hmem₁, List.mem_cons, exists_or, hfst, or_left_comm, or_assoc]
    · rw [horders, orderAt_insert hss hp.gives first, Option.or_assoc, hp.factor, hp.multiplicity]
      by_cases hξ : (ξ, f) = p
      · subst hξ
        simp
      · simp [hξ]

/-- The same set of roots leads to sections at the same numbers, with the same factors and orders. -/
theorem InsertsAll.congr (h₁ : InsertsAll rs ss ss₁) (h₂ : InsertsAll rs' ss ss₂)
    (hss : Arranged ss ξs) (hrs : List.Forall₂ (FactorRoot.At mult) rs ps)
    (hrs' : List.Forall₂ (FactorRoot.At mult) rs' ps') (hps : ∀ p, p ∈ ps ↔ p ∈ ps') :
    ∃ ξs', Arranged ss₁ ξs' ∧ Arranged ss₂ ξs' ∧ ss₁.map (·.has) = ss₂.map (·.has) ∧
      ss₁.map (·.order) = ss₂.map (·.order) := by
  obtain ⟨ξs₁, harranged₁, hmem₁, horders₁⟩ := h₁.spec hss hrs
  obtain ⟨ξs₂, harranged₂, hmem₂, horders₂⟩ := h₂.spec hss hrs'
  obtain rfl : ξs₁ = ξs₂ := harranged₁.eq_of_mem_iff harranged₂ fun ξ => by
    simp only [hmem₁, hmem₂, hps]
  have hlookup : (ss₁.map fun s f => s.orders.lookup f) = ss₂.map fun s f => s.orders.lookup f := by
    rw [harranged₁.map_lookup, harranged₂.map_lookup]
    congr 1
    funext ξ f
    simp only [horders₁, horders₂, hps]
  have hhas := congrArg (List.map fun g f => (g f).isSome) hlookup
  have horder := congrArg (List.map fun g f => (g f).getD 0) hlookup
  rw [List.map_map, List.map_map] at hhas horder
  refine ⟨ξs₁, harranged₁, harranged₂, ?_, horder⟩
  simp only [has_eq_isSome_lookup]
  exact hhas

/-! ## The roots of all factors -/

theorem InsertsAll.append (h : InsertsAll rs ss ss₁) (h' : InsertsAll rs' ss₁ ss₂) :
    InsertsAll (rs ++ rs') ss ss₂ := by
  induction h with
  | nil => exact h'
  | cons first _ ih => exact .cons first (ih h')

theorem insertsAll_of_foldlM {step : List Section → FactorRoot → StackM (List Section)}
    (hstep : ∀ {ss ss' r σ τ}, step ss r σ = .ok ss' τ → ∃ σ', insert cfg c r ss σ' = .ok ss' τ)
    (h : rs.foldlM step ss σ = .ok ss' τ) : InsertsAll rs ss ss' := by
  induction rs generalizing ss σ with
  | nil =>
    obtain ⟨rfl, -⟩ := run_pure_eq_ok h
    exact .nil
  | cons r rs ih =>
    rw [List.foldlM_cons] at h
    obtain ⟨ss₁, σ₁, hfirst, hrest⟩ := run_bind_eq_ok h
    obtain ⟨σ', hfirst⟩ := hstep hfirst
    exact .cons hfirst (ih hrest)

/-- The sections of a stack are what the roots of its factors leave behind. -/
theorem insertsAll_of_addFactors {zero : ZeroTest.Config} {i : ℕ} {fs : List ProjectionFactor}
    {a : List Stack.Shape × List Section}
    (h : Stack.addFactors cfg zero c i fs ss σ = .ok a τ) : ∃ rs, InsertsAll rs ss a.2 := by
  induction fs generalizing i ss σ τ a with
  | nil =>
    obtain ⟨rfl, -⟩ := run_pure_eq_ok h
    exact ⟨[], .nil⟩
  | cons f fs ih =>
    rw [Stack.addFactors] at h
    obtain ⟨sh, σ₁, -, h⟩ := run_bind_eq_ok h
    obtain ⟨rs, σ₂, h⟩ : ∃ (rs : List FactorRoot) (σ₂ : StackState), (do
        let ss ← rs.foldlM (fun ss r => do
          Stack.count fun s => { s with roots := s.roots + 1 }
          insert cfg c r ss) ss
        let b ← Stack.addFactors cfg zero c (i + 1) fs ss
        return (sh :: b.1, b.2) : StackM _) σ₂ = .ok a τ := by
      cases sh with
      | constant _ =>
        obtain ⟨rs, σ₂, -, h⟩ := run_bind_eq_ok h
        exact ⟨rs, σ₂, h⟩
      | roots _ _ =>
        obtain ⟨rs, σ₂, -, h⟩ := run_bind_eq_ok h
        exact ⟨rs, σ₂, h⟩
    obtain ⟨ss₁, σ₃, hfold, h⟩ := run_bind_eq_ok h
    obtain ⟨b, σ₄, hrest, h⟩ := run_bind_eq_ok h
    obtain ⟨rfl, -⟩ := run_pure_eq_ok h
    obtain ⟨rs', hrs'⟩ := ih hrest
    have hstep : InsertsAll rs ss ss₁ := insertsAll_of_foldlM (fun hrun => by
      obtain ⟨_, σ', -, hrun⟩ := run_bind_eq_ok hrun
      exact ⟨σ', hrun⟩) hfold
    exact ⟨rs ++ rs', hstep.append hrs'⟩

/-- Into sections in strictly increasing order a root is merged, whatever links say about common
roots: if the insertion returns, the sections are again in strictly increasing order, at the number of
the root and those before; the section at this number has the order of the root for its factor, unless
the factor has an order there already, in which case all factors and orders stay; all other orders
stay in either case.  So any two sequences of roots that are the same set of roots of factors, of
orders that depend on the number and the factor, lead to the same numbers, factors and orders; and the
sections of a stack come about in such a sequence. -/
theorem insert_merges (hss : Arranged ss ξs) :
    (∀ {cfg : Stack.Config} {c : Cylinder} {r : FactorRoot} {ρ : ℝ} {ss' : List Section}
        {σ τ : StackState}, r.coord.Gives ρ → insert cfg c r ss σ = .ok ss' τ →
      (∃ ξs', Arranged ss' ξs' ∧ ∀ ξ, ξ ∈ ξs' ↔ ξ = ρ ∨ ξ ∈ ξs) ∧
      (orderAt ss ρ r.factor = none → orderAt ss' ρ r.factor = some r.multiplicity) ∧
      (∀ f, f ≠ r.factor → orderAt ss' ρ f = orderAt ss ρ f) ∧
      (∀ ξ, ξ ≠ ρ → ordersAt ss' ξ = ordersAt ss ξ) ∧
      ((orderAt ss ρ r.factor).isSome →
        Arranged ss' ξs ∧ ss'.map (·.orders) = ss.map (·.orders))) ∧
    (∀ {mult : ℝ → ℕ → ℕ} {rs rs' : List FactorRoot} {ps ps' : List (ℝ × ℕ)}
        {ss₁ ss₂ : List Section}, List.Forall₂ (FactorRoot.At mult) rs ps →
      List.Forall₂ (FactorRoot.At mult) rs' ps' → (∀ p, p ∈ ps ↔ p ∈ ps') →
      InsertsAll rs ss ss₁ → InsertsAll rs' ss ss₂ →
      ∃ ξs', Arranged ss₁ ξs' ∧ Arranged ss₂ ξs' ∧ ss₁.map (·.has) = ss₂.map (·.has) ∧
        ss₁.map (·.order) = ss₂.map (·.order)) ∧
    ∀ {cfg : Stack.Config} {zero : ZeroTest.Config} {c : Cylinder} {i : ℕ}
        {fs : List ProjectionFactor} {a : List Stack.Shape × List Section} {σ τ : StackState},
      Stack.addFactors cfg zero c i fs ss σ = .ok a τ → ∃ rs, InsertsAll rs ss a.2 := by
  refine ⟨fun {cfg c r ρ ss' σ τ} hr h => ?_,
    fun hrs hrs' hps h₁ h₂ => h₁.congr h₂ hss hrs hrs' hps, insertsAll_of_addFactors⟩
  obtain ⟨ξs', harranged, hmem, horders⟩ := insert_arranged hss hr h
  have horder := orderAt_insert hss hr h
  refine ⟨⟨ξs', harranged, hmem⟩, fun hnone => ?_, fun f hf => ?_, fun ξ hξ => ?_,
    insert_of_isSome hss hr h⟩
  · rw [horder, hnone, Option.none_or, if_pos rfl]
  · rw [horder, if_neg fun hp => hf (congrArg Prod.snd hp), Option.or_none]
  · rw [horders, if_neg hξ]

/-! ## Roots of two factors -/

/-- The square root of two as a root of a factor that has the order `m` there. -/
def rootOfTwo (s : Interval) (f m : ℕ) : FactorRoot :=
  ⟨.algebraic (.ofRoot (.ofPower 1 2 - .const 2) [-2, 0, 1] s), f, m⟩

/-- One as a root of the factor with the number 0. -/
def rootOfOne : FactorRoot :=
  ⟨.algebraic (.ofRoot (.ofPower 1 2 - .const 1) [-1, 0, 1] ⟨1 / 2, 3 / 2⟩), 0, 1⟩

theorem gives_rootOfTwo {s : Interval} (f m : ℕ) (hlo : (s.lo : ℝ) ≤ 1) (hhi : 2 ≤ (s.hi : ℝ))
    (hs : 0 ≤ s.lo) : (rootOfTwo s f m).coord.Gives √2 := by
  have hsq : √2 ^ 2 = 2 := Real.sq_sqrt (by norm_num)
  have hone : 1 < √2 := Real.lt_sqrt_of_sq_lt (by norm_num)
  have htwo : √2 < 2 := (Real.sqrt_lt' two_pos).2 (by norm_num)
  exact isolates_squareRoot (by norm_num) (by rw [hsq, Rat.cast_ofNat]) (hlo.trans_lt hone)
    (htwo.trans_le hhi) (.inl hs)

theorem gives_rootOfOne : rootOfOne.coord.Gives 1 :=
  isolates_squareRoot (by norm_num) (by norm_num) (by norm_num) (by norm_num) (.inl (by norm_num))

/-- The cylinder over a point without known links. -/
def lineOver : Cylinder := ⟨.mcCallum, [], 1, 0, fun _ => none⟩

theorem exists_insertsAll (rs : List FactorRoot) (ss : List Section)
    (h : (returned? (rs.foldlM (fun ss r => insert {} lineOver r ss) ss {})).isSome = true) :
    ∃ ss', InsertsAll rs ss ss' := by
  obtain ⟨ss', hss'⟩ := Option.isSome_iff_exists.1 h
  obtain ⟨τ, hrun⟩ := exists_eq_ok hss'
  exact ⟨ss', insertsAll_of_foldlM (fun hrun => ⟨_, hrun⟩) hrun⟩

/-- Two factors have the square root of two as a root, and one: the second joins the section of the
first, and their roots in two sequences, one of them with a repetition, lead to the same orders. -/
theorem insert_merges_sqrtTwo : ∃ (ss ss' ss₁ ss₂ : List Section) (τ : StackState) (ξs' : List ℝ),
    Arranged ss [√2] ∧ insert {} lineOver (rootOfTwo ⟨0, 4⟩ 1 2) ss {} = .ok ss' τ ∧
    orderAt ss' √2 0 = some 1 ∧ orderAt ss' √2 1 = some 2 ∧
    InsertsAll [rootOfOne, ⟨.rational 1, 1, 2⟩, rootOfTwo ⟨0, 4⟩ 1 2] ss ss₁ ∧
    InsertsAll [rootOfTwo ⟨0, 4⟩ 1 2, ⟨.rational 1, 1, 2⟩, rootOfOne, ⟨.rational 1, 1, 2⟩] ss ss₂ ∧
    Arranged ss₁ ξs' ∧ Arranged ss₂ ξs' ∧ ss₁.map (·.order) = ss₂.map (·.order) := by
  have htwo : (rootOfTwo ⟨1, 2⟩ 0 1).coord.Gives √2 :=
    gives_rootOfTwo 0 1 (by norm_num) (by norm_num) (by norm_num)
  have htwo' : (rootOfTwo ⟨0, 4⟩ 1 2).coord.Gives √2 :=
    gives_rootOfTwo 1 2 (by norm_num) (by norm_num) (by norm_num)
  have hone : (Coordinate.rational 1).Gives 1 := Rat.cast_one.symm
  have hss : Arranged [ofRoot (rootOfTwo ⟨1, 2⟩ 0 1)] [√2] :=
    arranged_cons.2 ⟨htwo, List.forall_mem_nil _, .nil⟩
  have horders : ordersAt [ofRoot (rootOfTwo ⟨1, 2⟩ 0 1)] √2 = some [(0, 1)] :=
    (ordersAt_cons htwo).trans (if_pos rfl)
  obtain ⟨ss', hss'⟩ := Option.isSome_iff_exists.1 (show (returned? (insert {} lineOver
    (rootOfTwo ⟨0, 4⟩ 1 2) [ofRoot (rootOfTwo ⟨1, 2⟩ 0 1)] {})).isSome = true by decide +kernel)
  obtain ⟨τ, hinsert⟩ := exists_eq_ok hss'
  obtain ⟨ss₁, h₁⟩ := exists_insertsAll [rootOfOne, ⟨.rational 1, 1, 2⟩, rootOfTwo ⟨0, 4⟩ 1 2]
    [ofRoot (rootOfTwo ⟨1, 2⟩ 0 1)] (by decide +kernel)
  obtain ⟨ss₂, h₂⟩ := exists_insertsAll [rootOfTwo ⟨0, 4⟩ 1 2, ⟨.rational 1, 1, 2⟩, rootOfOne,
    ⟨.rational 1, 1, 2⟩] [ofRoot (rootOfTwo ⟨1, 2⟩ 0 1)] (by decide +kernel)
  obtain ⟨hmerge, hsequences, -⟩ := insert_merges hss
  obtain ⟨-, hnew, hold, -, -⟩ := hmerge htwo' hinsert
  have hp : FactorRoot.At (fun _ f => f + 1) ⟨.rational 1, 1, 2⟩ (1, 1) := ⟨hone, rfl, rfl⟩
  have hq : FactorRoot.At (fun _ f => f + 1) rootOfOne (1, 0) := ⟨gives_rootOfOne, rfl, rfl⟩
  have hr : FactorRoot.At (fun _ f => f + 1) (rootOfTwo ⟨0, 4⟩ 1 2) (√2, 1) := ⟨htwo', rfl, rfl⟩
  obtain ⟨ξs', hξs₁, hξs₂, -, horder⟩ := hsequences (.cons hq (.cons hp (.cons hr .nil)))
    (.cons hr (.cons hp (.cons hq (.cons hp .nil))))
    (fun p => by simp only [List.mem_cons, List.not_mem_nil, or_false]; tauto) h₁ h₂
  refine ⟨_, ss', ss₁, ss₂, τ, ξs', hss, hinsert, ?_, hnew ?_, h₁, h₂, hξs₁, hξs₂, horder⟩
  · rw [hold 0 (by decide), orderAt, horders]
    rfl
  · rw [orderAt, horders]
    rfl

end Section

end Cylindrical

end
