import Mathlib
import Cylindrical.Projection.Operator
import Cylindrical.Proofs.Focus

/-!
# Links name factors of the projection

A derived polynomial is written over the factors of its levels, so every factor that a link of a
projection names is one of them.  There are as many levels as asked for, and as many links of atoms
as atoms.
-/

namespace Cylindrical

theorem length_of_mapM_eq_ok {ε σ α β : Type} {f : α → EStateM ε σ β} {xs : List α} {ys : List β}
    {s t : σ} (h : xs.mapM f s = .ok ys t) : ys.length = xs.length := by
  induction xs generalizing ys s t with
  | nil =>
    obtain ⟨rfl, rfl⟩ := run_pure_eq_ok h
    rfl
  | cons x xs ih =>
    rw [List.mapM_cons] at h
    obtain ⟨y, s₁, -, h₁⟩ := run_bind_eq_ok h
    obtain ⟨zs, s₂, hzs, h₂⟩ := run_bind_eq_ok h₁
    obtain ⟨rfl, -⟩ := run_pure_eq_ok h₂
    rw [List.length_cons, List.length_cons, ih hzs]

namespace Poly

theorem fst_of_mem_divideOutAll {i : ℕ} {p : Poly} {basis : List Poly} {e : ℕ × ℕ}
    (h : e ∈ (divideOutAll i p basis).2) : e.1 < i + basis.length := by
  induction basis generalizing i p with
  | nil => cases h
  | cons b bs ih =>
    simp only [divideOutAll] at h
    have hlater : e ∈ (divideOutAll (i + 1) (divideOut b p.totalDegree p).1 bs).2 →
        e.1 < i + (b :: bs).length := fun he => by
      have := ih he
      rw [List.length_cons]
      omega
    split_ifs at h
    · exact hlater h
    · rcases List.mem_cons.1 h with rfl | h
      · rw [List.length_cons]
        omega
      · exact hlater h

theorem fst_of_mem_expressOver {basis : List Poly} {p : Poly} {c : ℚ} {ms : List (ℕ × ℕ)}
    (h : expressOver basis p = .ok (c, ms)) {e : ℕ × ℕ} (he : e ∈ ms) : e.1 < basis.length := by
  simp only [expressOver] at h
  split_ifs at h
  cases h
  simpa using fst_of_mem_divideOutAll he

end Poly

namespace Link

theorem mem_insertFactor {f g : FactorRef × ℕ} {fs : List (FactorRef × ℕ)} :
    g ∈ insertFactor f fs ↔ g = f ∨ g ∈ fs := by
  induction fs with
  | nil => simp [insertFactor]
  | cons h fs ih =>
    rw [insertFactor]
    split
    · rw [List.mem_cons, ih, List.mem_cons]
      tauto
    · rw [List.mem_cons]

theorem mem_factors_sorted {l : Link} {g : FactorRef × ℕ} :
    g ∈ l.sorted.factors ↔ g ∈ l.factors := by
  rw [sorted]
  induction l.factors with
  | nil => rfl
  | cons f fs ih => rw [List.foldr_cons, mem_insertFactor, ih, List.mem_cons]

end Link

namespace Projection

/-- All factors of a link are among those of the levels. -/
def LinkClosed (levels : List (List ProjectionFactor)) (l : Link) : Prop :=
  ∀ f ∈ l.factors, f.1.index < (levels.getD f.1.level []).length

/-- All factors of links are among those of the projection. -/
def Closed (p : Projection) : Prop := ∀ i, LinkClosed p.levels (p.links.get i)

variable {levels : List (List ProjectionFactor)}

theorem linkClosed_ofSign (s : Sign) : LinkClosed levels (.ofSign s) := nofun

theorem ref_of_mem_insertPower {f : FactorRef} {m : ℕ} {fs : List (FactorRef × ℕ)}
    {g : FactorRef × ℕ} (h : g ∈ insertPower f m fs) : g.1 = f ∨ ∃ k, (g.1, k) ∈ fs := by
  induction fs with
  | nil =>
    rw [insertPower, List.mem_singleton] at h
    exact .inl (by rw [h])
  | cons e fs ih =>
    rw [insertPower] at h
    split at h
    · rcases List.mem_cons.1 h with rfl | h
      · exact .inl rfl
      · exact .inr ⟨g.2, h⟩
    · rcases List.mem_cons.1 h with rfl | h
      · exact .inl rfl
      · exact .inr ⟨g.2, .tail _ h⟩
    · rcases List.mem_cons.1 h with rfl | h
      · exact .inr ⟨g.2, .head _⟩
      · rcases ih h with h | ⟨k, h⟩
        · exact .inl h
        · exact .inr ⟨k, .tail _ h⟩

theorem linkClosed_foldl_insertPower {s : Sign} {fs : List (FactorRef × ℕ)} {level k : ℕ}
    (h : LinkClosed levels ⟨s, fs⟩) {powers : List (ℕ × ℕ)}
    (hp : ∀ e ∈ powers, e.1 < (levels.getD level []).length) :
    LinkClosed levels
      ⟨s, powers.foldl (fun fs e => insertPower ⟨level, e.1⟩ (e.2 * k) fs) fs⟩ := by
  induction powers generalizing fs with
  | nil => exact h
  | cons e powers ih =>
    refine ih (fun g hg => ?_) fun e he => hp e (.tail _ he)
    rcases ref_of_mem_insertPower hg with hg | ⟨m, hg⟩
    · rw [hg]
      exact hp e (.head _)
    · exact h (g.1, m) hg

theorem linkClosed_multiplyLink {l m : Link} {g : Poly × ℕ} (h : LinkClosed levels l)
    (hm : multiplyLink levels l g = .ok m) : LinkClosed levels m := by
  rw [multiplyLink] at hm
  obtain ⟨⟨c, powers⟩, hpowers, hm⟩ := bind_eq_ok hm
  cases hm
  exact linkClosed_foldl_insertPower (s := l.sign * (Sign.ofRat c).pow g.2) h fun e he => by
    simpa using Poly.fst_of_mem_expressOver hpowers he

theorem linkClosed_linkOf {d : Derived} {l : Link} (h : linkOf levels d = .ok l) :
    LinkClosed levels l := by
  rw [linkOf] at h
  split_ifs at h
  · cases h
    exact linkClosed_ofSign _
  · have hfold : ∀ (gs : List (Poly × ℕ)) (k : Link), LinkClosed levels k →
        gs.foldlM (multiplyLink levels) k = .ok l → LinkClosed levels l := fun gs => by
      induction gs with
      | nil =>
        intro k hk h
        cases h
        exact hk
      | cons g gs ih =>
        intro k hk h
        rw [List.foldlM_cons] at h
        obtain ⟨m, hm, h⟩ := bind_eq_ok h
        exact ih m (linkClosed_multiplyLink hk hm) h
    exact hfold _ _ (linkClosed_ofSign _) h

/-- Interning keeps what holds of all links of a table. -/
theorem linkClosed_intern {t : LinkTable} (ht : ∀ l ∈ t.links, LinkClosed levels l) {l : Link}
    (hl : LinkClosed levels l) : ∀ m ∈ (t.intern l).2.links, LinkClosed levels m := by
  rw [LinkTable.intern]
  split_ifs
  · exact ht
  · split
    · exact ht
    · intro m hm
      rcases Array.mem_push.1 hm with hm | rfl
      · exact ht m hm
      · exact fun f hf => hl f (Link.mem_factors_sorted.1 hf)

theorem linkClosed_storeLinks {ds : List Derived} {ids ids' : Array ℕ} {t u : LinkTable}
    (ht : ∀ l ∈ t.links, LinkClosed levels l) (h : storeLinks levels ds ids t = .ok (ids', u)) :
    ∀ l ∈ u.links, LinkClosed levels l := by
  induction ds generalizing ids t with
  | nil =>
    cases h
    exact ht
  | cons d ds ih =>
    rw [storeLinks] at h
    obtain ⟨l, hl, h⟩ := bind_eq_ok h
    exact ih (linkClosed_intern ht (linkClosed_linkOf hl)) h

theorem length_levelsBelow {op : ProjectionOperator} {truncate : Bool} {inputs : List (List Poly)}
    {n : ℕ} {s t : Run} (h : Run.levelsBelow op truncate inputs n s = .ok levels t) :
    levels.length = n := by
  induction n generalizing levels s t with
  | zero =>
    obtain ⟨rfl, rfl⟩ := run_pure_eq_ok h
    rfl
  | succ n ih =>
    rw [Run.levelsBelow] at h
    obtain ⟨ps, s₁, -, h⟩ := run_bind_eq_ok h
    obtain ⟨basis, s₂, -, h⟩ := run_bind_eq_ok h
    obtain ⟨fs, s₃, -, h⟩ := run_bind_eq_ok h
    obtain ⟨below, s₄, hbelow, h⟩ := run_bind_eq_ok h
    obtain ⟨rfl, -⟩ := run_pure_eq_ok h
    rw [List.length_append, ih hbelow, List.length_singleton]

theorem project_spec {op : ProjectionOperator} {truncate : Bool} {atoms : List Poly} {n : ℕ}
    {s t : State} {p : Projection} {links : List ℕ}
    (h : project op truncate atoms n s = .ok (p, links) t) :
    p.operator = op ∧ p.Closed ∧ p.levels.length = n ∧ links.length = atoms.length := by
  rw [project] at h
  split at h
  · rename_i r u hrun
    cases h
    rw [ofAtoms] at hrun
    obtain ⟨_, s₁, -, hrun⟩ := run_bind_eq_ok hrun
    obtain ⟨requests, s₂, hreq, hrun⟩ := run_bind_eq_ok hrun
    rw [run_get_bind] at hrun
    obtain ⟨levels, s₃, hlevels, hrun⟩ := run_bind_eq_ok hrun
    rw [run_get_bind] at hrun
    obtain ⟨⟨ids, table⟩, s₄, hlinks, hpure⟩ := run_bind_eq_ok hrun
    obtain ⟨hstore, -⟩ := run_lift_eq_ok hlinks
    obtain ⟨hr, -⟩ := run_pure_eq_ok hpure
    obtain ⟨rfl, rfl⟩ := Prod.mk.inj hr
    refine ⟨rfl, fun i f hf => ?_, ?_, ?_⟩
    · have htable : ∀ l ∈ table.links, LinkClosed levels l :=
        linkClosed_storeLinks (t := {}) (fun l hl => by
          rcases List.mem_cons.1 (Array.mem_toList_iff.2 hl) with rfl | hl
          · exact linkClosed_ofSign _
          rcases List.mem_cons.1 hl with rfl | hl
          · exact linkClosed_ofSign _
          obtain rfl := List.mem_singleton.1 hl
          exact linkClosed_ofSign _) hstore
      have hclosed : LinkClosed levels (table.get i) := by
        rw [LinkTable.get, Array.getD_eq_getD_getElem?]
        cases hi : table.links[i]? with
        | none => exact linkClosed_ofSign _
        | some l => exact htable l (Array.mem_of_getElem? hi)
      have hlt := hclosed f hf
      simp only [List.getD_eq_getElem?_getD, List.getElem?_map] at hlt ⊢
      cases hl : levels[f.1.level]? with
      | none =>
        rw [hl] at hlt
        exact absurd hlt (Nat.not_lt_zero _)
      | some fs =>
        rw [hl] at hlt
        simpa using hlt
    · rw [List.length_map, length_levelsBelow hlevels]
    · rw [List.length_map, length_of_mapM_eq_ok hreq]
  · cases h

end Projection

end Cylindrical
