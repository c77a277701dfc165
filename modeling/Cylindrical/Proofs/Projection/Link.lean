import Mathlib
import Cylindrical.Proofs.Poly.CoprimeBasis
import Cylindrical.Proofs.Projection.Closed
import Cylindrical.Proofs.Sign

/-!
# Signs of links

A link that is evaluated with the signs of all factors at a point has the sign of its product there
(`Link.eval_eq_some`).  A derived polynomial whose factors are products over the bases of their
levels has a link, and the link has the sign of the derived polynomial at every point
(`Projection.returns_linkOf`).
-/

noncomputable section

namespace Cylindrical

namespace FactorRef

theorem eq_of_compare {f g : FactorRef} (h : f.compare g = .eq) : f = g := by
  rw [compare, Ordering.then_eq_eq, Nat.compare_eq_eq, Nat.compare_eq_eq] at h
  cases f
  cases g
  simp_all

end FactorRef

namespace Link

/-- The sign of the product when all factors have signs. -/
def signAt (σ : FactorRef → Sign) (l : Link) : Sign :=
  l.sign * (l.factors.map fun f => σ f.1 ^ f.2).prod

variable {σ : FactorRef → Sign} {sign : FactorRef → Option Sign}

theorem evalFactors_eq_some {fs : List (FactorRef × ℕ)}
    (h : ∀ f ∈ fs, sign f.1 = some (σ f.1) ∧ f.2 ≠ 0) (s : Sign) :
    evalFactors sign (some s) fs = some (s * (fs.map fun f => σ f.1 ^ f.2).prod) := by
  induction fs generalizing s with
  | nil => rw [evalFactors, List.map_nil, List.prod_nil, mul_one]
  | cons f fs ih =>
    obtain ⟨⟨hf, hm⟩, hfs⟩ := List.forall_mem_cons.1 h
    rw [evalFactors, hf, List.map_cons, List.prod_cons]
    split
    · rename_i hzero
      rw [Option.some.inj hzero, Sign.zero_pow hm, Sign.zero_mul, Sign.mul_zero]
    · rename_i t _ ht
      rw [Option.some.inj ht, Option.map_some, ih hfs, Sign.pow_eq, mul_assoc]
    · rename_i hnone
      cases hnone

/-- With all factors known, evaluation gives the sign of the product. -/
theorem eval_eq_some {l : Link} (h : ∀ f ∈ l.factors, sign f.1 = some (σ f.1) ∧ f.2 ≠ 0) :
    l.eval sign = some (l.signAt σ) := by
  rw [eval, signAt]
  split_ifs with hz
  · rw [hz, Sign.zero_mul]
  · exact evalFactors_eq_some h _

theorem signAt_sorted (σ : FactorRef → Sign) (l : Link) : l.sorted.signAt σ = l.signAt σ := by
  have hinsert : ∀ (f : FactorRef × ℕ) fs, ((insertFactor f fs).map fun f => σ f.1 ^ f.2).prod =
      σ f.1 ^ f.2 * (fs.map fun f => σ f.1 ^ f.2).prod := fun f fs => by
    induction fs with
    | nil => rfl
    | cons g gs ih =>
      rw [insertFactor]
      split
      · rw [List.map_cons, List.prod_cons, ih, List.map_cons, List.prod_cons, mul_left_comm]
      · rw [List.map_cons, List.prod_cons]
  rw [signAt, signAt, sorted]
  congr 1
  induction l.factors with
  | nil => rfl
  | cons f fs ih => rw [List.foldr_cons, hinsert, ih, List.map_cons, List.prod_cons]

end Link

namespace Projection

variable {levels : List (List ProjectionFactor)} {x : ℕ → ℝ} {d : Derived} {l : Link}

theorem prod_insertPower (σ : FactorRef → Sign) (f : FactorRef) (m : ℕ)
    (fs : List (FactorRef × ℕ)) :
    ((insertPower f m fs).map fun f => σ f.1 ^ f.2).prod =
      σ f ^ m * (fs.map fun f => σ f.1 ^ f.2).prod := by
  induction fs with
  | nil => rfl
  | cons g gs ih =>
    rw [insertPower]
    split
    · rw [List.map_cons, List.prod_cons]
    · rename_i heq
      rw [FactorRef.eq_of_compare heq, List.map_cons, List.prod_cons, List.map_cons, List.prod_cons,
        ← mul_assoc, ← pow_add, add_comm m]
    · rw [List.map_cons, List.prod_cons, ih, List.map_cons, List.prod_cons, mul_left_comm]

theorem snd_ne_zero_of_mem_insertPower {f : FactorRef} {m : ℕ} {fs : List (FactorRef × ℕ)}
    (hm : m ≠ 0) (hfs : ∀ g ∈ fs, g.2 ≠ 0) : ∀ g ∈ insertPower f m fs, g.2 ≠ 0 := by
  induction fs with
  | nil => exact List.forall_mem_singleton.2 hm
  | cons g gs ih =>
    obtain ⟨hg, hgs⟩ := List.forall_mem_cons.1 hfs
    rw [insertPower]
    split
    · exact List.forall_mem_cons.2 ⟨hm, hfs⟩
    · refine List.forall_mem_cons.2 ⟨?_, hgs⟩
      dsimp only
      omega
    · exact List.forall_mem_cons.2 ⟨hg, ih hgs⟩

/-! ## Derived polynomials -/

/-- The level where a polynomial is treated. -/
def levelOf (p : Poly) : ℕ := p.mainVar?.getD 0

/-- The polynomials of the factors of a level. -/
def basisAt (levels : List (List ProjectionFactor)) (level : ℕ) : List Poly :=
  (levels.getD level []).map (·.poly)

/-- The sign of a factor at a point. -/
def factorSign (levels : List (List ProjectionFactor)) (x : ℕ → ℝ) (f : FactorRef) : Sign :=
  .ofReal (((basisAt levels f.level).getD f.index 0).value x)

/-- The sign of a derived polynomial at a point. -/
def Derived.signAt (x : ℕ → ℝ) (d : Derived) : Sign :=
  d.sign * (d.factors.map fun g => Sign.ofReal (g.1.value x) ^ g.2).prod

/-- A power of a polynomial that is a product over the basis of its level. -/
structure Expressible (levels : List (List ProjectionFactor)) (g : Poly × ℕ) : Prop where
  order : g.1.order = .grLex
  ne_zero : g.1.toMv ≠ 0
  exponent : g.2 ≠ 0
  mem : g.1.toMv ∈ Poly.productsOver (basisAt levels (levelOf g.1))

/-- The bases of all levels are coprime. -/
def CoprimeLevels (levels : List (List ProjectionFactor)) : Prop :=
  ∀ level, ∃ s, Poly.CoprimeIn s (basisAt levels level)

theorem foldl_insertPower_spec (level : ℕ) {k : ℕ} (hk : k ≠ 0) {powers : List (ℕ × ℕ)}
    (hp : ∀ e ∈ powers, e.2 ≠ 0) {fs : List (FactorRef × ℕ)} (hfs : ∀ g ∈ fs, g.2 ≠ 0) :
    (∀ g ∈ powers.foldl (fun fs e => insertPower ⟨level, e.1⟩ (e.2 * k) fs) fs, g.2 ≠ 0) ∧
      ∀ σ : FactorRef → Sign,
        ((powers.foldl (fun fs e => insertPower ⟨level, e.1⟩ (e.2 * k) fs) fs).map
          fun f => σ f.1 ^ f.2).prod =
            (powers.map fun e => σ ⟨level, e.1⟩ ^ e.2).prod ^ k *
              (fs.map fun f => σ f.1 ^ f.2).prod := by
  induction powers generalizing fs with
  | nil => exact ⟨hfs, fun σ => by rw [List.map_nil, List.prod_nil, one_pow, one_mul]; rfl⟩
  | cons e powers ih =>
    obtain ⟨he, hp⟩ := List.forall_mem_cons.1 hp
    obtain ⟨hne, hprod⟩ :=
      ih hp (snd_ne_zero_of_mem_insertPower (f := ⟨level, e.1⟩) (mul_ne_zero he hk) hfs)
    refine ⟨hne, fun σ => ?_⟩
    rw [List.foldl_cons, hprod, prod_insertPower, List.map_cons, List.prod_cons, mul_pow, ← pow_mul,
      mul_left_comm, mul_assoc]

/-- The sign of a link is multiplied by that of the power. -/
theorem returns_multiplyLink (hlevels : CoprimeLevels levels) {g : Poly × ℕ}
    (hg : Expressible levels g) (hl : LinkClosed levels l) (hne : ∀ f ∈ l.factors, f.2 ≠ 0) :
    Returns (multiplyLink levels l g) fun m =>
      LinkClosed levels m ∧ (∀ f ∈ m.factors, f.2 ≠ 0) ∧ ∀ x : ℕ → ℝ,
        m.signAt (factorSign levels x) =
          l.signAt (factorSign levels x) * Sign.ofReal (g.1.value x) ^ g.2 := by
  obtain ⟨s, hs⟩ := hlevels (levelOf g.1)
  obtain ⟨⟨c, powers⟩, hpowers, -⟩ := Poly.returns_expressOver hs hg.ne_zero hg.mem
  obtain ⟨hmul, hp⟩ := Poly.expressOver_spec hpowers
  have hrun : multiplyLink levels l g = .ok ⟨l.sign * (Sign.ofRat c).pow g.2,
      powers.foldl (fun fs p => insertPower ⟨levelOf g.1, p.1⟩ (p.2 * g.2) fs) l.factors⟩ := by
    rw [multiplyLink]
    change (Poly.expressOver (basisAt levels (levelOf g.1)) g.1 >>= _) = _
    rw [hpowers]
    rfl
  obtain ⟨hfold, hprod⟩ := foldl_insertPower_spec (levelOf g.1) hg.exponent hp hne
  refine ⟨_, hrun, linkClosed_multiplyLink hl hrun, hfold, fun x => ?_⟩
  have hvalue : Sign.ofReal (g.1.value x) = Sign.ofRat c *
      (powers.map fun e => factorSign levels x ⟨levelOf g.1, e.1⟩ ^ e.2).prod := by
    rw [Poly.value, hmul, map_mul, MvPolynomial.aeval_C, Sign.ofReal_mul, eq_ratCast,
      Sign.ofReal_cast, map_list_prod, Sign.ofReal_prod, List.map_map, List.map_map]
    congr 3
    funext e
    exact (congrArg Sign.ofReal (map_pow _ _ _)).trans (Sign.ofReal_pow _ _)
  rw [Link.signAt, Link.signAt, hprod, Sign.pow_eq, hvalue, mul_pow]
  simp only [mul_assoc, mul_comm, mul_left_comm]

/-- A derived polynomial has a link with its sign. -/
theorem returns_linkOf (hlevels : CoprimeLevels levels)
    (hd : ∀ g ∈ d.factors, Expressible levels g) :
    Returns (linkOf levels d) fun l =>
      LinkClosed levels l ∧ (∀ f ∈ l.factors, f.2 ≠ 0) ∧ ∀ x : ℕ → ℝ,
        l.signAt (factorSign levels x) = d.signAt x := by
  have hfold : ∀ (gs : List (Poly × ℕ)) (k : Link), (∀ g ∈ gs, Expressible levels g) →
      LinkClosed levels k → (∀ f ∈ k.factors, f.2 ≠ 0) →
        Returns (gs.foldlM (multiplyLink levels) k) fun l =>
          LinkClosed levels l ∧ (∀ f ∈ l.factors, f.2 ≠ 0) ∧ ∀ x : ℕ → ℝ,
            l.signAt (factorSign levels x) = k.signAt (factorSign levels x) *
              (gs.map fun g => Sign.ofReal (g.1.value x) ^ g.2).prod := fun gs => by
    induction gs with
    | nil =>
      intro k _ hk hne
      exact .ok ⟨hk, hne, fun x => by rw [List.map_nil, List.prod_nil, mul_one]⟩
    | cons g gs ih =>
      intro k hgs hk hne
      obtain ⟨hg, hgs⟩ := List.forall_mem_cons.1 hgs
      rw [List.foldlM_cons]
      refine (returns_multiplyLink hlevels hg hk hne).bind fun m hm => ?_
      obtain ⟨hm, hmne, hsign⟩ := hm
      refine (ih m hgs hm hmne).mono fun l hl => ?_
      obtain ⟨hl, hlne, hprod⟩ := hl
      refine ⟨hl, hlne, fun x => ?_⟩
      rw [hprod, hsign, List.map_cons, List.prod_cons, mul_assoc]
  rw [linkOf]
  split_ifs with hz
  · refine .ok ⟨linkClosed_ofSign _, List.forall_mem_nil _, fun x => ?_⟩
    rw [Derived.signAt, hz, Sign.zero_mul]
    rfl
  · refine (hfold d.factors _ hd (linkClosed_ofSign _) (List.forall_mem_nil _)).mono fun l hl => ?_
    obtain ⟨hl, hne, hsign⟩ := hl
    refine ⟨hl, hne, fun x => ?_⟩
    rw [hsign, Derived.signAt, Link.signAt, Link.ofSign, List.map_nil, List.prod_nil, mul_one]

/-! ## The table -/

/-- The constants come first. -/
def Rooted (t : LinkTable) : Prop :=
  ∀ s : Sign, t.links[LinkTable.constantId s]? = some (.ofSign s)

/-- Links are only added. -/
def Prolongs (t u : LinkTable) : Prop :=
  ∀ (i : ℕ) (l : Link), t.links[i]? = some l → u.links[i]? = some l

/-- The link is stored, up to the order of its factors or as a constant. -/
def Stored (t : LinkTable) (i : ℕ) (l : Link) : Prop :=
  ∃ m, t.links[i]? = some m ∧ (∀ f ∈ m.factors, f ∈ l.factors) ∧ ∀ σ, m.signAt σ = l.signAt σ

theorem rooted_empty : Rooted {} := fun s => by cases s <;> rfl

theorem Stored.prolongs {t u : LinkTable} {i : ℕ} (h : Stored t i l) (htu : Prolongs t u) :
    Stored u i l := by
  obtain ⟨m, hm, h⟩ := h
  exact ⟨m, htu i m hm, h⟩

theorem stored_intern {t : LinkTable} (ht : Rooted t) (l : Link) :
    Rooted (t.intern l).2 ∧ Prolongs t (t.intern l).2 ∧ Stored (t.intern l).2 (t.intern l).1 l := by
  have hsorted : (∀ f ∈ l.sorted.factors, f ∈ l.factors) ∧ ∀ σ, l.sorted.signAt σ = l.signAt σ :=
    ⟨fun _ => Link.mem_factors_sorted.1, fun σ => l.signAt_sorted σ⟩
  rw [LinkTable.intern]
  split_ifs with hconst
  · refine ⟨ht, fun _ _ => id, .ofSign l.sign, ht l.sign, List.forall_mem_nil _, fun σ => ?_⟩
    rw [Link.isConstant, Bool.or_eq_true, beq_iff_eq, List.isEmpty_iff] at hconst
    rw [Link.signAt, Link.signAt, Link.ofSign]
    rcases hconst with hz | hnil
    · rw [hz, Sign.zero_mul, Sign.zero_mul]
    · rw [hnil]
  · split
    · rename_i i hi
      rw [← Array.idxOf?_toList] at hi
      obtain ⟨hlt, heq, -⟩ := List.idxOf?_eq_some_iff.1 hi
      exact ⟨ht, fun _ _ => id, l.sorted, Array.getElem?_eq_some_iff.2 ⟨hlt, heq⟩, hsorted⟩
    · have hpush : Prolongs t ⟨t.links.push l.sorted⟩ := fun i m hi => by
        obtain ⟨hlt, rfl⟩ := Array.getElem?_eq_some_iff.1 hi
        exact Array.getElem?_push_lt hlt
      exact ⟨fun s => hpush _ _ (ht s), hpush, l.sorted, Array.getElem?_push_size, hsorted⟩

/-- A position where a link with the sign of a derived polynomial is stored. -/
def LinkOfDerived (levels : List (List ProjectionFactor)) (t : LinkTable) (d : Derived)
    (i : ℕ) : Prop :=
  ∃ l, t.links[i]? = some l ∧ LinkClosed levels l ∧ (∀ f ∈ l.factors, f.2 ≠ 0) ∧
    ∀ x : ℕ → ℝ, l.signAt (factorSign levels x) = d.signAt x

theorem returns_storeLinks (hlevels : CoprimeLevels levels) {ds : List Derived} (ids : Array ℕ)
    {t : LinkTable} (ht : Rooted t) (hds : ∀ d ∈ ds, ∀ g ∈ d.factors, Expressible levels g) :
    Returns (storeLinks levels ds ids t) fun r => Prolongs t r.2 ∧ ∃ js : List ℕ,
      r.1.toList = ids.toList ++ js ∧ List.Forall₂ (LinkOfDerived levels r.2) ds js := by
  induction ds generalizing ids t with
  | nil => exact .ok ⟨fun _ _ => id, [], (List.append_nil _).symm, .nil⟩
  | cons d ds ih =>
    obtain ⟨hd, hds⟩ := List.forall_mem_cons.1 hds
    rw [storeLinks]
    refine (returns_linkOf hlevels hd).bind fun l hl => ?_
    obtain ⟨hclosed, hne, hsign⟩ := hl
    obtain ⟨hrooted, hprolongs, hstored⟩ := stored_intern ht l
    refine (ih (ids.push (t.intern l).1) hrooted hds).mono fun r hr => ?_
    obtain ⟨hr, js, hjs, hall⟩ := hr
    refine ⟨fun i m hi => hr i m (hprolongs i m hi), (t.intern l).1 :: js,
      by rw [hjs, Array.toList_push, List.append_assoc, List.singleton_append], .cons ?_ hall⟩
    obtain ⟨m, hm, hsub, hsame⟩ := hstored.prolongs hr
    exact ⟨m, hm, fun f hf => hclosed f (hsub f hf), fun f hf => hne f (hsub f hf),
      fun x => (hsame _).trans (hsign x)⟩

end Projection

end Cylindrical

end
