import Mathlib
import Cylindrical.Proofs.Poly.CoprimeBasis
import Cylindrical.Proofs.Poly.Factorization
import Cylindrical.Proofs.Poly.Subresultant

/-!
# Square-free parts

In any order of monomials, what a factorization finds divides the polynomial, is square-free, and has
no factor without its main variable (`isPart_of_mem_factor`).  A divisor of such a part is one too,
unless it is a number, so that the refinement of parts of one level stays on the level
(`IsPart.mainVar?_of_dvd`).
-/

noncomputable section

open MvPolynomial

namespace Cylindrical

namespace Poly

variable {v : ℕ} {p q : Poly}

/-- A square-free polynomial without a factor in variables other than `v` alone. -/
structure IsPart (v : ℕ) (p : Poly) : Prop where
  squarefree : Squarefree p.toMv
  primitive : PrimitiveIn v p.toMv

namespace IsPart

theorem ne_zero (h : IsPart v p) : p.toMv ≠ 0 := h.squarefree.ne_zero

theorem of_dvd (h : IsPart v p) (hd : q.toMv ∣ p.toMv) : IsPart v q :=
  ⟨h.squarefree.squarefree_of_dvd hd, h.primitive.of_dvd hd⟩

theorem mem_vars (h : IsPart v p) (hn : ¬p.isNumber = true) : v ∈ p.toMv.vars := by
  by_contra hv
  exact hn ((isUnit_iff_isNumber h.ne_zero).1 (h.primitive.isUnit_of_notMem h.ne_zero hv))

end IsPart

theorem mainVar?_eq_some_of_le (hreserved : reservedVar ∉ p.toMv.vars) (hv : v ∈ p.toMv.vars)
    (hle : ∀ w ∈ p.toMv.vars, w ≤ v) : p.mainVar? = some v := by
  cases h : p.mainVar? with
  | none =>
    rw [isNumber_iff_vars.1 (mainVar?_eq_none_iff.1 h)] at hv
    exact absurd hv (Finset.notMem_empty v)
  | some w => rw [(hle w (mem_vars_of_mainVar? h)).antisymm (le_of_mainVar? hreserved h hv)]

/-- A divisor that is not a number has the same main variable. -/
theorem IsPart.mainVar?_of_dvd (h : IsPart v q) (hp0 : p.toMv ≠ 0)
    (hreserved : reservedVar ∉ p.toMv.vars) (hv : p.mainVar? = some v) (hd : q.toMv ∣ p.toMv)
    (hn : ¬q.isNumber = true) : q.mainVar? = some v := by
  have hvars := vars_subset_of_dvd hp0 hd
  exact mainVar?_eq_some_of_le (fun hr => hreserved (hvars hr)) (h.mem_vars hn)
    fun w hw => le_of_mainVar? hreserved hv (hvars hw)

/-! ## Square-free decomposition -/

theorem dvd_of_mem_squareFreeSteps {steps i : ℕ} {b d : Poly} {fs : List (Poly × ℕ)}
    (h : squareFreeSteps v steps i b d = .ok fs) : ∀ f ∈ fs, f.1.toMv ∣ b.toMv := by
  induction steps generalizing i b d fs with
  | zero =>
    cases h
    nofun
  | succ steps ih =>
    rw [squareFreeSteps] at h
    split_ifs at h
    · obtain ⟨a, ha, h⟩ := bind_eq_ok h
      obtain ⟨b', hb', h⟩ := bind_eq_ok h
      obtain ⟨c, hc, h⟩ := bind_eq_ok h
      obtain ⟨later, hlater, h⟩ := bind_eq_ok h
      have hlater : ∀ f ∈ later, f.1.toMv ∣ b.toMv := fun f hf =>
        (ih hlater f hf).trans ⟨_, (toMv_of_exactQuotient hb').2⟩
      split_ifs at h
      · cases h
        exact List.forall_mem_cons.2
          ⟨(associated_canonical a).dvd.trans (isGcd_gcd ha).dvd_left, hlater⟩
      · cases h
        exact hlater
    · cases h
      nofun

theorem isPart_of_mem_squareFreeFactors {fs : List (Poly × ℕ)} (hp0 : p.toMv ≠ 0)
    (hprim : PrimitiveIn v p.toMv) (h : squareFreeFactors v p = .ok fs) :
    ∀ f ∈ fs, IsPart v f.1 ∧ f.1.toMv ∣ p.toMv := by
  rw [squareFreeFactors] at h
  split_ifs at h
  · obtain ⟨g, hg, h⟩ := bind_eq_ok h
    have hgcd := isGcd_gcd hg
    rw [IsGcd, toMv_derivative] at hgcd
    split_ifs at h with hn
    · cases h
      have hg0 : g.toMv ≠ 0 := ne_zero_of_dvd_ne_zero hp0 ((hgcd _).1 dvd_rfl).1
      have hpart : IsPart v p :=
        ⟨LevelSet.squarefree_of_isUnit hprim hp0 hgcd ((isUnit_iff_isNumber hg0).2 hn), hprim⟩
      exact List.forall_mem_singleton.2
        ⟨hpart.of_dvd (associated_canonical p).dvd, (associated_canonical p).dvd⟩
    · obtain ⟨b, hb, h⟩ := bind_eq_ok h
      obtain ⟨c, hc, h⟩ := bind_eq_ok h
      have hpb := (toMv_of_exactQuotient hb).2
      have hpc := (toMv_of_exactQuotient hc).2
      rw [toMv_derivative] at hpc
      have hl := LevelSet.start hprim hp0 hgcd hpb hpc
      have hpart : IsPart v b := ⟨hl.squarefree, hl.primitive⟩
      intro f hf
      have hfb := dvd_of_mem_squareFreeSteps h f hf
      exact ⟨hpart.of_dvd hfb, hfb.trans ⟨_, hpb⟩⟩
  · cases h
    exact List.forall_mem_nil _

/-! ## Linear factors -/

theorem dvd_of_splitRoots {rest r : Poly} {xs : List ℚ} {fs : List Poly}
    (h : splitRoots v rest xs = .ok (fs, r)) : ∀ f ∈ r :: fs, f.toMv ∣ rest.toMv := by
  induction xs generalizing rest r fs with
  | nil =>
    cases h
    exact List.forall_mem_singleton.2 dvd_rfl
  | cons x xs ih =>
    obtain ⟨q, hq, h⟩ := bind_eq_ok h
    obtain ⟨⟨gs, t⟩, hgs, h⟩ := bind_eq_ok h
    cases h
    have hmul := (toMv_of_exactQuotient hq).2
    have hall : ∀ f ∈ r :: gs, f.toMv ∣ rest.toMv := fun f hf => (ih hgs f hf).trans ⟨_, hmul⟩
    obtain ⟨hr, hgs⟩ := List.forall_mem_cons.1 hall
    exact List.forall_mem_cons.2 ⟨hr, List.forall_mem_cons.2
      ⟨(associated_canonical _).dvd.trans ⟨_, hmul.trans (mul_comm _ _)⟩, hgs⟩⟩

theorem dvd_of_mem_splitLinear {fs : List Poly} (h : p.splitLinear = .ok fs) :
    ∀ f ∈ fs, f.toMv ∣ p.toMv := by
  have hcanonical : p.canonical.toMv ∣ p.toMv := (associated_canonical p).dvd
  -- the pieces of what is left when some divisors have been split off
  have hrest : ∀ (zs : List Poly) {v : ℕ} {rest r : Poly} {xs : List ℚ} {gs : List Poly},
      (∀ f ∈ zs, f.toMv ∣ p.toMv) → rest.toMv ∣ p.toMv → splitRoots v rest xs = .ok (gs, r) →
      ∀ f ∈ if r.containsVar v then zs ++ gs ++ [r.canonical] else zs ++ gs, f.toMv ∣ p.toMv := by
    intro zs v rest r xs gs hzs hrest hgs
    obtain ⟨hr, hgs⟩ := List.forall_mem_cons.1 (dvd_of_splitRoots hgs)
    have hall : ∀ f ∈ zs ++ gs, f.toMv ∣ p.toMv :=
      List.forall_mem_append.2 ⟨hzs, fun f hf => (hgs f hf).trans hrest⟩
    split_ifs
    · exact List.forall_mem_append.2 ⟨hall, List.forall_mem_singleton.2
        ((associated_canonical r).dvd.trans (hr.trans hrest))⟩
    · exact hall
  rw [splitLinear] at h
  split at h
  · cases h
    exact List.forall_mem_singleton.2 hcanonical
  · rename_i v hv
    split at h
    · cases h
      exact List.forall_mem_singleton.2 dvd_rfl
    · split_ifs at h
      · cases h
        exact List.forall_mem_singleton.2 hcanonical
      dsimp only at h
      split_ifs at h
      · obtain ⟨rest, hq, h⟩ := bind_eq_ok h
        obtain ⟨⟨gs, r⟩, hgs, h⟩ := bind_eq_ok h
        obtain rfl := Except.ok.inj h
        have hmul := (toMv_of_exactQuotient hq).2
        exact hrest [var v] (List.forall_mem_singleton.2
          (Dvd.dvd.trans ⟨_, hmul.trans (mul_comm _ _)⟩ hcanonical))
          (Dvd.dvd.trans ⟨_, hmul⟩ hcanonical) hgs
      · change (splitRoots v p.canonical _ >>= _) = _ at h
        obtain ⟨⟨gs, r⟩, hgs, h⟩ := bind_eq_ok h
        obtain rfl := Except.ok.inj h
        exact hrest [] nofun hcanonical hgs

/-! ## Factorization -/

section

variable {K : Poly → Prop} {m : ℕ} {fs : List (Poly × ℕ)}

theorem forall_mem_insertFactor {f : Poly} (hfs : ∀ g ∈ fs, K g.1) (hf : ¬f.isNumber = true → K f) :
    ∀ g ∈ insertFactor f m fs, K g.1 := by
  induction fs with
  | nil =>
    rw [insertFactor]
    split_ifs with hn
    · exact List.forall_mem_nil _
    · exact List.forall_mem_singleton.2 (hf hn)
  | cons g fs ih =>
    obtain ⟨hg, hfs'⟩ := List.forall_mem_cons.1 hfs
    rw [insertFactor]
    split_ifs
    · exact hfs
    · exact List.forall_mem_cons.2 ⟨hg, hfs'⟩
    · exact List.forall_mem_cons.2 ⟨hg, ih hfs'⟩

theorem forall_mem_insertFactors {gs : List Poly} (hfs : ∀ g ∈ fs, K g.1)
    (hgs : ∀ g ∈ gs, ¬g.isNumber = true → K g) :
    ∀ g ∈ gs.foldl (fun fs g => insertFactor g m fs) fs, K g.1 := by
  induction gs generalizing fs with
  | nil => exact hfs
  | cons g gs ih =>
    obtain ⟨hg, hgs⟩ := List.forall_mem_cons.1 hgs
    exact ih (forall_mem_insertFactor hfs hg) hgs

theorem forall_mem_splitFactors {parts gs : List (Poly × ℕ)} (hfs : ∀ g ∈ fs, K g.1)
    (hparts : ∀ f ∈ parts, ∀ q : Poly, q.toMv ∣ f.1.toMv → ¬q.isNumber = true → K q)
    (h : parts.foldlM (fun fs (f, m) => do
      return (← f.splitLinear).foldl (fun fs g => insertFactor g m fs) fs) fs =
        (.ok gs : Algebra _)) : ∀ g ∈ gs, K g.1 := by
  induction parts generalizing fs with
  | nil =>
    cases h
    exact hfs
  | cons f parts ih =>
    obtain ⟨hf, hparts⟩ := List.forall_mem_cons.1 hparts
    rw [List.foldlM_cons] at h
    obtain ⟨fs', hfs', h⟩ := bind_eq_ok h
    obtain ⟨ls, hls, hfs'⟩ := bind_eq_ok hfs'
    cases hfs'
    exact ih (forall_mem_insertFactors hfs fun g hg => hf g (dvd_of_mem_splitLinear hls g hg))
      hparts h

end

/-- A square-free part of a polynomial on the level of its main variable. -/
structure IsFactorOf (p q : Poly) : Prop where
  dvd : q.toMv ∣ p.toMv
  part : ∃ v, q.mainVar? = some v ∧ IsPart v q

theorem IsFactorOf.trans {r : Poly} (h : IsFactorOf q r) (hd : q.toMv ∣ p.toMv) : IsFactorOf p r :=
  ⟨h.dvd.trans hd, h.part⟩

theorem isFactorOf_of_mem_factorsUpTo {n : ℕ} {fs : List (Poly × ℕ)} (hp0 : p.toMv ≠ 0)
    (hreserved : reservedVar ∉ p.toMv.vars) (h : factorsUpTo n p = .ok fs) :
    ∀ f ∈ fs, IsFactorOf p f.1 := by
  induction n generalizing p fs with
  | zero =>
    cases h
    nofun
  | succ n ih =>
    rw [factorsUpTo] at h
    split at h
    · cases h
      nofun
    · rename_i v hv
      obtain ⟨c, hc, h⟩ := bind_eq_ok h
      obtain ⟨lower, hlower, h⟩ := bind_eq_ok h
      obtain ⟨q, hq, h⟩ := bind_eq_ok h
      obtain ⟨parts, hparts, h⟩ := bind_eq_ok h
      obtain ⟨hprim, hassoc⟩ := primitiveIn_primitivePartIn hp0 hc hq
      have h0 := hassoc.ne_zero_iff.1 hp0
      have hqp : q.toMv ∣ p.toMv := (dvd_mul_right _ _).trans hassoc.symm.dvd
      have hcp : c.toMv ∣ p.toMv := (dvd_mul_left _ _).trans hassoc.symm.dvd
      refine forall_mem_splitFactors (fun f hf => ?_) (fun f hf g hgf hn => ?_) h
      · exact (ih (right_ne_zero_of_mul h0) (fun hr => hreserved (vars_subset_of_dvd hp0 hcp hr))
          hlower f hf).trans hcp
      · obtain ⟨hpart, hfq⟩ :=
          isPart_of_mem_squareFreeFactors (left_ne_zero_of_mul h0) hprim hparts f hf
        have hgp := (hgf.trans hfq).trans hqp
        have hpart := hpart.of_dvd hgf
        exact ⟨hgp, v, hpart.mainVar?_of_dvd hp0 hreserved hv hgp hn, hpart⟩

/-- What a factorization finds is a square-free part on the level of its main variable. -/
theorem isFactorOf_of_mem_factor {F : Factorization} (hreserved : reservedVar ∉ p.toMv.vars)
    (h : p.factor = .ok F) : ∀ f ∈ F.factors, IsFactorOf p f.1 := by
  rw [factor] at h
  split_ifs at h with hz
  · cases h
    exact List.forall_mem_nil _
  · obtain ⟨fs, hfs, h⟩ := bind_eq_ok h
    cases h
    have hassoc := associated_canonical p
    have hp0 : p.toMv ≠ 0 := isZero_eq_false_iff.1 (by simpa using hz)
    refine fun f hf => (isFactorOf_of_mem_factorsUpTo (hassoc.ne_zero_iff.2 hp0) ?_ hfs f hf).trans
      hassoc.dvd
    rwa [vars_eq_of_associated hassoc]

end Poly

end Cylindrical

end
