import Mathlib
import Cylindrical.Stack.Root
import Cylindrical.Proofs.Poly.SubresultantRows
import Cylindrical.Proofs.Projection.Exact

/-!
# The scan of the coefficients of a factor

Coefficients are linked from the leading one down, until one of them has no real zero or the higher
ones have no common zero.  Where all coefficients with an entry vanish, the factor therefore vanishes
identically (`Run.ScanCovers`).  Going through the entries with the signs of the links at a point
finds the degree and the sign of the leading coefficient of the factor over the point
(`scannedLead_exact`).
-/

noncomputable section

open MvPolynomial

namespace Cylindrical

/-! ## Polynomials without real zeros -/

theorem Monomial.even_degreeOf {m : Monomial} (h : m.isSquare = true) (v : ℕ) :
    Even (m.degreeOf v) := by
  rw [isSquare, List.all_eq_true] at h
  rw [degreeOf]
  generalize m.powers = ps at h ⊢
  induction ps with
  | nil => exact Even.zero
  | cons p ps ih =>
    obtain ⟨hp, hps⟩ := List.forall_mem_cons.1 h
    rw [exponentIn]
    split_ifs
    · exact Nat.even_iff.2 (beq_iff_eq.1 hp)
    · exact ih hps

theorem Term.value_nonneg {t : Term} (hc : 0 < t.coeff) (hm : t.monomial.isSquare = true)
    (x : ℕ → ℝ) : 0 ≤ aeval x t.toMv := by
  rw [Term.toMv, aeval_monomial, eq_ratCast]
  refine mul_nonneg (Rat.cast_nonneg.2 hc.le) (Finset.prod_nonneg fun v _ => ?_)
  rw [Monomial.toFinsupp_apply]
  exact (Monomial.even_degreeOf hm v).pow_nonneg _

namespace Poly

variable {p : Poly}

/-- A sum of squares with a positive constant is positive. -/
theorem value_pos_of_isDefinitelyPositive (h : p.isDefinitelyPositive = true) (x : ℕ → ℝ) :
    0 < p.value x := by
  rw [isDefinitelyPositive, Bool.and_eq_true, decide_eq_true_eq, List.all_eq_true] at h
  obtain ⟨hconst, hall⟩ := h
  have hterms : ∀ t ∈ p.terms, 0 < t.coeff ∧ t.monomial.isSquare = true := fun t ht => by
    simpa using hall t ht
  rw [constantTerm] at hconst
  cases hfind : p.terms.find? (·.monomial.isUnit) with
  | none =>
    rw [hfind] at hconst
    exact absurd hconst (lt_irrefl 0)
  | some t =>
    rw [hfind] at hconst
    have hunit : t.monomial.toFinsupp = 0 := (Monomial.isUnit_iff _).1 <|
      List.find?_some (p := fun t : Term => t.monomial.isUnit) hfind
    have ht : aeval x t.toMv = (t.coeff : ℝ) := by
      rw [Term.toMv, hunit, aeval_monomial, Finsupp.prod_zero_index, mul_one, eq_ratCast]
    calc (0 : ℝ) < t.coeff := Rat.cast_pos.2 hconst
      _ = aeval x t.toMv := ht.symm
      _ ≤ (p.terms.map fun t => aeval x t.toMv).sum := by
          refine List.single_le_sum (List.forall_mem_map.2 fun u hu => ?_) _
            (List.mem_map_of_mem (List.mem_of_find?_eq_some hfind))
          exact Term.value_nonneg (hterms u hu).1 (hterms u hu).2 x
      _ = p.value x := by rw [value, toMv, sumOf, map_list_sum, List.map_map]; rfl

theorem value_ne_zero_of_isDefinitelyNonzero (h : p.isDefinitelyNonzero = true) (x : ℕ → ℝ) :
    p.value x ≠ 0 := by
  rw [isDefinitelyNonzero, Bool.or_eq_true, Bool.or_eq_true] at h
  rcases h with (h | h) | h
  · obtain ⟨c, hc, hp⟩ := isConstant_iff.1 h
    rw [value, hp, aeval_C, eq_ratCast]
    exact Rat.cast_ne_zero.2 hc
  · exact (value_pos_of_isDefinitelyPositive h x).ne'
  · have := value_pos_of_isDefinitelyPositive h x
    rw [value_neg] at this
    exact (neg_pos.1 this).ne

end Poly

namespace Projection

open Cylindrical.Poly

/-! ## What a scan covers -/

namespace Run

variable {truncate : Bool} {s t : Run} {Z Z' : (ℕ → ℝ) → Prop} {c : Poly × ℕ}
  {cs : List (Poly × ℕ)} {es : List (ℕ × Option ℕ)} {i? : Option ℕ}

/-- At the points of `Z`, the coefficients with entries, which are the first ones, do not all vanish
unless all coefficients do. -/
structure ScanCovers (Z : (ℕ → ℝ) → Prop) (cs : List (Poly × ℕ)) (es : List (ℕ × Option ℕ)) :
    Prop where
  degrees : es.map Prod.fst <+: cs.map Prod.snd
  vanish : ∀ x, Z x → (∀ c ∈ cs, c.2 ∈ es.map Prod.fst → c.1.value x = 0) →
    ∀ c ∈ cs, c.1.value x = 0

namespace ScanCovers

theorem nil : ScanCovers Z [] [] := ⟨List.prefix_rfl, fun _ _ _ => nofun⟩

theorem mono (h : ScanCovers Z cs es) (hZ : ∀ x, Z' x → Z x) : ScanCovers Z' cs es :=
  ⟨h.degrees, fun x hx => h.vanish x (hZ x hx)⟩

/-- The scan ends where the higher coefficients have no common zero. -/
theorem of_forall_not (h : ∀ x, ¬Z x) : ScanCovers Z cs [] :=
  ⟨List.nil_prefix, fun x hx => absurd hx (h x)⟩

/-- The scan ends after a coefficient without zeros. -/
theorem singleton (h : ∀ x, Z x → c.1.value x ≠ 0) : ScanCovers Z (c :: cs) [(c.2, i?)] where
  degrees := ⟨cs.map Prod.snd, rfl⟩
  vanish x hx hlisted := absurd (hlisted c (.head _) (.head _)) (h x hx)

/-- One more coefficient before a scan of the others at its zeros. -/
theorem cons (h : ScanCovers Z' cs es) (hZ : ∀ x, Z x → c.1.value x = 0 → Z' x) :
    ScanCovers Z (c :: cs) ((c.2, i?) :: es) where
  degrees := List.cons_prefix_cons.2 ⟨rfl, h.degrees⟩
  vanish x hx hlisted := by
    have hc := hlisted c (.head _) (.head _)
    refine List.forall_mem_cons.2 ⟨hc, h.vanish x (hZ x hx hc) fun d hd hdegree => ?_⟩
    exact hlisted d (.tail _ hd) (.tail _ hdegree)

end ScanCovers

theorem scanCoeffs_covers (h : scanCoeffs truncate cs s = .ok es t) :
    ScanCovers (fun _ => True) cs es := by
  induction cs generalizing es s t with
  | nil =>
    obtain ⟨rfl, -⟩ := run_pure_eq_ok h
    exact .nil
  | cons c cs ih =>
    obtain ⟨c, k⟩ := c
    cases scanCoeffs_cons_eq_ok h with
    | last _ hnonzero _ => exact .singleton fun x _ => value_ne_zero_of_isDefinitelyNonzero hnonzero x
    | more _ hes => exact (ih hes).cons fun _ _ _ => trivial

/-- A coefficient that is reduced vanishes with its remainder at the common zeros of the higher ones,
and it is not reduced only if these have no common zero. -/
theorem reduceCoeff_zeros {vars : List ℕ} {higher : List Poly} {c : Poly} {r? : Option (Poly × Bool)}
    (h : reduceCoeff vars higher c s = .ok r? t) (x : ℕ → ℝ) (hx : ∀ p ∈ higher, p.value x = 0) :
    ∃ r negated, r? = some (r, negated) ∧ (c.value x = 0 → r.value x = 0) := by
  rw [reduceCoeff] at h
  split_ifs at h with hempty
  · obtain ⟨rfl, -⟩ := run_pure_eq_ok h
    exact ⟨c, false, rfl, id⟩
  · obtain ⟨basis, s₁, hbasis, h⟩ := run_bind_eq_ok h
    obtain ⟨-, w, hbasis⟩ := algebraically_spec (v := 0) hbasis
    have hzero := AlgebraSystem.value_eq_zero_of_mem_groebnerBasis hbasis hx
    split_ifs at h with hunit
    · obtain ⟨b, hb, hconst⟩ := List.any_eq_true.1 hunit
      refine absurd (hzero b hb) (value_ne_zero_of_isDefinitelyNonzero ?_ x)
      rw [isDefinitelyNonzero, hconst, Bool.true_or, Bool.true_or]
    · obtain ⟨_, s₂, -, h⟩ := run_bind_eq_ok h
      obtain ⟨⟨r, negated⟩, s₃, hr, h⟩ := run_bind_eq_ok h
      obtain ⟨rfl, -⟩ := run_pure_eq_ok h
      obtain ⟨-, w', hr⟩ := algebraically_spec (v := 0) hr
      obtain ⟨-, -, hsign⟩ := AlgebraSystem.reduce_spec hr
      obtain ⟨a, ha, hc⟩ := hsign x hzero
      refine ⟨r, negated, rfl, fun hc0 => (mul_eq_zero.1 (hc.symm.trans hc0)).resolve_left ?_⟩
      split_ifs
      · exact neg_ne_zero.2 ha.ne'
      · exact ha.ne'

theorem scanReducedCoeffs_covers {vars : List ℕ} {higher : List Poly}
    (h : scanReducedCoeffs truncate vars higher cs s = .ok es t) :
    ScanCovers (fun x => ∀ p ∈ higher, p.value x = 0) cs es := by
  induction cs generalizing es s t higher with
  | nil =>
    obtain ⟨rfl, -⟩ := run_pure_eq_ok h
    exact .nil
  | cons c cs ih =>
    obtain ⟨c, k⟩ := c
    cases scanReducedCoeffs_cons_eq_ok h with
    | zero _ _ hes => exact (ih hes).cons fun x hx _ => hx
    | stop hr _ =>
      refine .of_forall_not fun x hx => ?_
      obtain ⟨_, _, hnone, -⟩ := reduceCoeff_zeros hr x hx
      cases hnone
    | last hr _ hnonzero _ =>
      refine .singleton fun x hx hc => ?_
      obtain ⟨_, _, he, hzero⟩ := reduceCoeff_zeros hr x hx
      obtain ⟨rfl, -⟩ := Prod.mk.inj (Option.some.inj he)
      exact value_ne_zero_of_isDefinitelyNonzero hnonzero x (hzero hc)
    | more _ _ hes =>
      exact (ih hes).cons fun x hx hc =>
        List.forall_mem_append.2 ⟨hx, List.forall_mem_singleton.2 hc⟩

/-! ## Factors -/

/-- The entries of a factor cover its coefficients at every real point. -/
def Scanned (f : ProjectionFactor) : Prop :=
  ScanCovers (fun _ => True) (f.poly.coeffs f.level).zipIdx.reverse f.coeffLinks

theorem Scanned.mapLinks {f : ProjectionFactor} (h : Scanned f) (g : ℕ → ℕ) :
    Scanned (f.mapLinks g) := by
  have hdegrees : (f.mapLinks g).coeffLinks.map Prod.fst = f.coeffLinks.map Prod.fst := by
    rw [ProjectionFactor.mapLinks, List.map_map]
    rfl
  refine ⟨?_, fun x hx => ?_⟩
  · rw [hdegrees]
    exact h.degrees
  · rw [hdegrees]
    exact h.vanish x hx

section

variable {f g : ProjectionFactor} {before : List ProjectionFactor}

theorem mcCallum_scanned (h : mcCallum truncate f before s = .ok g t) :
    g.level = f.level ∧ Scanned g := by
  rw [mcCallum] at h
  obtain ⟨es, s₁, hes, h⟩ := run_bind_eq_ok h
  have hnext : ∀ {d : Option ℕ} {s₂ : Run}, (do
        let pairLinks ← before.zipIdx.mapM fun q => do
          let r ← algebraically (AlgebraSystem.resultant f.level f.poly q.1.poly)
          return (q.2, [← request r false])
        return { f with coeffLinks := es, discriminant := d, pairLinks } :
          RunM ProjectionFactor) s₂ = .ok g t → g.level = f.level ∧ Scanned g := fun h => by
    obtain ⟨_, s₃, -, h⟩ := run_bind_eq_ok h
    obtain ⟨rfl, -⟩ := run_pure_eq_ok h
    exact ⟨rfl, scanCoeffs_covers hes⟩
  simp only at h
  split_ifs at h
  · obtain ⟨_, s₂, -, h⟩ := run_bind_eq_ok h
    exact hnext h
  · rw [← bind_assoc] at h
    obtain ⟨_, s₂, -, h⟩ := run_bind_eq_ok h
    obtain ⟨_, s₃, -, h⟩ := run_bind_eq_ok h
    exact hnext h

theorem hong_scanned (h : hong truncate f before s = .ok g t) :
    g.level = f.level ∧ Scanned g := by
  rw [hong] at h
  obtain ⟨es, s₁, hes, h⟩ := run_bind_eq_ok h
  obtain ⟨_, s₂, -, h⟩ := run_bind_eq_ok h
  obtain ⟨_, s₃, -, h⟩ := run_bind_eq_ok h
  obtain ⟨rfl, -⟩ := run_pure_eq_ok h
  exact ⟨rfl, (scanReducedCoeffs_covers hes).mono fun x _ p hp => absurd hp List.not_mem_nil⟩

theorem factorsOf_scanned {op : ProjectionOperator} {level : ℕ} {inputs ps : List Poly}
    {fs : List ProjectionFactor} (hbefore : ∀ f ∈ before, f.level = level ∧ Scanned f)
    (h : factorsOf op truncate level inputs before ps s = .ok fs t) :
    ∀ f ∈ fs, f.level = level ∧ Scanned f := by
  induction ps generalizing before s with
  | nil =>
    obtain ⟨rfl, -⟩ := run_pure_eq_ok h
    exact hbefore
  | cons p ps ih =>
    have hnext : ∀ {g : ProjectionFactor} {s₁ : Run}, g.level = level ∧ Scanned g → (do
          count fun s => { s with factors := s.factors + 1 }
          factorsOf op truncate level inputs (before ++ [g]) ps : RunM (List ProjectionFactor)) s₁ =
            .ok fs t → ∀ f ∈ fs, f.level = level ∧ Scanned f := fun hg h => by
      obtain ⟨_, s₂, -, h⟩ := run_bind_eq_ok h
      exact ih (List.forall_mem_append.2 ⟨hbefore, List.forall_mem_singleton.2 hg⟩) h
    rw [factorsOf.eq_def] at h
    cases op with
    | mcCallum =>
      obtain ⟨g, s₁, hg, h⟩ := run_bind_eq_ok h
      exact hnext (mcCallum_scanned hg) h
    | hong =>
      obtain ⟨g, s₁, hg, h⟩ := run_bind_eq_ok h
      exact hnext (hong_scanned hg) h

theorem levelsBelow_scanned {op : ProjectionOperator} {inputs : List (List Poly)} {n : ℕ}
    {levels : List (List ProjectionFactor)}
    (h : levelsBelow op truncate inputs n s = .ok levels t) (level : ℕ) :
    ∀ f ∈ levels.getD level [], f.level = level ∧ Scanned f := by
  induction n generalizing levels s t with
  | zero =>
    obtain ⟨rfl, -⟩ := run_pure_eq_ok h
    exact fun f hf => absurd hf List.not_mem_nil
  | succ n ih =>
    rw [levelsBelow] at h
    obtain ⟨ps, s₁, -, h⟩ := run_bind_eq_ok h
    obtain ⟨basis, s₂, -, h⟩ := run_bind_eq_ok h
    obtain ⟨fs, s₃, hfs, h⟩ := run_bind_eq_ok h
    obtain ⟨levels', s₄, hlevels, h⟩ := run_bind_eq_ok h
    obtain ⟨rfl, -⟩ := run_pure_eq_ok h
    rw [getD_append_singleton]
    split_ifs with hlevel
    · rw [hlevel, length_levelsBelow hlevels]
      exact factorsOf_scanned (fun f hf => absurd hf List.not_mem_nil) hfs
    · exact ih hlevels

end

end Run

/-- The factors of a projection lie on their levels, and their entries cover their coefficients. -/
theorem project_scanned {op : ProjectionOperator} {truncate : Bool} {atoms : List Poly} {n : ℕ}
    {s t : State} {p : Projection} {links : List ℕ}
    (h : project op truncate atoms n s = .ok (p, links) t) {level : ℕ} {f : ProjectionFactor}
    (hf : f ∈ p.factors level) : f.level = level ∧ Run.Scanned f := by
  obtain ⟨u, hrun⟩ := ofAtoms_of_project h
  rw [ofAtoms] at hrun
  obtain ⟨_, s₁, -, hrun⟩ := run_bind_eq_ok hrun
  obtain ⟨requests, s₂, -, hrun⟩ := run_bind_eq_ok hrun
  rw [run_get_bind] at hrun
  obtain ⟨levels, s₃, hlevels, hrun⟩ := run_bind_eq_ok hrun
  rw [run_get_bind] at hrun
  obtain ⟨⟨ids, table⟩, s₄, -, hpure⟩ := run_bind_eq_ok hrun
  obtain ⟨hr, -⟩ := run_pure_eq_ok hpure
  obtain ⟨rfl, rfl⟩ := Prod.mk.inj hr
  rw [factors_mapLinks rfl] at hf
  obtain ⟨g, hg, rfl⟩ := List.mem_map.1 hf
  obtain ⟨hlevel, hscanned⟩ := Run.levelsBelow_scanned hlevels level g hg
  exact ⟨hlevel, hscanned.mapLinks _⟩

/-! ## The leading coefficient over a point -/

section

variable {f : ProjectionFactor} {x : ℕ → ℝ}

theorem map_snd_coeffs_zipIdx (v : ℕ) (p : Poly) :
    (p.coeffs v).zipIdx.reverse.map Prod.snd = (List.range (p.degreeOf v + 1)).reverse := by
  rw [List.map_reverse, List.zipIdx_map_snd, length_coeffs, List.range_eq_range']

/-- Where the coefficients with entries vanish, the factor vanishes identically. -/
theorem Run.Scanned.fiber_eq_zero (h : Run.Scanned f)
    (hx : ∀ k ∈ f.coeffLinks.map Prod.fst, (f.poly.coeff f.level k).value x = 0) :
    f.poly.fiber f.level x = 0 := by
  have hall := h.vanish x trivial fun c hc hk => Run.mem_coeffs_zipIdx hc ▸ hx c.2 hk
  rw [fiber_eq_sum]
  refine Finset.sum_eq_zero fun k hk => ?_
  have hmem : (f.poly.coeff f.level k, k) ∈ (f.poly.coeffs f.level).zipIdx.reverse := by
    rw [List.mem_reverse, List.mem_zipIdx_iff_getElem?, Poly.coeffs, List.getElem?_map,
      List.getElem?_range (Finset.mem_range.1 hk)]
    rfl
  rw [hall _ hmem, Polynomial.C_0, zero_mul]

/-- The degree of a polynomial with the sign of its leading coefficient, `none` for zero. -/
def leadOf (P : Polynomial ℝ) : Option (ℕ × Sign) :=
  if P = 0 then none else some (P.natDegree, .ofReal P.leadingCoeff)

theorem leadOf_of_coeff {P : Polynomial ℝ} {k : ℕ} (hk : P.coeff k ≠ 0)
    (hhigher : ∀ j, k < j → P.coeff j = 0) : leadOf P = some (k, .ofReal (P.coeff k)) := by
  have hdegree : P.natDegree = k := le_antisymm (Polynomial.natDegree_le_iff_coeff_eq_zero.2 hhigher)
    (Polynomial.le_natDegree_of_ne_zero hk)
  rw [leadOf, if_neg fun h0 => hk (by rw [h0, Polynomial.coeff_zero]), Polynomial.leadingCoeff,
    hdegree]

/-- Going through entries from the degree below `n` down, with the signs at a point, finds the degree
and the sign of the leading coefficient over the point. -/
theorem scannedLead_of_exact {zero : ZeroTest.Config} {c : Cylinder} {ls : List (ℕ × Option ℕ)}
    {P : Polynomial ℝ} {n : ℕ} (hdegrees : ls.map Prod.fst <+: (List.range n).reverse)
    (habove : ∀ j, n ≤ j → P.coeff j = 0)
    (hsign : ∀ k i, (k, some i) ∈ ls → (∀ j, k < j → P.coeff j = 0) →
      c.sign i = some (.ofReal (P.coeff k)))
    (hnone : ∀ k, (k, none) ∈ ls → (∀ j, k < j → P.coeff j = 0) → P.coeff k = 0)
    (hcover : (∀ k ∈ ls.map Prod.fst, P.coeff k = 0) → P = 0) (σ : StackState) :
    Stack.scannedLead zero c f ls σ = .ok (leadOf P) σ := by
  induction ls generalizing n with
  | nil =>
    rw [hcover nofun, leadOf, if_pos rfl]
    rfl
  | cons e ls ih =>
    obtain ⟨k, i?⟩ := e
    cases n with
    | zero => exact absurd hdegrees.length_le (by simp)
    | succ n =>
      rw [List.range_succ, List.reverse_append, List.reverse_singleton, List.singleton_append,
        List.map_cons, List.cons_prefix_cons] at hdegrees
      obtain ⟨rfl, hdegrees⟩ := hdegrees
      -- the other entries, where this coefficient vanishes
      have hnext : P.coeff k = 0 → Stack.scannedLead zero c f ls σ = .ok (leadOf P) σ := by
        intro hk
        refine ih hdegrees (fun j hj => ?_) (fun j i hi => hsign j i (.tail _ hi))
          (fun j hj => hnone j (.tail _ hj)) fun hls => hcover (List.forall_mem_cons.2 ⟨hk, hls⟩)
        rcases hj.eq_or_lt with rfl | hj
        · exact hk
        · exact habove j hj
      cases i? with
      | none => exact hnext (hnone k (.head _) habove)
      | some i =>
        rw [Stack.scannedLead, hsign k i (.head _) habove]
        change (if Sign.ofReal (P.coeff k) = .zero then Stack.scannedLead zero c f ls
          else pure (some (k, Sign.ofReal (P.coeff k)))) σ = _
        split_ifs with hz
        · exact hnext (Sign.ofReal_eq_zero.1 hz)
        · rw [leadOf_of_coeff (fun h0 => hz (by rw [h0, Sign.ofReal_zero])) habove]
          rfl

end

end Projection

end Cylindrical

end
