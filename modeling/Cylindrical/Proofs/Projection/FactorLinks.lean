import Mathlib
import Cylindrical.Proofs.Projection.Requests

/-!
# Links of a factor

Each operator derives polynomials from a factor and those before it on its level: coefficients,
the discriminant or principal subresultant coefficients, and resultants.  The links of the factor
have the signs of these polynomials at every real point (`ExactLinks`), and they keep them while the
projection goes on (`ExactLinks.mapLinks`).
-/

noncomputable section

namespace Cylindrical

namespace Projection

open Cylindrical.Poly

/-! ## Exact links -/

/-- The link has at every point the sign of a derived polynomial, which is computed without an
error. -/
def Means (S : LinkSigns) (derived : Algebra Poly) (i : ℕ) : Prop :=
  ∃ d, derived = .ok d ∧ ∀ x, S i x = some (.ofReal (d.value x))

/-- The coefficients in the main variable of all degrees above `k` vanish. -/
def HigherVanish (f : ProjectionFactor) (k : ℕ) (x : ℕ → ℝ) : Prop :=
  ∀ j, k < j → (f.poly.coeff f.level j).value x = 0

/-- The indices of the principal subresultant coefficients of two factors that an operator
derives; the resultant is the one of index zero. -/
def pairIndices (op : ProjectionOperator) (f q : ProjectionFactor) : List ℕ :=
  match op with
  | .mcCallum => [0]
  | .hong => List.range (min f.degree (q.poly.degreeOf f.level))

/-- The entry of a factor `q` before `f`, at its position, links the principal subresultant
coefficients with the given indices. -/
def PairExact (S : LinkSigns) (f : ProjectionFactor) (js : List ℕ) (q : ProjectionFactor × ℕ)
    (e : ℕ × List ℕ) : Prop :=
  e.1 = q.2 ∧
    List.Forall₂ (fun j i => Means S (subresultantCoeff f.level j f.poly q.1.poly) i) js e.2

/-- What the links of a factor say about it and the factors before it, where a link has the sign
that `S` gives. -/
structure ExactLinks (op : ProjectionOperator) (S : LinkSigns) (before : List ProjectionFactor)
    (f : ProjectionFactor) : Prop where
  /-- The link of a coefficient has its sign, under Hong's operator where all higher ones vanish. -/
  coefficient : ∀ k i, (k, some i) ∈ f.coeffLinks → ∀ x, (op = .hong → HigherVanish f k x) →
    S i x = some (.ofReal ((f.poly.coeff f.level k).value x))
  /-- A coefficient without a link vanishes where all higher ones do. -/
  vanishing : ∀ k, (k, none) ∈ f.coeffLinks → ∀ x, HigherVanish f k x →
    (f.poly.coeff f.level k).value x = 0
  discriminant : op = .mcCallum → if f.degree < 2 then f.discriminant = none
    else ∃ i, f.discriminant = some i ∧ Means S (f.poly.discriminant f.level) i
  self : op = .hong → List.Forall₂ (fun j i =>
    Means S (subresultantCoeff f.level j f.poly (f.poly.derivative f.level)) i)
      (List.range (f.degree - 1)) f.selfLinks
  pairs : List.Forall₂ (fun q => PairExact S f (pairIndices op f q.1) q) before.zipIdx f.pairLinks

/-- The factors of a level have exact links. -/
def LevelExact (op : ProjectionOperator) (S : LinkSigns) (level : ℕ)
    (fs : List ProjectionFactor) : Prop :=
  ∀ i f, fs[i]? = some f → f.level = level ∧ ExactLinks op S (fs.take i) f

section

variable {op : ProjectionOperator} {S T : LinkSigns} {before fs : List ProjectionFactor}
  {f : ProjectionFactor} {g : ℕ → ℕ} {level : ℕ}

theorem Means.map {y : Algebra Poly} {i : ℕ} (h : Means S y i)
    (hST : ∀ i x σ, S i x = some σ → T (g i) x = some σ) : Means T y (g i) := by
  obtain ⟨d, hd, hsign⟩ := h
  exact ⟨d, hd, fun x => hST i x _ (hsign x)⟩

/-- New numbers of links with the same signs. -/
theorem ExactLinks.mapLinks (h : ExactLinks op S before f)
    (hST : ∀ i x σ, S i x = some σ → T (g i) x = some σ) :
    ExactLinks op T (before.map (·.mapLinks g)) (f.mapLinks g) where
  coefficient k i hi x hx := by
    obtain ⟨⟨k', j?⟩, hj, he⟩ := List.mem_map.1 hi
    obtain ⟨rfl, hj?⟩ := Prod.mk.inj he
    obtain ⟨j, rfl, rfl⟩ := Option.map_eq_some_iff.1 hj?
    exact hST j x _ (h.coefficient k' j hj x hx)
  vanishing k hk x hx := by
    obtain ⟨⟨k', j?⟩, hj, he⟩ := List.mem_map.1 hk
    obtain ⟨rfl, hj?⟩ := Prod.mk.inj he
    obtain rfl := Option.map_eq_none_iff.1 hj?
    exact h.vanishing k' hj x hx
  discriminant hop := by
    have hdisc := h.discriminant hop
    change if f.degree < 2 then f.discriminant.map g = none
      else ∃ i, f.discriminant.map g = some i ∧ Means T (f.poly.discriminant f.level) i
    split_ifs at hdisc ⊢
    · rw [hdisc, Option.map_none]
    · obtain ⟨i, hi, hmeans⟩ := hdisc
      exact ⟨g i, by rw [hi, Option.map_some], hmeans.map hST⟩
  self hop := List.forall₂_map_right_iff.2 ((h.self hop).imp fun _ _ hmeans => hmeans.map hST)
  pairs := by
    refine List.forall₂_map_right_iff.2 ?_
    rw [List.zipIdx_map, List.forall₂_map_left_iff]
    exact h.pairs.imp fun q e ⟨he, hall⟩ =>
      ⟨he, List.forall₂_map_right_iff.2 (hall.imp fun _ _ hmeans => hmeans.map hST)⟩

theorem mapLinks_id (f : ProjectionFactor) : f.mapLinks id = f := by
  simp [ProjectionFactor.mapLinks]

theorem ExactLinks.mono (h : ExactLinks op S before f)
    (hST : ∀ i x σ, S i x = some σ → T i x = some σ) : ExactLinks op T before f := by
  have hmap := h.mapLinks (g := id) hST
  rwa [mapLinks_id, List.map_congr_left (fun q _ => mapLinks_id q), List.map_id'] at hmap

theorem LevelExact.mono (h : LevelExact op S level fs)
    (hST : ∀ i x σ, S i x = some σ → T i x = some σ) : LevelExact op T level fs :=
  fun i f hf => ⟨(h i f hf).1, (h i f hf).2.mono hST⟩

theorem LevelExact.mapLinks (h : LevelExact op S level fs)
    (hST : ∀ i x σ, S i x = some σ → T (g i) x = some σ) :
    LevelExact op T level (fs.map (·.mapLinks g)) := fun i f' hf' => by
  rw [List.getElem?_map] at hf'
  obtain ⟨f, hf, rfl⟩ := Option.map_eq_some_iff.1 hf'
  obtain ⟨hlevel, hexact⟩ := h i f hf
  refine ⟨hlevel, ?_⟩
  rw [← List.map_take]
  exact hexact.mapLinks hST

theorem LevelExact.append (h : LevelExact op S level before) (hlevel : f.level = level)
    (hf : ExactLinks op S before f) : LevelExact op S level (before ++ [f]) := fun i g hg => by
  rcases lt_trichotomy i before.length with hlt | rfl | hgt
  · rw [List.getElem?_append_left hlt] at hg
    rw [List.take_append_of_le_length hlt.le]
    exact h i g hg
  · rw [List.getElem?_concat_length] at hg
    obtain rfl := Option.some.inj hg
    rw [List.take_left]
    exact ⟨hlevel, hf⟩
  · rw [List.getElem?_eq_none (by rw [List.length_append, List.length_singleton]; omega)] at hg
    cases hg

end

/-! ## Loops -/

namespace Run

variable {s t : Run} {v : ℕ} {p q : Poly} {truncate : Bool}

theorem mapM_spec {α β : Type} {f : α → RunM β} {R : Run → α → β → Prop}
    (hR : ∀ {s t a b}, Grows v s t → R s a b → R t a b) {xs : List α} {ys : List β}
    (hf : ∀ a ∈ xs, ∀ {s b t}, f a s = .ok b t → Grows v s t ∧ R t a b)
    (h : xs.mapM f s = .ok ys t) : Grows v s t ∧ List.Forall₂ (R t) xs ys := by
  induction xs generalizing ys s with
  | nil =>
    obtain ⟨rfl, rfl⟩ := run_pure_eq_ok h
    exact ⟨.refl v _, .nil⟩
  | cons x xs ih =>
    obtain ⟨hx, hxs⟩ := List.forall_mem_cons.1 hf
    rw [List.mapM_cons] at h
    obtain ⟨y, s₁, hy, h⟩ := run_bind_eq_ok h
    obtain ⟨zs, s₂, hzs, h⟩ := run_bind_eq_ok h
    obtain ⟨rfl, rfl⟩ := run_pure_eq_ok h
    obtain ⟨hgrows, hr⟩ := hx hy
    obtain ⟨hgrows', hall⟩ := ih hxs hzs
    exact ⟨hgrows.trans hgrows', .cons (hR hgrows' hr) hall⟩

theorem Grows.pairExact {f : ProjectionFactor} {js : List ℕ} {r : ProjectionFactor × ℕ}
    {e : ℕ × List ℕ} (h : Grows v s t) (he : PairExact s.signOf f js r e) :
    PairExact t.signOf f js r e :=
  ⟨he.1, he.2.imp fun _ _ hmeans => hmeans.map (g := id) fun _ _ _ => h.signOf⟩

theorem Grows.means {i : ℕ} {y : Algebra Poly} (h : Grows v s t) (hi : Means s.signOf y i) :
    Means t.signOf y i :=
  hi.map (g := id) fun _ _ _ => h.signOf

/-- A polynomial that is derived and requested has a link with its sign. -/
theorem means_of_request {y : Algebra Poly} {f : CallCounts → CallCounts} {i : ℕ}
    (hy : ∀ d, y = .ok d → GradedIn (below v) d)
    (h : (algebraically (AlgebraSystem.call f y) >>= fun d => request d false) s = .ok i t) :
    Grows v s t ∧ Means t.signOf y i := by
  obtain ⟨d, s₁, hd, h⟩ := run_bind_eq_ok h
  obtain ⟨hgrows, w, hd⟩ := algebraically_spec (v := v) hd
  have hd := AlgebraSystem.call_eq_ok hd
  obtain ⟨hgrows', hsign⟩ := request_spec (hy d hd) h
  exact ⟨hgrows.trans hgrows', d, hd, hsign⟩

theorem subresultants_spec {n : ℕ} {is : List ℕ} (hp : GradedIn (insert v (below v)) p)
    (hq : GradedIn (insert v (below v)) q) (h : subresultants v p q n s = .ok is t) :
    Grows v s t ∧
      List.Forall₂ (fun j i => Means t.signOf (subresultantCoeff v j p q) i) (List.range n) is :=
  mapM_spec (R := fun t j i => Means t.signOf (subresultantCoeff v j p q) i)
    (fun hgrows => hgrows.means)
    (fun _ _ {_ _ _} h => means_of_request (fun _ => gradedIn_of_subresultantCoeff hp hq) h) h

/-! ## Coefficients -/

theorem mem_coeffs_zipIdx {c : Poly × ℕ} (h : c ∈ (p.coeffs v).zipIdx.reverse) :
    c.1 = p.coeff v c.2 := by
  obtain ⟨c, k⟩ := c
  rw [List.mem_reverse, List.mem_zipIdx_iff_getElem?, coeffs, List.getElem?_map] at h
  obtain ⟨j, hj, hc⟩ := Option.map_eq_some_iff.1 h
  obtain ⟨_, rfl⟩ := List.getElem?_eq_some_iff.1 hj
  rw [← hc, List.getElem_range]

theorem gradedIn_of_mem_coeffs_zipIdx (hp : GradedIn (insert v (below v)) p) {c : Poly × ℕ}
    (h : c ∈ (p.coeffs v).zipIdx.reverse) : GradedIn (below v) c.1 := by
  rw [mem_coeffs_zipIdx h]
  exact hp.coeff c.2

theorem store_zero_spec {i : ℕ} (hz : p.isZero = true) (h : store { sign := .zero } s = .ok i t) :
    Grows v s t ∧ ∀ x, t.signOf i x = some (.ofReal (p.value x)) := by
  obtain ⟨hgrows, hsign⟩ := store_spec (v := v) (d := { sign := .zero }) nofun h
  refine ⟨hgrows, fun x => ?_⟩
  rw [hsign, Derived.signAt, Sign.zero_mul, value_of_isZero x hz, Sign.ofReal_zero]

/-- How a successful scan treats a coefficient: it ends after the link of a coefficient without zeros,
or it goes on. -/
inductive ScanStep (truncate : Bool) (c : Poly) (k : ℕ) (cs : List (Poly × ℕ)) (s : Run) :
    List (ℕ × Option ℕ) → Run → Prop
  | last {i : ℕ} {s₁ t : Run} (link : request c false s = .ok i s₁)
      (nonzero : c.isDefinitelyNonzero = true) (count : countTruncation k s₁ = .ok () t) :
      ScanStep truncate c k cs s [(k, some i)] t
  | more {i : ℕ} {s₁ t : Run} {es : List (ℕ × Option ℕ)}
      (link : c.isZero = true ∧ store { sign := .zero } s = .ok i s₁ ∨
        request c false s = .ok i s₁) (rest : scanCoeffs truncate cs s₁ = .ok es t) :
      ScanStep truncate c k cs s ((k, some i) :: es) t

theorem scanCoeffs_cons_eq_ok {c : Poly} {k : ℕ} {cs : List (Poly × ℕ)}
    {es : List (ℕ × Option ℕ)} (h : scanCoeffs truncate ((c, k) :: cs) s = .ok es t) :
    ScanStep truncate c k cs s es t := by
  rw [scanCoeffs] at h
  split_ifs at h with hz ht
  · obtain ⟨i, s₁, hi, h⟩ := run_bind_eq_ok h
    obtain ⟨es', s₂, hes, h⟩ := run_bind_eq_ok h
    obtain ⟨rfl, rfl⟩ := run_pure_eq_ok h
    exact .more (.inl ⟨hz, hi⟩) hes
  · obtain ⟨i, s₁, hi, h⟩ := run_bind_eq_ok h
    obtain ⟨_, s₂, hcount, h⟩ := run_bind_eq_ok h
    obtain ⟨rfl, rfl⟩ := run_pure_eq_ok h
    exact .last hi ((Bool.and_eq_true _ _).mp ht).2 hcount
  · obtain ⟨i, s₁, hi, h⟩ := run_bind_eq_ok h
    obtain ⟨es', s₂, hes, h⟩ := run_bind_eq_ok h
    obtain ⟨rfl, rfl⟩ := run_pure_eq_ok h
    exact .more (.inr hi) hes

/-- Every entry of the scan links a coefficient. -/
theorem scanCoeffs_spec {cs : List (Poly × ℕ)} {es : List (ℕ × Option ℕ)}
    (hcs : ∀ c ∈ cs, GradedIn (below v) c.1) (h : scanCoeffs truncate cs s = .ok es t) :
    Grows v s t ∧ ∀ e ∈ es, ∃ c ∈ cs, e.1 = c.2 ∧ ∃ i, e.2 = some i ∧
      ∀ x, t.signOf i x = some (.ofReal (c.1.value x)) := by
  induction cs generalizing es s with
  | nil =>
    obtain ⟨rfl, rfl⟩ := run_pure_eq_ok h
    exact ⟨.refl v _, nofun⟩
  | cons c cs ih =>
    obtain ⟨c, k⟩ := c
    obtain ⟨hc, hcs⟩ := List.forall_mem_cons.1 hcs
    cases scanCoeffs_cons_eq_ok h with
    | last hi _ hcount =>
      obtain ⟨hgrows, hsign⟩ := request_spec hc hi
      have hcount := countTruncation_spec (v := v) hcount
      exact ⟨hgrows.trans hcount, List.forall_mem_singleton.2 ⟨_, .head _, rfl, _, rfl,
        fun x => hcount.signOf (hsign x)⟩⟩
    | more hi hes =>
      obtain ⟨hgrows, hsign⟩ := hi.elim (fun hi => store_zero_spec (v := v) hi.1 hi.2)
        (request_spec hc)
      obtain ⟨hgrows', hall⟩ := ih hcs hes
      refine ⟨hgrows.trans hgrows', List.forall_mem_cons.2 ⟨⟨_, .head _, rfl, _, rfl,
        fun x => hgrows'.signOf (hsign x)⟩, fun e he => ?_⟩⟩
      obtain ⟨d, hd, he⟩ := hall e he
      exact ⟨d, .tail _ hd, he⟩

theorem ofReal_of_eq_mul {a y z : ℝ} {negated : Bool} (ha : 0 < a)
    (h : y = (if negated then -a else a) * z) :
    Sign.ofReal y = if negated then -Sign.ofReal z else .ofReal z := by
  rw [h]
  cases negated with
  | false => exact Sign.ofReal_mul_of_pos ha z
  | true => rw [if_pos rfl, if_pos rfl, neg_mul, Sign.ofReal_neg, Sign.ofReal_mul_of_pos ha]

/-- The reduced coefficient has the same sign, up to the flag, where the higher ones vanish. -/
theorem reduceCoeff_spec {vars : List ℕ} {higher : List Poly} {c : Poly} {r? : Option (Poly × Bool)}
    (hhigher : ∀ p ∈ higher, GradedIn (below v) p) (hc : GradedIn (below v) c)
    (h : reduceCoeff vars higher c s = .ok r? t) :
    Grows v s t ∧ ∀ r negated, r? = some (r, negated) → GradedIn (below v) r ∧
      ∀ x : ℕ → ℝ, (∀ p ∈ higher, p.value x = 0) →
        ∃ a : ℝ, 0 < a ∧ c.value x = (if negated then -a else a) * r.value x := by
  rw [reduceCoeff] at h
  split_ifs at h with hempty
  · obtain ⟨rfl, rfl⟩ := run_pure_eq_ok h
    refine ⟨.refl v _, fun r negated he => ?_⟩
    obtain ⟨rfl, rfl⟩ := Prod.mk.inj (Option.some.inj he)
    exact ⟨hc, fun x _ => ⟨1, one_pos, (one_mul _).symm⟩⟩
  · obtain ⟨basis, s₁, hbasis, h⟩ := run_bind_eq_ok h
    obtain ⟨hgrows, w, hbasis⟩ := algebraically_spec (v := v) hbasis
    split_ifs at h
    · obtain ⟨rfl, rfl⟩ := run_pure_eq_ok h
      exact ⟨hgrows, fun _ _ he => by cases he⟩
    · obtain ⟨_, s₂, hcount, h⟩ := run_bind_eq_ok h
      obtain ⟨⟨r, negated⟩, s₃, hr, h⟩ := run_bind_eq_ok h
      obtain ⟨rfl, rfl⟩ := run_pure_eq_ok h
      obtain ⟨hgrows', w', hr⟩ := algebraically_spec (v := v) hr
      obtain ⟨horder, hvars, hsign⟩ := AlgebraSystem.reduce_spec hr
      refine ⟨(hgrows.trans (count_spec hcount)).trans hgrows', fun r' negated' he => ?_⟩
      obtain ⟨rfl, rfl⟩ := Prod.mk.inj (Option.some.inj he)
      have hsupported : ∀ b ∈ basis ++ [c], b.toMv ∈ MvPolynomial.supported ℚ ↑(below v) :=
        fun b hb => by
          rcases List.mem_append.1 hb with hb | hb
          · exact AlgebraSystem.supported_of_mem_groebnerBasis hbasis (fun p hp =>
              MvPolynomial.mem_supported.2 (Finset.coe_subset.2 (hhigher p hp).vars)) b hb
          · rw [List.mem_singleton.1 hb]
            exact MvPolynomial.mem_supported.2 (Finset.coe_subset.2 hc.vars)
      exact ⟨⟨horder, Finset.coe_subset.1 (MvPolynomial.mem_supported.1 (hvars _ hsupported))⟩,
        fun x hx => hsign x (AlgebraSystem.value_eq_zero_of_mem_groebnerBasis hbasis hx)⟩

/-- What an entry of a scan says of a coefficient at a point. -/
def SignOrZero (S : LinkSigns) (c : Poly) (x : ℕ → ℝ) : Option ℕ → Prop
  | some i => S i x = some (.ofReal (c.value x))
  | none => c.value x = 0

theorem Grows.signOrZero {c : Poly} {x : ℕ → ℝ} {i? : Option ℕ} (h : Grows v s t)
    (hi : SignOrZero s.signOf c x i?) : SignOrZero t.signOf c x i? := by
  cases i? with
  | none => exact hi
  | some i => exact h.signOf hi

/-- The link of a reduced coefficient, if it is not zero. -/
inductive ReducedLink (r : Poly) (negated : Bool) (s : Run) : Option ℕ → Run → Prop
  | zero : r.isZero = true → ReducedLink r negated s none s
  | request {i : ℕ} {t : Run} : request r negated s = .ok i t → ReducedLink r negated s (some i) t

/-- How a successful scan with reductions treats a coefficient: a zero is linked as such, the scan ends
before a coefficient whose higher ones have no common zero or after one without zeros, or it goes
on. -/
inductive ReducedStep (truncate : Bool) (vars : List ℕ) (higher : List Poly) (c : Poly) (k : ℕ)
    (cs : List (Poly × ℕ)) (s : Run) : List (ℕ × Option ℕ) → Run → Prop
  | zero {i : ℕ} {s₁ t : Run} {es : List (ℕ × Option ℕ)} (isZero : c.isZero = true)
      (link : store { sign := .zero } s = .ok i s₁)
      (rest : scanReducedCoeffs truncate vars higher cs s₁ = .ok es t) :
      ReducedStep truncate vars higher c k cs s ((k, some i) :: es) t
  | stop {s₁ t : Run} (reduced : reduceCoeff vars higher c s = .ok none s₁)
      (count : count (fun s => { s with truncatedScans := s.truncatedScans + 1 }) s₁ = .ok () t) :
      ReducedStep truncate vars higher c k cs s [] t
  | last {r : Poly} {negated : Bool} {i? : Option ℕ} {s₁ s₂ t : Run}
      (reduced : reduceCoeff vars higher c s = .ok (some (r, negated)) s₁)
      (link : ReducedLink r negated s₁ i? s₂) (nonzero : r.isDefinitelyNonzero = true)
      (count : countTruncation k s₂ = .ok () t) :
      ReducedStep truncate vars higher c k cs s [(k, i?)] t
  | more {r : Poly} {negated : Bool} {i? : Option ℕ} {s₁ s₂ t : Run} {es : List (ℕ × Option ℕ)}
      (reduced : reduceCoeff vars higher c s = .ok (some (r, negated)) s₁)
      (link : ReducedLink r negated s₁ i? s₂)
      (rest : scanReducedCoeffs truncate vars (higher ++ [c]) cs s₂ = .ok es t) :
      ReducedStep truncate vars higher c k cs s ((k, i?) :: es) t

theorem scanReducedCoeffs_cons_eq_ok {vars : List ℕ} {higher : List Poly} {c : Poly} {k : ℕ}
    {cs : List (Poly × ℕ)} {es : List (ℕ × Option ℕ)}
    (h : scanReducedCoeffs truncate vars higher ((c, k) :: cs) s = .ok es t) :
    ReducedStep truncate vars higher c k cs s es t := by
  rw [scanReducedCoeffs] at h
  split_ifs at h with hz
  · obtain ⟨i, s₁, hi, h⟩ := run_bind_eq_ok h
    obtain ⟨es', s₂, hes, h⟩ := run_bind_eq_ok h
    obtain ⟨rfl, rfl⟩ := run_pure_eq_ok h
    exact .zero hz hi hes
  · obtain ⟨r?, s₁, hr, h⟩ := run_bind_eq_ok h
    cases r? with
    | none =>
      obtain ⟨_, s₂, hcount, h⟩ := run_bind_eq_ok h
      obtain ⟨rfl, rfl⟩ := run_pure_eq_ok h
      exact .stop hr hcount
    | some r =>
      obtain ⟨r, negated⟩ := r
      obtain ⟨i?, s₂, hlink, h⟩ : ∃ i? s₂, ReducedLink r negated s₁ i? s₂ ∧
          (if truncate && r.isDefinitelyNonzero then do
            countTruncation k
            return [(k, i?)]
          else return (k, i?) :: (← scanReducedCoeffs truncate vars (higher ++ [c]) cs) :
            RunM (List (ℕ × Option ℕ))) s₂ = .ok es t := by
        by_cases hr0 : r.isZero = true
        · simp only [if_pos hr0] at h
          obtain ⟨_, s₂, hpure, h⟩ := run_bind_eq_ok h
          obtain ⟨rfl, rfl⟩ := run_pure_eq_ok hpure
          exact ⟨none, s₂, .zero hr0, h⟩
        · simp only [if_neg hr0] at h
          obtain ⟨i?, s₂, hlink, h⟩ := run_bind_eq_ok h
          rw [map_eq_pure_bind] at hlink
          obtain ⟨i, s₃, hi, hpure⟩ := run_bind_eq_ok hlink
          obtain ⟨rfl, rfl⟩ := run_pure_eq_ok hpure
          exact ⟨some i, s₂, .request hi, h⟩
      split_ifs at h with ht
      · obtain ⟨_, s₃, hcount, h⟩ := run_bind_eq_ok h
        obtain ⟨rfl, rfl⟩ := run_pure_eq_ok h
        exact .last hr hlink ((Bool.and_eq_true _ _).mp ht).2 hcount
      · obtain ⟨es', s₃, hes, h⟩ := run_bind_eq_ok h
        obtain ⟨rfl, rfl⟩ := run_pure_eq_ok h
        exact .more hr hlink hes

/-- The link of a reduced coefficient has the sign of the coefficient, where the higher ones vanish. -/
theorem reducedLink_spec {vars : List ℕ} {higher : List Poly} {c r : Poly} {negated : Bool}
    {i? : Option ℕ} {s₁ : Run} (hhigher : ∀ p ∈ higher, GradedIn (below v) p)
    (hc : GradedIn (below v) c) (hr : reduceCoeff vars higher c s = .ok (some (r, negated)) s₁)
    (hlink : ReducedLink r negated s₁ i? t) :
    Grows v s t ∧ ∀ x, (∀ p ∈ higher, p.value x = 0) → SignOrZero t.signOf c x i? := by
  obtain ⟨hgrows, hreduced⟩ := reduceCoeff_spec hhigher hc hr
  obtain ⟨hgraded, hvalue⟩ := hreduced r negated rfl
  cases hlink with
  | zero hr0 =>
    refine ⟨hgrows, fun x hx => ?_⟩
    obtain ⟨a, -, ha⟩ := hvalue x hx
    exact ha.trans (by rw [value_of_isZero x hr0, mul_zero])
  | request hi =>
    obtain ⟨hgrows', hsign⟩ := request_spec hgraded hi
    refine ⟨hgrows.trans hgrows', fun x hx => ?_⟩
    obtain ⟨a, ha, hc⟩ := hvalue x hx
    exact (hsign x).trans (congrArg some (ofReal_of_eq_mul ha hc).symm)

/-- Every entry of the scan is about a coefficient, where all higher ones vanish. -/
theorem scanReducedCoeffs_spec {vars : List ℕ} {higher : List Poly} {cs : List (Poly × ℕ)}
    {es : List (ℕ × Option ℕ)} (hhigher : ∀ p ∈ higher, GradedIn (below v) p)
    (hcs : ∀ c ∈ cs, GradedIn (below v) c.1) (hdesc : cs.Pairwise fun c d => d.2 < c.2)
    (h : scanReducedCoeffs truncate vars higher cs s = .ok es t) :
    Grows v s t ∧ ∀ e ∈ es, ∃ c ∈ cs, e.1 = c.2 ∧ ∀ x, (∀ p ∈ higher, p.value x = 0) →
      (∀ d ∈ cs, c.2 < d.2 → d.1.value x = 0) → SignOrZero t.signOf c.1 x e.2 := by
  induction cs generalizing es s higher with
  | nil =>
    obtain ⟨rfl, rfl⟩ := run_pure_eq_ok h
    exact ⟨.refl v _, nofun⟩
  | cons c cs ih =>
    obtain ⟨c, k⟩ := c
    obtain ⟨hc, hcs⟩ := List.forall_mem_cons.1 hcs
    obtain ⟨hlt, hdesc⟩ := List.pairwise_cons.1 hdesc
    -- the entry of this coefficient before those of the others, all of lower degree
    have hnext : ∀ {higher' : List Poly} {s₁ : Run} {l : Option ℕ} {es : List (ℕ × Option ℕ)},
        (∀ p ∈ higher', GradedIn (below v) p) → Grows v s s₁ →
        (∀ x, (∀ p ∈ higher, p.value x = 0) → SignOrZero s₁.signOf c x l) →
        (∀ x : ℕ → ℝ, (∀ p ∈ higher, p.value x = 0) → c.value x = 0 →
          ∀ p ∈ higher', p.value x = 0) →
        scanReducedCoeffs truncate vars higher' cs s₁ = .ok es t →
        Grows v s t ∧ ∀ e ∈ (k, l) :: es, ∃ d ∈ (c, k) :: cs, e.1 = d.2 ∧
          ∀ x, (∀ p ∈ higher, p.value x = 0) →
            (∀ b ∈ (c, k) :: cs, d.2 < b.2 → b.1.value x = 0) →
              SignOrZero t.signOf d.1 x e.2 := by
      intro higher' s₁ l es hgraded hgrows hsign hzero hes
      obtain ⟨hgrows', hall⟩ := ih hgraded hcs hdesc hes
      refine ⟨hgrows.trans hgrows', List.forall_mem_cons.2 ⟨⟨_, .head _, rfl,
        fun x hx _ => hgrows'.signOrZero (hsign x hx)⟩, fun e he => ?_⟩⟩
      obtain ⟨d, hd, he, hentry⟩ := hall e he
      refine ⟨d, .tail _ hd, he, fun x hx habove => hentry x ?_ fun b hb => habove b (.tail _ hb)⟩
      exact hzero x hx (habove (c, k) (.head _) (hlt d hd))
    cases scanReducedCoeffs_cons_eq_ok h with
    | zero hz hi hes =>
      obtain ⟨hgrows, hsign⟩ := store_zero_spec (v := v) hz hi
      exact hnext hhigher hgrows (fun x _ => hsign x) (fun x hx _ => hx) hes
    | stop hr hcount =>
      obtain ⟨hgrows, -⟩ := reduceCoeff_spec hhigher hc hr
      exact ⟨hgrows.trans (count_spec hcount), nofun⟩
    | last hr hlink _ hcount =>
      obtain ⟨hgrows, hsign⟩ := reducedLink_spec hhigher hc hr hlink
      have hcount := countTruncation_spec (v := v) hcount
      exact ⟨hgrows.trans hcount, List.forall_mem_singleton.2 ⟨_, .head _, rfl,
        fun x hx _ => hcount.signOrZero (hsign x hx)⟩⟩
    | more hr hlink hes =>
      obtain ⟨hgrows, hsign⟩ := reducedLink_spec hhigher hc hr hlink
      refine hnext (List.forall_mem_append.2 ⟨hhigher, List.forall_mem_singleton.2 hc⟩) hgrows hsign
        (fun x hx hcx => ?_) hes
      exact List.forall_mem_append.2 ⟨hx, List.forall_mem_singleton.2 hcx⟩

/-! ## Operators -/

section

variable {f g : ProjectionFactor} {before : List ProjectionFactor}

/-- The operator keeps the factor and gives it exact links. -/
structure Links (op : ProjectionOperator) (s t : Run) (before : List ProjectionFactor)
    (f g : ProjectionFactor) : Prop where
  grows : Grows f.level s t
  poly : g.poly = f.poly
  level : g.level = f.level
  exact : ExactLinks op t.signOf before g

theorem mcCallum_spec (hf : GradedIn (insert f.level (below f.level)) f.poly)
    (hbefore : ∀ q ∈ before, GradedIn (insert f.level (below f.level)) q.poly)
    (h : mcCallum truncate f before s = .ok g t) : Links .mcCallum s t before f g := by
  rw [mcCallum] at h
  obtain ⟨es, s₁, hes, h⟩ := run_bind_eq_ok h
  obtain ⟨hgrows₁, hentries⟩ := scanCoeffs_spec (v := f.level)
    (fun c hc => gradedIn_of_mem_coeffs_zipIdx hf hc) hes
  -- the resultants, after a discriminant with an exact link
  have hnext : ∀ {d : Option ℕ} {s₂ : Run}, Grows f.level s₁ s₂ →
      (if f.degree < 2 then d = none
        else ∃ i, d = some i ∧ Means s₂.signOf (f.poly.discriminant f.level) i) →
      (do
        let pairLinks ← before.zipIdx.mapM fun q => do
          let r ← algebraically (AlgebraSystem.resultant f.level f.poly q.1.poly)
          return (q.2, [← request r false])
        return { f with coeffLinks := es, discriminant := d, pairLinks } :
          RunM ProjectionFactor) s₂ = .ok g t → Links .mcCallum s t before f g := by
    intro d s₂ hgrows₂ hd h
    obtain ⟨pairs, s₃, hpairs, h⟩ := run_bind_eq_ok h
    obtain ⟨rfl, rfl⟩ := run_pure_eq_ok h
    obtain ⟨hgrows₃, hall⟩ := mapM_spec (v := f.level) (R := fun t => PairExact t.signOf f [0])
      Grows.pairExact (fun q hq {_ _ _} h => by
        have hq := hbefore q.1 (List.fst_mem_of_mem_zipIdx hq)
        rw [← bind_assoc] at h
        obtain ⟨i, s₄, hi, h⟩ := run_bind_eq_ok h
        obtain ⟨rfl, rfl⟩ := run_pure_eq_ok h
        obtain ⟨hgrows, hmeans⟩ :=
          means_of_request (fun _ => gradedIn_of_subresultantCoeff hf hq) hi
        exact ⟨hgrows, rfl, .cons hmeans .nil⟩) hpairs
    have hgrows := hgrows₂.trans hgrows₃
    refine ⟨hgrows₁.trans hgrows, rfl, rfl, ⟨fun k i hi x _ => ?_, fun k hk => ?_, fun _ => ?_,
      (fun hop => by cases hop), hall⟩⟩
    · obtain ⟨c, hc, rfl, i', hi', hsign⟩ := hentries _ hi
      obtain rfl := Option.some.inj hi'
      rw [hgrows.signOf (hsign x), mem_coeffs_zipIdx hc]
    · obtain ⟨_, _, _, _, hnone, _⟩ := hentries _ hk
      cases hnone
    · change if f.degree < 2 then d = none
        else ∃ i, d = some i ∧ Means t.signOf (f.poly.discriminant f.level) i
      split_ifs at hd ⊢
      · exact hd
      · obtain ⟨i, hi, hmeans⟩ := hd
        exact ⟨i, hi, hgrows₃.means hmeans⟩
  simp only at h
  split_ifs at h with hdeg
  · obtain ⟨d, s₂, hd, h⟩ := run_bind_eq_ok h
    obtain ⟨rfl, rfl⟩ := run_pure_eq_ok hd
    exact hnext (.refl _ _) (by rw [if_pos hdeg]) h
  · rw [← bind_assoc] at h
    obtain ⟨i, s₂, hi, h⟩ := run_bind_eq_ok h
    obtain ⟨hgrows, hmeans⟩ := means_of_request (fun _ => gradedIn_of_discriminant hf) hi
    obtain ⟨d, s₃, hd, h⟩ := run_bind_eq_ok h
    obtain ⟨rfl, rfl⟩ := run_pure_eq_ok hd
    exact hnext hgrows (by rw [if_neg hdeg]; exact ⟨i, rfl, hmeans⟩) h

theorem gradedIn_of_mem_reducta {n : ℕ} (hp : GradedIn (insert v (below v)) p) :
    ∀ r ∈ reducta v n p, GradedIn (insert v (below v)) r := by
  induction n generalizing p with
  | zero => nofun
  | succ n ih =>
    rw [reducta]
    split_ifs
    · nofun
    · exact List.forall_mem_cons.2 ⟨hp, ih hp.reductum⟩

/-- The first reductum is the factor itself, unless it has degree zero. -/
theorem forall₂_headD_scannedReducta {R : Poly → ℕ → ℕ → Prop} {k : Poly → ℕ} {iss : List (List ℕ)}
    (hk : f.degree = 0 → k f.poly = 0)
    (h : List.Forall₂ (fun r => List.Forall₂ (R r) (List.range (k r))) (scannedReducta f) iss) :
    List.Forall₂ (R f.poly) (List.range (k f.poly)) (iss.headD []) := by
  rw [scannedReducta, ← Nat.sub_add_cancel (le_max_right f.coeffLinks.length 1), reducta] at h
  split_ifs at h with hdeg
  · cases h
    rw [hk hdeg]
    exact .nil
  · cases h with
    | cons h _ => exact h

theorem pairwise_zipIdx_reverse (cs : List Poly) :
    cs.zipIdx.reverse.Pairwise fun c d => d.2 < c.2 := by
  rw [List.pairwise_reverse, ← List.pairwise_map (f := Prod.snd) (R := (· < ·)),
    List.zipIdx_map_snd]
  exact List.pairwise_lt_range'

theorem hong_spec (hf : GradedIn (insert f.level (below f.level)) f.poly)
    (hbefore : ∀ q ∈ before, q.level = f.level ∧ GradedIn (insert f.level (below f.level)) q.poly)
    (h : hong truncate f before s = .ok g t) : Links .hong s t before f g := by
  rw [hong] at h
  obtain ⟨es, s₁, hes, h⟩ := run_bind_eq_ok h
  obtain ⟨hgrows₁, hentries⟩ := scanReducedCoeffs_spec (v := f.level)
    (fun p hp => absurd hp List.not_mem_nil) (fun c hc => gradedIn_of_mem_coeffs_zipIdx hf hc)
    (pairwise_zipIdx_reverse _) hes
  -- what an entry says where the coefficients of higher degree vanish
  have hentry : ∀ e ∈ es, ∀ x, HigherVanish f e.1 x →
      SignOrZero s₁.signOf (f.poly.coeff f.level e.1) x e.2 := fun e he x hx => by
    obtain ⟨c, hc, hk, hsign⟩ := hentries e he
    rw [hk, ← mem_coeffs_zipIdx hc]
    refine hsign x (fun p hp => absurd hp List.not_mem_nil) fun d hd hlt => ?_
    rw [mem_coeffs_zipIdx hd]
    exact hx d.2 (hk ▸ hlt)
  obtain ⟨iss, s₂, hself, h⟩ := run_bind_eq_ok h
  obtain ⟨pairs, s₃, hpairs, h⟩ := run_bind_eq_ok h
  obtain ⟨rfl, rfl⟩ := run_pure_eq_ok h
  obtain ⟨hgrows₂, hself⟩ := mapM_spec (v := f.level) (R := fun t r => List.Forall₂ (fun j i =>
      Means t.signOf (subresultantCoeff f.level j r (r.derivative f.level)) i)
        (List.range (r.degreeOf f.level - 1)))
    (fun hgrows hr => hr.imp fun _ _ => hgrows.means) (fun r hr {_ _ _} h => by
      have hr := gradedIn_of_mem_reducta hf r hr
      exact subresultants_spec hr hr.derivative h) hself
  obtain ⟨hgrows₃, hpairs⟩ := mapM_spec (v := f.level)
    (R := fun t q => PairExact t.signOf f (pairIndices .hong f q.1) q)
    Grows.pairExact (fun q hq {_ _ _} h => by
      obtain ⟨hlevel, hq⟩ := hbefore q.1 (List.fst_mem_of_mem_zipIdx hq)
      obtain ⟨q, j⟩ := q
      obtain ⟨iss, s₄, hiss, h⟩ := run_bind_eq_ok h
      obtain ⟨rfl, rfl⟩ := run_pure_eq_ok h
      obtain ⟨hgrows, hiss⟩ := mapM_spec (v := f.level) (R := fun t r => List.Forall₂ (fun j i =>
          Means t.signOf (subresultantCoeff f.level j f.poly r) i)
            (List.range (min f.degree (r.degreeOf f.level))))
        (fun hgrows hr => hr.imp fun _ _ => hgrows.means) (fun r hr {_ _ _} h => by
          rw [scannedReducta, hlevel] at hr
          exact subresultants_spec hf (gradedIn_of_mem_reducta hq r hr) h) hiss
      refine ⟨hgrows, rfl, forall₂_headD_scannedReducta
        (k := fun r => min f.degree (r.degreeOf f.level)) (fun hq0 => ?_) hiss⟩
      rw [← hlevel, ← ProjectionFactor.degree, hq0, Nat.min_zero]) hpairs
  have hgrows := hgrows₂.trans hgrows₃
  exact ⟨hgrows₁.trans hgrows, rfl, rfl,
    ⟨fun k i hi x hx => hgrows.signOf (hentry _ hi x (hx rfl)), fun k hk x hx => hentry _ hk x hx,
      (fun hop => by cases hop), fun _ => (forall₂_headD_scannedReducta (f := { f with coeffLinks := es })
        (k := fun r => r.degreeOf f.level - 1) (fun h0 => by
          change f.poly.degreeOf f.level = 0 at h0
          rw [h0]) hself).imp fun _ _ => hgrows₃.means, hpairs⟩⟩

/-- The factors of a level get exact links, one after the other. -/
theorem factorsOf_spec {op : ProjectionOperator} {level : ℕ} {inputs ps : List Poly}
    {fs : List ProjectionFactor} (hbefore : LevelExact op s.signOf level before)
    (hgraded : ∀ p ∈ before.map (·.poly) ++ ps, GradedIn (insert level (below level)) p)
    (h : factorsOf op truncate level inputs before ps s = .ok fs t) :
    Grows level s t ∧ fs.map (·.poly) = before.map (·.poly) ++ ps ∧
      LevelExact op t.signOf level fs := by
  induction ps generalizing before s with
  | nil =>
    obtain ⟨rfl, rfl⟩ := run_pure_eq_ok h
    exact ⟨.refl level _, (List.append_nil _).symm, hbefore⟩
  | cons p ps ih =>
    have hp : GradedIn (insert level (below level)) p :=
      hgraded p (List.mem_append_right _ (.head _))
    have hall : ∀ q ∈ before, q.level = level ∧ GradedIn (insert level (below level)) q.poly :=
      fun q hq => by
        obtain ⟨i, hi⟩ := List.mem_iff_getElem?.1 hq
        exact ⟨(hbefore i q hi).1, hgraded _ (List.mem_append_left _ (List.mem_map_of_mem hq))⟩
    have hnext : ∀ {f g : ProjectionFactor} {s₁ : Run}, f.poly = p → f.level = level →
        Links op s s₁ before f g → (do
          count fun s => { s with factors := s.factors + 1 }
          factorsOf op truncate level inputs (before ++ [g]) ps : RunM (List ProjectionFactor)) s₁ =
            .ok fs t →
        Grows level s t ∧ fs.map (·.poly) = before.map (·.poly) ++ p :: ps ∧
          LevelExact op t.signOf level fs := by
      intro f g s₁ hfp hfl hlinks h
      obtain ⟨_, s₂, hcount, h⟩ := run_bind_eq_ok h
      have hgrows₁ : Grows level s s₁ := hfl ▸ hlinks.grows
      have hgrows₂ := count_spec (v := level) hcount
      have hpoly : (before ++ [g]).map (·.poly) ++ ps = before.map (·.poly) ++ p :: ps := by
        rw [List.map_append, List.map_singleton, hlinks.poly, hfp, List.append_assoc,
          List.singleton_append]
      obtain ⟨hgrows, hmap, hexact⟩ := ih ((hbefore.mono fun _ _ _ => hgrows₁.signOf).append
        (hlinks.level.trans hfl) hlinks.exact |>.mono fun _ _ _ => hgrows₂.signOf)
        (fun q hq => hgraded q (hpoly ▸ hq)) h
      exact ⟨(hgrows₁.trans hgrows₂).trans hgrows, hmap.trans hpoly, hexact⟩
    rw [factorsOf.eq_def] at h
    cases op with
    | mcCallum =>
      obtain ⟨g, s₁, hg, h⟩ := run_bind_eq_ok h
      exact hnext rfl rfl (mcCallum_spec hp (fun q hq => (hall q hq).2) hg) h
    | hong =>
      obtain ⟨g, s₁, hg, h⟩ := run_bind_eq_ok h
      exact hnext rfl rfl (hong_spec hp hall hg) h

end

end Run

end Projection

end Cylindrical

end
