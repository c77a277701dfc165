import Mathlib
import Cylindrical.Poly.Subresultant
import Cylindrical.Proofs.Poly.SquareFree

/-!
# Variables of subresultants

Subresultants and discriminants in `v` of polynomials in `v` and other variables are polynomials in
the other variables.
-/

noncomputable section

open MvPolynomial

namespace Cylindrical

namespace Poly

variable {s : Finset ℕ} {v : ℕ} {p q r : Poly}

/-- Polynomials in some variables. -/
def VarsIn (s : Finset ℕ) (p : Poly) : Prop := p.toMv.vars ⊆ s

/-- A class of polynomials that the operations of elimination do not leave. -/
structure Closed (K : Poly → Prop) : Prop where
  zero : K 0
  one : K 1
  neg : ∀ {p}, K p → K (-p)
  mul : ∀ {p q}, K p → K q → K (p * q)
  sub : ∀ {p q}, K p → K q → K (p - q)
  divExact? : ∀ {p d q}, K p → p.divExact? d = some q → K q

namespace VarsIn

theorem mono {t : Finset ℕ} (h : VarsIn s p) (hst : s ⊆ t) : VarsIn t p := h.trans hst

theorem of_dvd (hp : VarsIn s p) (hp0 : p.toMv ≠ 0) (h : q.toMv ∣ p.toMv) : VarsIn s q :=
  (vars_subset_of_dvd hp0 h).trans hp

theorem divExact? {d : Poly} (hp : VarsIn s p) (h : p.divExact? d = some q) : VarsIn s q := by
  obtain ⟨hd, hmul⟩ := toMv_of_divExact? h
  by_cases hp0 : p.toMv = 0
  · rw [VarsIn, (mul_eq_zero.1 (hmul.symm.trans hp0)).resolve_right hd, vars_0]
    exact Finset.empty_subset s
  · exact hp.of_dvd hp0 ⟨_, hmul⟩

/-- Polynomials in some variables are closed under the operations of elimination. -/
theorem closed (s : Finset ℕ) : Closed (VarsIn s) := by
  classical
  refine ⟨by simp [VarsIn], by simp [VarsIn], fun h => ?_, fun hp hq => ?_, fun hp hq => ?_, divExact?⟩
  · rwa [VarsIn, toMv_neg, vars_neg]
  · rw [VarsIn, toMv_mul]
    exact (vars_mul _ _).trans (Finset.union_subset hp hq)
  · rw [VarsIn, toMv_sub]
    exact (vars_sub_subset _).trans (Finset.union_subset hp hq)

/-- A polynomial whose monomials occur in the other up to powers of `v`. -/
theorem of_support (hp : VarsIn s p)
    (h : ∀ m ∈ q.toMv.support, ∃ n ∈ p.toMv.support, ∀ w, m w ≠ 0 → n w ≠ 0) : VarsIn s q := by
  intro w hw
  obtain ⟨m, hm, hmw⟩ := (MvPolynomial.mem_vars_iff_mem_support w).1 hw
  obtain ⟨n, hn, hmn⟩ := h m hm
  exact hp ((MvPolynomial.mem_vars_iff_mem_support w).2
    ⟨n, hn, Finsupp.mem_support_iff.2 (hmn w (Finsupp.mem_support_iff.1 hmw))⟩)

theorem derivative (hp : VarsIn s p) : VarsIn s (p.derivative v) :=
  hp.of_support fun m hm => by
    rw [toMv_derivative, MvPolynomial.mem_support_iff, coeff_pderiv] at hm
    refine ⟨_, MvPolynomial.mem_support_iff.2 (left_ne_zero_of_mul hm), fun w hw => ?_⟩
    rw [Finsupp.add_apply]
    omega

theorem reductum (hp : VarsIn s p) : VarsIn s (p.reductum v) :=
  hp.of_support fun m hm => by
    obtain ⟨t, ht, rfl⟩ := mem_support_toMv.1 hm
    exact ⟨_, mem_support_toMv.2 ⟨t, (List.mem_filter.1 ht).1, rfl⟩, fun _ => id⟩

theorem coeff (hp : VarsIn (insert v s) p) (k : ℕ) : VarsIn s (p.coeff v k) := fun w hw => by
  refine Finset.mem_of_mem_insert_of_ne (hp (vars_coeff_subset v k p hw)) ?_
  rintro rfl
  exact notMem_vars_coeff w k p hw

end VarsIn

namespace GradedIn

theorem mono {t : Finset ℕ} (h : GradedIn s p) (hst : s ⊆ t) : GradedIn t p :=
  ⟨h.order, h.vars.trans hst⟩

theorem closed (s : Finset ℕ) : Closed (GradedIn s) where
  zero := ⟨rfl, (VarsIn.closed s).zero⟩
  one := ⟨rfl, (VarsIn.closed s).one⟩
  neg h := ⟨h.order, (VarsIn.closed s).neg h.vars⟩
  mul hp hq := ⟨order_mul hp.order _, (VarsIn.closed s).mul hp.vars hq.vars⟩
  sub hp hq := ⟨order_sub hp.order _, (VarsIn.closed s).sub hp.vars hq.vars⟩
  divExact? {_ d _} hp h := ⟨order_exactQuotient (d := d) hp.order (by rw [exactQuotient, h]),
    VarsIn.divExact? hp.vars h⟩

theorem derivative (hp : GradedIn s p) : GradedIn s (p.derivative v) :=
  ⟨order_derivative hp.order, VarsIn.derivative hp.vars⟩

theorem reductum (hp : GradedIn s p) : GradedIn s (p.reductum v) :=
  ⟨hp.order, VarsIn.reductum hp.vars⟩

theorem coeff (hp : GradedIn (insert v s) p) (k : ℕ) : GradedIn s (p.coeff v k) :=
  (TotalGcd.orderedIn_coeff hp.orderedIn k).gradedIn

end GradedIn

/-! ## Determinants -/

namespace Closed

variable {K : Poly → Prop} {row : List Poly} {rows : List (List Poly)}

theorem headD (hK : Closed K) (h : ∀ x ∈ row, K x) : K (row.headD 0) := by
  cases row with
  | nil => exact hK.zero
  | cons x row => exact h x (.head _)

theorem of_exchangeRow {rest : List (List Poly)} (hrow : ∀ x ∈ row, K x)
    (hrows : ∀ r ∈ rows, ∀ x ∈ r, K x) {pivot : List Poly}
    (h : exchangeRow row rows = some (pivot, rest)) :
    (∀ x ∈ pivot, K x) ∧ ∀ r ∈ rest, ∀ x ∈ r, K x := by
  induction rows generalizing rest with
  | nil => cases h
  | cons r rs ih =>
    obtain ⟨hr, hrs⟩ := List.forall_mem_cons.1 hrows
    rw [exchangeRow] at h
    split_ifs at h
    · obtain ⟨⟨pivot', rest'⟩, hex, he⟩ := Option.map_eq_some_iff.1 h
      obtain ⟨rfl, rfl⟩ := Prod.mk.inj he
      obtain ⟨hpivot, hrest⟩ := ih hrs hex
      exact ⟨hpivot, List.forall_mem_cons.2 ⟨hr, hrest⟩⟩
    · obtain ⟨rfl, rfl⟩ := Prod.mk.inj (Option.some.inj h)
      exact ⟨hr, List.forall_mem_cons.2 ⟨hrow, hrs⟩⟩

theorem of_eliminateRow (hK : Closed K) {prev : Poly} {ps out : List Poly} (hp : K p)
    (hps : ∀ x ∈ ps, K x) (hrow : ∀ x ∈ row, K x) (h : eliminateRow prev p ps row = .ok out) :
    ∀ x ∈ out, K x := by
  cases row with
  | nil =>
    cases h
    nofun
  | cons c cs =>
    obtain ⟨hc, hcs⟩ := List.forall_mem_cons.1 hrow
    rw [eliminateRow] at h
    have hpairs : ∀ xy ∈ cs.zip ps, K xy.1 ∧ K xy.2 := fun xy hxy =>
      ⟨hcs _ (List.of_mem_zip hxy).1, hps _ (List.of_mem_zip hxy).2⟩
    generalize cs.zip ps = pairs at h hpairs
    intro x hx
    obtain ⟨⟨y, z⟩, hyz, hq⟩ := exists_mem_of_forall₂ (forall₂_of_mapM_eq_ok h) hx
    obtain ⟨hy, hz⟩ := hpairs _ hyz
    dsimp only at hq
    cases hdiv : (y * p - c * z).divExact? prev with
    | none =>
      rw [hdiv] at hq
      cases hq
    | some q =>
      rw [hdiv] at hq
      obtain rfl := Except.ok.inj hq
      exact hK.divExact? (hK.sub (hK.mul hy hp) (hK.mul hc hz)) hdiv

theorem of_eliminate (hK : Closed K) {n : ℕ} {prev d : Poly} {negate : Bool}
    (hrows : ∀ r ∈ rows, ∀ x ∈ r, K x) (h : eliminate n prev negate rows = .ok d) : K d := by
  induction n generalizing prev negate rows with
  | zero =>
    cases h
    exact hK.one
  | succ n ih =>
    match rows, h with
    | [], h =>
      cases h
      exact hK.one
    | [row], h =>
      have hhead := hK.headD (hrows row (.head _))
      cases h
      split_ifs
      · exact hK.neg hhead
      · exact hhead
    | row :: row' :: rows, h =>
      obtain ⟨hrow, hrest⟩ := List.forall_mem_cons.1 hrows
      rw [eliminate] at h
      · split at h
        · rename_i p ps rows' negate' hpivot
          obtain ⟨out, hout, h⟩ := bind_eq_ok h
          have hpivots : (∀ x ∈ p :: ps, K x) ∧ ∀ r ∈ rows', ∀ x ∈ r, K x := by
            split_ifs at hpivot
            · obtain ⟨⟨pivot, rest⟩, hex, he⟩ := Option.map_eq_some_iff.1 hpivot
              obtain ⟨he, -⟩ := Prod.mk.inj he
              obtain ⟨rfl, rfl⟩ := Prod.mk.inj he
              exact of_exchangeRow hrow hrest hex
            · obtain ⟨he, -⟩ := Prod.mk.inj (Option.some.inj hpivot)
              obtain ⟨rfl, rfl⟩ := Prod.mk.inj he
              exact ⟨hrow, hrest⟩
          obtain ⟨hp, hps⟩ := List.forall_mem_cons.1 hpivots.1
          refine ih (fun r hr => ?_) h
          obtain ⟨r', hr', hrr⟩ := exists_mem_of_forall₂ (forall₂_of_mapM_eq_ok hout) hr
          exact hK.of_eliminateRow hp hps (hpivots.2 r' hr') hrr
        · cases h
          exact hK.zero
      · nofun

/-! ## Subresultants -/

theorem of_mem_shiftedRow (hK : Closed K) {cols shift : ℕ} {cs : List Poly} (h : ∀ c ∈ cs, K c) :
    ∀ x ∈ shiftedRow cols shift cs, K x := by
  intro x hx
  rw [shiftedRow, List.mem_append, List.mem_append, List.mem_reverse] at hx
  rcases hx with (hx | hx) | hx
  · rw [List.eq_of_mem_replicate hx]
    exact hK.zero
  · exact h x hx
  · rw [List.eq_of_mem_replicate hx]
    exact hK.zero

theorem of_mem_subresultantRows (hK : Closed K) {j : ℕ} {ps qs : List Poly}
    (hps : ∀ c ∈ ps, K c) (hqs : ∀ c ∈ qs, K c) :
    ∀ row ∈ subresultantRows j ps qs, ∀ x ∈ row, K x := by
  intro row hrow
  rw [subresultantRows, List.mem_append] at hrow
  rcases hrow with hrow | hrow
  · obtain ⟨k, -, rfl⟩ := List.mem_map.1 hrow
    exact hK.of_mem_shiftedRow hps
  · obtain ⟨k, -, rfl⟩ := List.mem_map.1 hrow
    exact hK.of_mem_shiftedRow hqs

theorem of_subresultantCoeff (hK : Closed K) {j : ℕ} {d : Poly} (hp : ∀ c ∈ p.coeffs v, K c)
    (hq : ∀ c ∈ q.coeffs v, K c) (h : subresultantCoeff v j p q = .ok d) : K d := by
  rw [subresultantCoeff] at h
  dsimp only at h
  split_ifs at h
  · cases h
    exact hK.zero
  · refine hK.of_eliminate (fun r hr x hx => ?_) h
    obtain ⟨row, hrow, rfl⟩ := List.mem_map.1 hr
    exact hK.of_mem_subresultantRows hp hq row hrow x (List.mem_of_mem_take hx)

theorem of_discriminant (hK : Closed K) {d : Poly} (hp : ∀ c ∈ p.coeffs v, K c)
    (hp' : ∀ c ∈ (p.derivative v).coeffs v, K c) (h : p.discriminant v = .ok d) : K d := by
  have hquotient : ∀ {r e : Poly}, resultant v p (p.derivative v) = .ok r →
      r.divExact? (p.leadingCoeffOf v) = some e → K e := fun hr he =>
    hK.divExact? (hK.of_subresultantCoeff hp hp' hr) he
  rw [discriminant] at h
  split_ifs at h
  · cases h
    exact hK.one
  · obtain ⟨r, hr, h⟩ := bind_eq_ok h
    split at h
    · cases h
    · rename_i e he
      cases h
      exact hK.neg (hquotient hr he)
  · obtain ⟨r, hr, h⟩ := bind_eq_ok h
    split at h
    · cases h
    · rename_i e he
      cases h
      exact hquotient hr he

end Closed

section

variable {j : ℕ} {d : Poly}

theorem VarsIn.of_mem_coeffs (hp : VarsIn (insert v s) p) : ∀ c ∈ p.coeffs v, VarsIn s c :=
  List.forall_mem_map.2 fun k _ => hp.coeff k

theorem gradedIn_of_mem_coeffs (hp : GradedIn (insert v s) p) : ∀ c ∈ p.coeffs v, GradedIn s c :=
  List.forall_mem_map.2 fun k _ => hp.coeff k

theorem varsIn_of_subresultantCoeff (hp : VarsIn (insert v s) p) (hq : VarsIn (insert v s) q)
    (h : subresultantCoeff v j p q = .ok d) : VarsIn s d :=
  (VarsIn.closed s).of_subresultantCoeff hp.of_mem_coeffs hq.of_mem_coeffs h

theorem gradedIn_of_subresultantCoeff (hp : GradedIn (insert v s) p) (hq : GradedIn (insert v s) q)
    (h : subresultantCoeff v j p q = .ok d) : GradedIn s d :=
  (GradedIn.closed s).of_subresultantCoeff (gradedIn_of_mem_coeffs hp) (gradedIn_of_mem_coeffs hq) h

theorem varsIn_of_discriminant (hp : VarsIn (insert v s) p) (h : p.discriminant v = .ok d) :
    VarsIn s d :=
  (VarsIn.closed s).of_discriminant hp.of_mem_coeffs hp.derivative.of_mem_coeffs h

theorem gradedIn_of_discriminant (hp : GradedIn (insert v s) p) (h : p.discriminant v = .ok d) :
    GradedIn s d :=
  (GradedIn.closed s).of_discriminant (gradedIn_of_mem_coeffs hp)
    (gradedIn_of_mem_coeffs hp.derivative) h

end

end Poly

end Cylindrical

end
