import Mathlib
import Cylindrical.Poly.Gcd
import Cylindrical.Proofs.Focus
import Cylindrical.Proofs.Poly.Division
import Cylindrical.Proofs.Poly.Primitive

/-!
# Greatest common divisors

What is computed divides both polynomials, and every common divisor divides it
(`dvd_gcd_iff`).  The remainder sequence keeps the common divisors that are primitive in the variable;
those without the variable are the common divisors of the contents.
-/

noncomputable section

open MvPolynomial

namespace Cylindrical

namespace Poly

/-- The divisors of `g` are the common divisors of `p` and `q`. -/
def IsGcd (g p q : Poly) : Prop := ∀ d : MvPolynomial ℕ ℚ, d ∣ g.toMv ↔ d ∣ p.toMv ∧ d ∣ q.toMv

/-- A function yields greatest common divisors of polynomials in some variables. -/
def GcdIn (s : Finset ℕ) (gcd : Poly → Poly → Algebra Poly) : Prop :=
  ∀ p q g, p.toMv.vars ⊆ s → q.toMv.vars ⊆ s → gcd p q = .ok g → IsGcd g p q

namespace IsGcd

variable {g p q : Poly}

theorem dvd_left (h : IsGcd g p q) : g.toMv ∣ p.toMv := ((h _).1 dvd_rfl).1

theorem dvd_right (h : IsGcd g p q) : g.toMv ∣ q.toMv := ((h _).1 dvd_rfl).2

theorem symm (h : IsGcd g p q) : IsGcd g q p := fun d => (h d).trans and_comm

theorem ne_zero_of_left (h : IsGcd g p q) (hp : p.toMv ≠ 0) : g.toMv ≠ 0 :=
  ne_zero_of_dvd_ne_zero hp h.dvd_left

theorem vars_subset {s : Finset ℕ} (h : IsGcd g p q) (hp : p.toMv.vars ⊆ s)
    (hq : q.toMv.vars ⊆ s) : g.toMv.vars ⊆ s := by
  by_cases hp0 : p.toMv = 0
  · by_cases hq0 : q.toMv = 0
    · have h0 : g.toMv = 0 := zero_dvd_iff.1 ((h 0).2 ⟨by rw [hp0], by rw [hq0]⟩)
      simp [h0]
    · exact (vars_subset_of_dvd hq0 h.dvd_right).trans hq
  · exact (vars_subset_of_dvd hp0 h.dvd_left).trans hp

theorem of_left_zero (hp : p.toMv = 0) : IsGcd q.canonical p q := fun d => by
  rw [(associated_canonical q).dvd_iff_dvd_right, hp]
  simp

theorem of_right_zero (hq : q.toMv = 0) : IsGcd p.canonical p q := (of_left_zero hq).symm

theorem of_isUnit (hg : IsUnit g.toMv) (hp : IsUnit p.toMv ∨ IsUnit q.toMv) : IsGcd g p q := by
  intro d
  refine ⟨fun h => ?_, fun h => ?_⟩
  · have hd := isUnit_of_dvd_unit h hg
    exact ⟨hd.dvd, hd.dvd⟩
  · rcases hp with hp | hp
    · exact (isUnit_of_dvd_unit h.1 hp).dvd
    · exact (isUnit_of_dvd_unit h.2 hp).dvd

end IsGcd

theorem isUnit_toMv_of_mainVar? {p : Poly} (h : p.mainVar? = none) (hp : p.toMv ≠ 0) :
    IsUnit p.toMv := by
  obtain ⟨c, hc⟩ := isNumber_iff.1 (mainVar?_eq_none_iff.1 h)
  rw [hc] at hp ⊢
  refine (isUnit_iff_ne_zero.2 fun h0 => hp ?_).map C
  rw [h0, C_0]

/-! ## Contents -/

section

variable {s : Finset ℕ} {gcd : Poly → Poly → Algebra Poly} {v : ℕ}

theorem dvd_gcdListBy_iff (hgcd : GcdIn s gcd) {acc g : Poly} {ps : List Poly}
    (hacc : acc.toMv.vars ⊆ s) (hps : ∀ p ∈ ps, p.toMv.vars ⊆ s)
    (h : gcdListBy gcd acc ps = .ok g) (d : MvPolynomial ℕ ℚ) :
    d ∣ g.toMv ↔ d ∣ acc.toMv ∧ ∀ p ∈ ps, d ∣ p.toMv := by
  induction ps generalizing acc with
  | nil =>
    obtain rfl := Except.ok.inj h
    simp
  | cons p ps ih =>
    obtain ⟨k, hk, h⟩ := bind_eq_ok h
    have hgk := hgcd acc p k hacc (hps p (.head _)) hk
    rw [List.forall_mem_cons, ← and_assoc, ← hgk d]
    split_ifs at h with hone
    · obtain rfl := Except.ok.inj h
      rw [isOne_iff.1 hone]
      exact ⟨fun hd => ⟨hd, fun q _ => hd.trans (one_dvd _)⟩, And.left⟩
    · exact ih (hgk.vars_subset hacc (hps p (.head _))) (fun q hq => hps q (.tail _ hq)) h

theorem coeff_of_notMem {p : Poly} (h : v ∉ p.toMv.vars) (k : ℕ) :
    (p.coeff v k).toMv = if k = 0 then p.toMv else 0 := by
  rw [← coeff_openVar, openVar_of_notMem h, Polynomial.coeff_C]

theorem coeff_mem_coeffs {k : ℕ} {p : Poly} (h : k ≤ p.degreeOf v) :
    p.coeff v k ∈ p.coeffs v :=
  List.mem_map.2 ⟨k, List.mem_range.2 (by omega), rfl⟩

/-- The content is the greatest common divisor of the coefficients. -/
theorem dvd_contentBy_iff (hgcd : GcdIn s gcd) {p c : Poly} (hp : p.toMv.vars ⊆ insert v s)
    (h : contentBy gcd v p = .ok c) (d : MvPolynomial ℕ ℚ) :
    d ∣ c.toMv ↔ ∀ k, d ∣ (p.coeff v k).toMv := by
  rw [contentBy] at h
  split_ifs at h with hv
  · have hmem : ∀ q ∈ (p.coeffs v).filter fun c => !c.isZero, q.toMv.vars ⊆ s := by
      intro q hq
      obtain ⟨k, -, rfl⟩ := List.mem_map.1 (List.mem_filter.1 hq).1
      intro w hw
      refine Finset.mem_of_mem_insert_of_ne (hp (vars_coeff_subset v k p hw)) ?_
      rintro rfl
      exact notMem_vars_coeff w k p hw
    rw [dvd_gcdListBy_iff hgcd (by simp) hmem h]
    constructor
    · rintro ⟨-, hd⟩ k
      by_cases hk : (p.coeff v k).toMv = 0
      · rw [hk]
        exact dvd_zero d
      · refine hd _ (List.mem_filter.2 ⟨coeff_mem_coeffs (not_lt.1 fun hlt => ?_), ?_⟩)
        · exact hk (coeff_eq_zero_of_degreeOf_lt hlt)
        · rw [isZero_eq_false_iff.2 hk]
          rfl
    · intro hd
      refine ⟨by simp, fun q hq => ?_⟩
      obtain ⟨k, -, rfl⟩ := List.mem_map.1 (List.mem_filter.1 hq).1
      exact hd k
  · obtain rfl := Except.ok.inj h
    have hv := containsVar_eq_false_iff.1 (by simpa using hv)
    rw [(associated_canonical p).dvd_iff_dvd_right]
    refine ⟨fun hd k => ?_, fun hd => ?_⟩
    · rw [coeff_of_notMem hv]
      split_ifs
      · exact hd
      · exact dvd_zero d
    · simpa [coeff_of_notMem hv] using hd 0

/-- What the content of a nonzero polynomial is: without the variable, and with a primitive
cofactor. -/
theorem contentBy_spec (hgcd : GcdIn s gcd) {p c : Poly} (hp : p.toMv.vars ⊆ insert v s)
    (hp0 : p.toMv ≠ 0) (h : contentBy gcd v p = .ok c) :
    c.toMv ≠ 0 ∧ v ∉ c.toMv.vars ∧ c.toMv.vars ⊆ s ∧
      ∀ P, p.toMv = P * c.toMv → PrimitiveIn v P := by
  have hdvd := dvd_contentBy_iff hgcd hp h
  have hlead : (p.leadingCoeffOf v).toMv ≠ 0 := leadingCoeffOf_ne_zero hp0
  have hcl : c.toMv ∣ (p.leadingCoeffOf v).toMv := (hdvd _).1 dvd_rfl _
  have hc0 : c.toMv ≠ 0 := ne_zero_of_dvd_ne_zero hlead hcl
  have hvars := vars_subset_of_dvd hlead hcl
  have hcv : v ∉ c.toMv.vars := fun hv => notMem_vars_leadingCoeffOf v p (hvars hv)
  refine ⟨hc0, hcv, fun w hw => ?_, fun P hP => .of_forall_isUnit fun e he hev => ?_⟩
  · refine Finset.mem_of_mem_insert_of_ne (hp (vars_coeff_subset v _ p (hvars hw))) ?_
    rintro rfl
    exact hcv hw
  · classical
    have hecv : v ∉ (e * c.toMv).vars := fun hv => by
      rcases Finset.mem_union.1 (vars_mul _ _ hv) with hv | hv
      · exact hev hv
      · exact hcv hv
    have hdp : e * c.toMv ∣ p.toMv := hP ▸ mul_dvd_mul_right he _
    obtain ⟨u, hu⟩ := (hdvd _).2 (dvd_coeff hecv hdp)
    refine IsUnit.of_mul_eq_one u (mul_right_cancel₀ hc0 ?_)
    linear_combination -hu

theorem primitivePartBy_spec (hgcd : GcdIn s gcd) {p q : Poly} (hp : p.toMv.vars ⊆ insert v s)
    (hp0 : p.toMv ≠ 0) (h : primitivePartBy gcd v p = .ok q) :
    PrimitiveIn v q.toMv ∧ ∃ c, c ≠ 0 ∧ v ∉ c.vars ∧ p.toMv = c * q.toMv := by
  rw [primitivePartBy, isZero_eq_false_iff.2 hp0] at h
  obtain ⟨c, hc, h⟩ := bind_eq_ok h
  obtain ⟨r, hr, h⟩ := bind_eq_ok h
  obtain rfl := Except.ok.inj h
  obtain ⟨hc0, hcv, -, hprim⟩ := contentBy_spec hgcd hp hp0 hc
  obtain ⟨-, heq⟩ := toMv_of_exactQuotient hr
  refine ⟨(hprim _ heq).of_dvd (associated_canonical r).dvd,
    C r.canonicalFactor * c.toMv, mul_ne_zero ?_ hc0, ?_, ?_⟩
  · rw [Ne, C_eq_zero]
    exact canonicalFactor_ne_zero r
  · rwa [vars_C_mul _ (canonicalFactor_ne_zero r)]
  · rw [heq]
    conv_lhs => rw [toMv_canonical r]
    ring

/-! ## Remainder sequences -/

/-- The last element of the sequence has the primitive common divisors of the first two. -/
theorem dvd_remainderSequence_iff (hgcd : GcdIn s gcd) {steps : ℕ} {f g h : Poly}
    (hf : f.toMv.vars ⊆ insert v s) (hg : g.toMv.vars ⊆ insert v s) (hgp : PrimitiveIn v g.toMv)
    (hgv : v ∈ g.toMv.vars) (hsteps : g.degreeOf v < steps)
    (hseq : remainderSequence gcd v steps f g = .ok h) :
    h.toMv ≠ 0 ∧ h.toMv.vars ⊆ insert v s ∧
      ∀ d, PrimitiveIn v d → (d ∣ h.toMv ↔ d ∣ f.toMv ∧ d ∣ g.toMv) := by
  classical
  induction steps generalizing f g with
  | zero => omega
  | succ steps ih =>
    have hg0 : g.toMv ≠ 0 := by
      rintro h0
      simp [h0] at hgv
    rw [remainderSequence, isZero_eq_false_iff.2 hg0] at hseq
    obtain ⟨r, hr, hseq⟩ := bind_eq_ok hseq
    have hdeg : 0 < g.degreeOf v := by
      rw [Nat.pos_iff_ne_zero, Ne, degreeOf_eq_zero_iff]
      exact not_not.2 hgv
    obtain ⟨⟨k, q, hq⟩, hlt, hvars⟩ := pseudoRemainder_spec hdeg hr
    have hlc := leadingCoeffOf_ne_zero (v := v) hg0
    have hlcv : v ∉ ((g.leadingCoeffOf v).toMv ^ k).vars := fun hv =>
      notMem_vars_leadingCoeffOf v g (vars_pow _ _ hv)
    have hstep : ∀ d, PrimitiveIn v d → (d ∣ f.toMv ∧ d ∣ g.toMv ↔ d ∣ r.toMv ∧ d ∣ g.toMv) := by
      intro d hd
      refine ⟨fun ⟨h₁, h₂⟩ => ⟨?_, h₂⟩, fun ⟨h₁, h₂⟩ => ⟨?_, h₂⟩⟩
      · rw [hq]
        exact dvd_sub (h₁.mul_left _) (h₂.mul_left _)
      · refine hd.dvd_of_dvd_mul (pow_ne_zero k hlc) hlcv ?_
        rw [hq] at h₁
        exact (dvd_sub_left (h₂.mul_left q)).1 h₁
    have hrs : r.toMv.vars ⊆ insert v s := hvars.trans (Finset.union_subset hf hg)
    by_cases hr0 : r.toMv = 0
    · rw [toMv_eq_zero_iff.1 hr0] at hseq
      obtain rfl := Except.ok.inj hseq
      refine ⟨hg0, hg, fun d hd => ?_⟩
      rw [hstep d hd, hr0]
      simp
    · rw [isZero_eq_false_iff.2 hr0] at hseq
      by_cases hrv : r.containsVar v = true
      · rw [hrv] at hseq
        obtain ⟨p, hp, hseq⟩ := bind_eq_ok hseq
        obtain ⟨hpp, c, hc0, hcv, hrc⟩ := primitivePartBy_spec hgcd hrs hr0 hp
        have hp0 : p.toMv ≠ 0 := by
          rintro h0
          exact hr0 (by rw [hrc, h0, mul_zero])
        have hpd : p.degreeOf v = r.degreeOf v := by
          rw [degreeOf_eq, degreeOf_eq, hrc, degreeOf_mul_eq hc0 hp0, degreeOf_of_notMem_vars hcv,
            zero_add]
        have hpv : v ∈ p.toMv.vars := by
          rw [← not_not (a := v ∈ _), ← degreeOf_eq_zero_iff, hpd, degreeOf_eq_zero_iff, not_not]
          exact containsVar_iff.1 hrv
        have hpr : p.toMv ∣ r.toMv := ⟨c, by rw [hrc, mul_comm]⟩
        obtain ⟨hh0, hhs, hh⟩ := ih hg ((vars_subset_of_dvd hr0 hpr).trans hrs) hpp hpv (by omega)
          hseq
        refine ⟨hh0, hhs, fun d hd => ?_⟩
        rw [hh d hd, hstep d hd, and_comm, and_congr_left_iff]
        refine fun _ => ⟨fun h => h.trans hpr, fun h => hd.dvd_of_dvd_mul hc0 hcv ?_⟩
        rwa [← hrc]
      · rw [Bool.eq_false_iff.2 hrv] at hseq
        obtain rfl := Except.ok.inj hseq
        refine ⟨by simp, by simp, fun d hd => ?_⟩
        rw [hstep d hd, toMv_one]
        refine ⟨fun h => ?_, fun ⟨h, _⟩ => ?_⟩
        · have hu := isUnit_of_dvd_one h
          exact ⟨hu.dvd, hu.dvd⟩
        · have hdv : v ∉ d.vars := fun hv =>
            containsVar_eq_false_iff.1 (Bool.eq_false_iff.2 hrv) (vars_subset_of_dvd hr0 h hv)
          exact (hd.isUnit_of_notMem (ne_zero_of_dvd_ne_zero hr0 h) hdv).dvd

/-- The common divisors of two products, each of a polynomial without the variable and a primitive
one. -/
theorem isGcd_of_parts {p q c k g : Poly} {P Q P' Q' : MvPolynomial ℕ ℚ} (hp0 : p.toMv ≠ 0)
    (hp : p.toMv = P' * P) (hq : q.toMv = Q' * Q) (hP : v ∉ P.vars) (hQ : v ∉ Q.vars)
    (hP' : PrimitiveIn v P') (hQ' : PrimitiveIn v Q') (hq0 : q.toMv ≠ 0)
    (hc : ∀ d, d ∣ c.toMv ↔ d ∣ P ∧ d ∣ Q) (hk' : PrimitiveIn v k.toMv)
    (hk : ∀ d, PrimitiveIn v d → (d ∣ k.toMv ↔ d ∣ P' ∧ d ∣ Q'))
    (hg : Associated g.toMv (c.toMv * k.toMv)) : IsGcd g p q := by
  have hP0 : P ≠ 0 := right_ne_zero_of_mul (hp ▸ hp0)
  have hQ0 : Q ≠ 0 := right_ne_zero_of_mul (hq ▸ hq0)
  intro d
  rw [hg.dvd_iff_dvd_right]
  constructor
  · intro hd
    obtain ⟨hcP, hcQ⟩ := (hc _).1 dvd_rfl
    obtain ⟨hkP, hkQ⟩ := (hk _ hk').1 dvd_rfl
    rw [hp, hq, mul_comm P', mul_comm Q']
    exact ⟨hd.trans (mul_dvd_mul hcP hkP), hd.trans (mul_dvd_mul hcQ hkQ)⟩
  · rintro ⟨hdp, hdq⟩
    have hd0 : d ≠ 0 := ne_zero_of_dvd_ne_zero hp0 hdp
    obtain ⟨e, f, rfl, he, hf⟩ := exists_primitiveIn v hd0
    have he0 := left_ne_zero_of_mul hd0
    rw [hp] at hdp
    rw [hq] at hdq
    refine mul_dvd_mul ((hc e).2 ⟨?_, ?_⟩) ((hk f hf).2 ⟨?_, ?_⟩)
    · exact hP'.dvd_of_dvd_mul_primitive he0 he (mul_comm P' P ▸ dvd_of_mul_right_dvd hdp)
    · exact hQ'.dvd_of_dvd_mul_primitive he0 he (mul_comm Q' Q ▸ dvd_of_mul_right_dvd hdq)
    · exact hf.dvd_of_dvd_mul hP0 hP (mul_comm P' P ▸ dvd_of_mul_left_dvd hdp)
    · exact hf.dvd_of_dvd_mul hQ0 hQ (mul_comm Q' Q ▸ dvd_of_mul_left_dvd hdq)

theorem mem_vars_of_mul {P Q : MvPolynomial ℕ ℚ} (h : v ∈ (P * Q).vars) (hQ : v ∉ Q.vars) :
    v ∈ P.vars := by
  classical
  rcases Finset.mem_union.1 (vars_mul P Q h) with h | h
  · exact h
  · exact absurd h hQ

theorem isGcd_gcdInVar (hgcd : GcdIn s gcd) {p q g : Poly}
    (hp : p.toMv.vars ⊆ insert v s) (hq : q.toMv.vars ⊆ insert v s)
    (hpv : v ∈ p.toMv.vars) (hqv : v ∈ q.toMv.vars) (h : gcdInVar gcd v p q = .ok g) :
    IsGcd g p q := by
  have hp0 : p.toMv ≠ 0 := by
    rintro h0
    simp [h0] at hpv
  have hq0 : q.toMv ≠ 0 := by
    rintro h0
    simp [h0] at hqv
  obtain ⟨cp, hcp, h⟩ := bind_eq_ok h
  obtain ⟨cq, hcq, h⟩ := bind_eq_ok h
  obtain ⟨pp, hpp, h⟩ := bind_eq_ok h
  obtain ⟨pq, hpq, h⟩ := bind_eq_ok h
  obtain ⟨c, hc, h⟩ := bind_eq_ok h
  obtain ⟨hcp0, hcpv, hcps, hppp⟩ := contentBy_spec hgcd hp hp0 hcp
  obtain ⟨hcq0, hcqv, hcqs, hpqp⟩ := contentBy_spec hgcd hq hq0 hcq
  have hpe := (toMv_of_exactQuotient hpp).2
  have hqe := (toMv_of_exactQuotient hpq).2
  have hc := hgcd cp cq c hcps hcqs hc
  have hpps := (vars_subset_of_dvd hp0 ⟨_, hpe⟩).trans hp
  have hpqs := (vars_subset_of_dvd hq0 ⟨_, hqe⟩).trans hq
  have hppv : v ∈ pp.toMv.vars := mem_vars_of_mul (hpe ▸ hpv) hcpv
  have hpqv : v ∈ pq.toMv.vars := mem_vars_of_mul (hqe ▸ hqv) hcqv
  have hseq : ∃ k w, (k.toMv ≠ 0 ∧ k.toMv.vars ⊆ insert v s ∧
      ∀ d, PrimitiveIn v d → (d ∣ k.toMv ↔ d ∣ pp.toMv ∧ d ∣ pq.toMv)) ∧
      primitivePartBy gcd v k = .ok w ∧ g = (c * w).canonical := by
    split_ifs at h
    · obtain ⟨k, hk, h⟩ := bind_eq_ok h
      obtain ⟨w, hw, h⟩ := bind_eq_ok h
      exact ⟨k, w, dvd_remainderSequence_iff hgcd hpps hpqs (hpqp _ hqe) hpqv (Nat.lt_succ_self _)
        hk, hw, (Except.ok.inj h).symm⟩
    · obtain ⟨k, hk, h⟩ := bind_eq_ok h
      obtain ⟨w, hw, h⟩ := bind_eq_ok h
      obtain ⟨h₁, h₂, h₃⟩ := dvd_remainderSequence_iff hgcd hpqs hpps (hppp _ hpe) hppv
        (Nat.lt_succ_self _) hk
      exact ⟨k, w, ⟨h₁, h₂, fun d hd => (h₃ d hd).trans and_comm⟩, hw, (Except.ok.inj h).symm⟩
  obtain ⟨k, w, ⟨hk0, hks, hkd⟩, hw, rfl⟩ := hseq
  obtain ⟨hwp, e, he0, hev, hkw⟩ := primitivePartBy_spec hgcd hks hk0 hw
  refine isGcd_of_parts (k := w) hp0 hpe hqe hcpv hcqv (hppp _ hpe) (hpqp _ hqe) hq0 hc hwp ?_ ?_
  · intro d hd
    rw [← hkd d hd, hkw]
    exact ⟨fun h => h.mul_left _, fun h => hd.dvd_of_dvd_mul he0 hev h⟩
  · rw [← toMv_mul]
    exact associated_canonical _

end

/-! ## Recursion on the number of variables -/

/-- With the variable `v` in `q` only. -/
theorem isGcd_of_content {s : Finset ℕ} {gcd : Poly → Poly → Algebra Poly} {v : ℕ} {p q c g : Poly}
    (hgcd : GcdIn s gcd) (hp0 : p.toMv ≠ 0) (hv : v ∉ p.toMv.vars) (hq : q.toMv.vars ⊆ insert v s) (hc : contentBy gcd v q = .ok c)
    (hg : IsGcd g p c) : IsGcd g p q := by
  intro d
  rw [hg d, and_congr_right_iff]
  intro hdp
  have hdv : v ∉ d.vars := fun h => hv (vars_subset_of_dvd hp0 hdp h)
  rw [dvd_contentBy_iff hgcd hq hc]
  exact ⟨dvd_of_forall_dvd_coeff, fun h k => dvd_coeff hdv h k⟩

theorem gcdIn_gcdUpTo {n : ℕ} {s : Finset ℕ} (hs : s.card < n) : GcdIn s (gcdUpTo n) := by
  induction n generalizing s with
  | zero => omega
  | succ n ih =>
    intro p q g hp hq h
    rw [gcdUpTo] at h
    by_cases hp0 : p.toMv = 0
    · rw [toMv_eq_zero_iff.1 hp0] at h
      obtain rfl := Except.ok.inj h
      exact .of_left_zero hp0
    by_cases hq0 : q.toMv = 0
    · rw [isZero_eq_false_iff.2 hp0, toMv_eq_zero_iff.1 hq0] at h
      obtain rfl := Except.ok.inj h
      exact .of_right_zero hq0
    rw [isZero_eq_false_iff.2 hp0, isZero_eq_false_iff.2 hq0] at h
    simp only [Bool.false_eq_true, if_false] at h
    have hone : IsUnit (1 : Poly).toMv := by
      rw [toMv_one]
      exact isUnit_one
    cases hu : p.mainVar? with
    | none =>
      rw [hu] at h
      obtain rfl := Except.ok.inj h
      exact .of_isUnit hone (.inl (isUnit_toMv_of_mainVar? hu hp0))
    | some u =>
      cases hw : q.mainVar? with
      | none =>
        rw [hu, hw] at h
        obtain rfl := Except.ok.inj h
        exact .of_isUnit hone (.inr (isUnit_toMv_of_mainVar? hw hq0))
      | some w =>
        rw [hu, hw] at h
        simp only at h
        have hup := mem_vars_of_mainVar? hu
        have hwq := mem_vars_of_mainVar? hw
        have hv : max u w ∈ s := by
          rcases max_choice u w with h | h <;> rw [h]
          · exact hp hup
          · exact hq hwq
        have hgcd := ih (s := s.erase (max u w)) (by
          rw [Finset.card_erase_of_mem hv]
          have := Finset.card_pos.2 ⟨_, hv⟩
          omega)
        have hins : insert (max u w) (s.erase (max u w)) = s := Finset.insert_erase hv
        have herase : ∀ r : Poly, r.toMv.vars ⊆ s → max u w ∉ r.toMv.vars →
            r.toMv.vars ⊆ s.erase (max u w) := fun r hr hrv x hx =>
          Finset.mem_erase.2 ⟨fun he => hrv (he ▸ hx), hr hx⟩
        split_ifs at h with h₁ h₂
        · obtain ⟨c, hc, h⟩ := bind_eq_ok h
          have hpv := containsVar_eq_false_iff.1 (by simpa using h₁)
          have hcs := (contentBy_spec hgcd (hins.symm ▸ hq) hq0 hc).2.2.1
          exact isGcd_of_content hgcd hp0 hpv (hins.symm ▸ hq) hc
            (hgcd _ _ _ (herase p hp hpv) hcs h)
        · obtain ⟨c, hc, h⟩ := bind_eq_ok h
          have hqv := containsVar_eq_false_iff.1 (by simpa using h₂)
          have hcs := (contentBy_spec hgcd (hins.symm ▸ hp) hp0 hc).2.2.1
          exact (isGcd_of_content hgcd hq0 hqv (hins.symm ▸ hp) hc
            (hgcd _ _ _ hcs (herase q hq hqv) h).symm).symm
        · exact isGcd_gcdInVar hgcd (hins.symm ▸ hp) (hins.symm ▸ hq)
            (containsVar_iff.1 (by simpa using h₁)) (containsVar_iff.1 (by simpa using h₂)) h

theorem mem_foldl_insertVar_vars {p q : Poly} {v : ℕ} :
    v ∈ q.vars.foldl (fun vs v => insertVar v vs) p.vars ↔
      v ∈ p.toMv.vars ∪ q.toMv.vars := by
  rw [mem_foldl_insertVar, Finset.mem_union, ← mem_vars_iff, ← mem_vars_iff, or_comm]

theorem card_union_vars_le (p q : Poly) : (p.toMv.vars ∪ q.toMv.vars).card ≤ varCount p q := by
  have h : p.toMv.vars ∪ q.toMv.vars =
      (q.vars.foldl (fun vs v => insertVar v vs) p.vars).toFinset := by
    ext v
    rw [List.mem_toFinset, mem_foldl_insertVar_vars]
  rw [h]
  exact List.toFinset_card_le _

theorem isGcd_gcd {p q g : Poly} (h : p.gcd q = .ok g) : IsGcd g p q :=
  gcdIn_gcdUpTo (Nat.lt_succ_of_le (card_union_vars_le p q)) p q g Finset.subset_union_left
    Finset.subset_union_right h

theorem gcdIn_gcd (s : Finset ℕ) : GcdIn s gcd := fun _ _ _ _ _ h => isGcd_gcd h

end Poly

end Cylindrical

end
