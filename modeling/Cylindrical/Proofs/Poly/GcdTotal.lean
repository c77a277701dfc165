import Mathlib
import Cylindrical.Proofs.Poly.ExactDivision
import Cylindrical.Proofs.Poly.Gcd

/-!
# Greatest common divisors are always found

No division on the way fails: contents divide, and the divisors of pseudo-divisions are not zero.
Results have the order of an operand or that of constants, so that computations do not leave a class
of orders with graded lexicographic order in it.
-/

noncomputable section

open MvPolynomial

namespace Cylindrical

namespace Poly

variable {O : MonomialOrder → Prop} {s : Finset ℕ} {gcd : Poly → Poly → Algebra Poly} {v : ℕ}
  {p q : Poly}

/-- A polynomial in graded lexicographic order in some variables. -/
structure GradedIn (s : Finset ℕ) (p : Poly) : Prop where
  order : p.order = .grLex
  vars : p.toMv.vars ⊆ s

/-- A polynomial in some variables, with an order in a class. -/
structure OrderedIn (O : MonomialOrder → Prop) (s : Finset ℕ) (p : Poly) : Prop where
  order : O p.order
  vars : p.toMv.vars ⊆ s

theorem GradedIn.orderedIn (h : GradedIn s p) : OrderedIn (· = .grLex) s p := ⟨h.order, h.vars⟩

theorem OrderedIn.gradedIn (h : OrderedIn (· = .grLex) s p) : GradedIn s p := ⟨h.order, h.vars⟩

/-- The function yields greatest common divisors of all polynomials in some variables with orders
in a class. -/
structure TotalGcd (O : MonomialOrder → Prop) (s : Finset ℕ) (gcd : Poly → Poly → Algebra Poly) :
    Prop where
  default : O .grLex
  isGcd : GcdIn s gcd
  returns : ∀ {p q}, OrderedIn O s p → OrderedIn O s q → Returns (gcd p q) (O ·.order)

namespace TotalGcd

theorem returns_orderedIn (h : TotalGcd O s gcd) (hp : OrderedIn O s p) (hq : OrderedIn O s q) :
    Returns (gcd p q) (OrderedIn O s) :=
  ((h.returns hp hq).and fun _ hg => h.isGcd _ _ _ hp.vars hq.vars hg).mono fun _ hg =>
    ⟨hg.1, hg.2.vars_subset hp.vars hq.vars⟩

theorem returns_gcdListBy (h : TotalGcd O s gcd) {acc : Poly} {ps : List Poly}
    (hacc : OrderedIn O s acc) (hps : ∀ p ∈ ps, OrderedIn O s p) :
    Returns (gcdListBy gcd acc ps) (O ·.order) := by
  induction ps generalizing acc with
  | nil => exact .ok hacc.order
  | cons p ps ih =>
    rw [gcdListBy]
    refine (h.returns_orderedIn hacc (hps p (.head _))).bind fun g hg => ?_
    split_ifs
    · exact .ok hg.order
    · exact ih hg fun q hq => hps q (.tail _ hq)

theorem orderedIn_coeff (hp : OrderedIn O (insert v s) p) (k : ℕ) : OrderedIn O s (p.coeff v k) where
  order := hp.order
  vars w hw := by
    refine Finset.mem_of_mem_insert_of_ne (hp.vars (vars_coeff_subset v k p hw)) ?_
    rintro rfl
    exact notMem_vars_coeff w k p hw

theorem returns_contentBy (h : TotalGcd O s gcd) (hp : OrderedIn O (insert v s) p) :
    Returns (contentBy gcd v p) (O ·.order) := by
  rw [contentBy]
  split_ifs
  · refine h.returns_gcdListBy ⟨h.default, by simp⟩ fun q hq => ?_
    obtain ⟨k, -, rfl⟩ := List.mem_map.1 (List.mem_filter.1 hq).1
    exact orderedIn_coeff hp k
  · exact .ok (order_canonical_mem h.default hp.order)

/-- The content divides the polynomial. -/
theorem returns_cofactor (h : TotalGcd O s gcd) (hp : OrderedIn O (insert v s) p) (hp0 : p.toMv ≠ 0)
    {c : Poly} (hc : contentBy gcd v p = .ok c) :
    Returns (p.exactQuotient c) (OrderedIn O (insert v s)) := by
  have hdvd : c.toMv ∣ p.toMv :=
    dvd_of_forall_dvd_coeff ((dvd_contentBy_iff h.isGcd hp.vars hc _).1 dvd_rfl)
  obtain ⟨q, hq, ho⟩ := exists_exactQuotient_mem h.default hp.order (ne_zero_of_dvd_ne_zero hp0 hdvd) hdvd
  refine ⟨q, hq, ho, (vars_subset_of_dvd hp0 ?_).trans hp.vars⟩
  exact ⟨c.toMv, (toMv_of_exactQuotient hq).2⟩

theorem returns_primitivePartBy (h : TotalGcd O s gcd) (hp : OrderedIn O (insert v s) p) :
    Returns (primitivePartBy gcd v p) (OrderedIn O (insert v s)) := by
  rw [primitivePartBy]
  split_ifs with hz
  · exact .ok ⟨h.default, by simp⟩
  · have hp0 := isZero_eq_false_iff.1 (Bool.eq_false_iff.2 hz)
    obtain ⟨c, hc, -⟩ := h.returns_contentBy hp
    rw [hc]
    refine (h.returns_cofactor hp hp0 hc).bind fun q hq => .ok ⟨order_canonical_mem h.default hq.order, ?_⟩
    rw [vars_eq_of_associated (associated_canonical q)]
    exact hq.vars

end TotalGcd

section

variable (hO : O .grLex) {d : Poly}

include hO

theorem order_pseudoReduce_mem {lc r : Poly} {n steps : ℕ} (h : O r.order) :
    O (pseudoReduce v d lc n steps r).order := by
  induction steps generalizing r with
  | zero => exact h
  | succ steps ih =>
    rw [pseudoReduce]
    split_ifs
    · exact order_mul_mem hO h _
    · exact ih (order_mul_mem hO h _)

theorem returns_pseudoRemainder (h : O p.order) (hd : d.toMv ≠ 0) :
    Returns (p.pseudoRemainder v d) (O ·.order) := by
  rw [pseudoRemainder, isZero_eq_false_iff.2 hd]
  simp only [Bool.false_eq_true, if_false]
  split_ifs
  · exact .ok h
  · exact .ok (order_pseudoReduce_mem hO h)

end

namespace TotalGcd

theorem returns_remainderSequence (h : TotalGcd O s gcd) {steps : ℕ} {f g : Poly}
    (hf : OrderedIn O (insert v s) f) (hg : OrderedIn O (insert v s) g) (hgv : v ∈ g.toMv.vars) :
    Returns (remainderSequence gcd v steps f g) (O ·.order) := by
  induction steps generalizing f g with
  | zero => exact .ok hf.order
  | succ steps ih =>
    have hg0 : g.toMv ≠ 0 := by
      rintro h0
      simp [h0] at hgv
    have hdeg : 0 < g.degreeOf v :=
      Nat.pos_of_ne_zero fun h0 => degreeOf_eq_zero_iff.1 h0 hgv
    rw [remainderSequence, isZero_eq_false_iff.2 hg0]
    simp only [Bool.false_eq_true, if_false]
    have hrem : Returns (f.pseudoRemainder v g) (OrderedIn O (insert v s)) :=
      ((returns_pseudoRemainder h.default hf.order hg0).and fun r hr =>
        (pseudoRemainder_spec hdeg hr).2.2.trans (Finset.union_subset hf.vars hg.vars)).mono
        fun r hr => ⟨hr.1, hr.2⟩
    refine hrem.bind fun r hr => ?_
    split_ifs with hz hv
    · exact .ok hg.order
    · exact .ok h.default
    · have hr0 := isZero_eq_false_iff.1 (Bool.eq_false_iff.2 hz)
      obtain ⟨q, hq, hqs⟩ := h.returns_primitivePartBy hr
      obtain ⟨-, c, -, hcv, hc⟩ := primitivePartBy_spec h.isGcd hr.vars hr0 hq
      rw [hq]
      refine ih hg hqs (mem_vars_of_mul (Q := c) ?_ hcv)
      rw [mul_comm, ← hc]
      exact containsVar_iff.1 (by simpa using hv)

theorem returns_gcdInVar (h : TotalGcd O s gcd) (hp : OrderedIn O (insert v s) p)
    (hq : OrderedIn O (insert v s) q) (hpv : v ∈ p.toMv.vars) (hqv : v ∈ q.toMv.vars) :
    Returns (gcdInVar gcd v p q) (O ·.order) := by
  have hp0 : p.toMv ≠ 0 := by
    rintro h0
    simp [h0] at hpv
  have hq0 : q.toMv ≠ 0 := by
    rintro h0
    simp [h0] at hqv
  obtain ⟨cp, hcp, hcpo⟩ := h.returns_contentBy hp
  obtain ⟨cq, hcq, hcqo⟩ := h.returns_contentBy hq
  obtain ⟨pp, hpp, hpps⟩ := h.returns_cofactor hp hp0 hcp
  obtain ⟨pq, hpq, hpqs⟩ := h.returns_cofactor hq hq0 hcq
  obtain ⟨-, hcpv, hcps, -⟩ := contentBy_spec h.isGcd hp.vars hp0 hcp
  obtain ⟨-, hcqv, hcqs, -⟩ := contentBy_spec h.isGcd hq.vars hq0 hcq
  have hppv : v ∈ pp.toMv.vars := mem_vars_of_mul ((toMv_of_exactQuotient hpp).2 ▸ hpv) hcpv
  have hpqv : v ∈ pq.toMv.vars := mem_vars_of_mul ((toMv_of_exactQuotient hpq).2 ▸ hqv) hcqv
  obtain ⟨c, hc, hco⟩ := h.returns ⟨hcpo, hcps⟩ ⟨hcqo, hcqs⟩
  have hlast : ∀ {f g : Poly}, OrderedIn O (insert v s) f → OrderedIn O (insert v s) g →
      v ∈ g.toMv.vars → PrimitiveIn v g.toMv →
      Returns (do
        let h ← remainderSequence gcd v (g.degreeOf v + 1) f g
        return (c * (← primitivePartBy gcd v h)).canonical : Algebra Poly)
        (O ·.order) := fun {f g} hf hg hgv hgp => by
    obtain ⟨k, hk, hko⟩ := h.returns_remainderSequence hf hg hgv
    have hks := (dvd_remainderSequence_iff h.isGcd hf.vars hg.vars hgp hgv (Nat.lt_succ_self _)
      hk).2.1
    rw [hk]
    exact (h.returns_primitivePartBy ⟨hko, hks⟩).bind fun w _ =>
      .ok (order_canonical_mem h.default (order_mul_mem h.default hco w))
  have hppp := (contentBy_spec h.isGcd hp.vars hp0 hcp).2.2.2 _ (toMv_of_exactQuotient hpp).2
  have hpqp := (contentBy_spec h.isGcd hq.vars hq0 hcq).2.2.2 _ (toMv_of_exactQuotient hpq).2
  rw [gcdInVar, hcp, hcq]
  change Returns (p.exactQuotient cp >>= _) _
  rw [hpp]
  change Returns (q.exactQuotient cq >>= _) _
  rw [hpq]
  change Returns (gcd cp cq >>= _) _
  rw [hc]
  simp only
  split_ifs
  · exact hlast hpps hpqs hpqv hpqp
  · exact hlast hpqs hpps hppv hppp

end TotalGcd

theorem totalGcd_gcdUpTo (hO : O .grLex) {n : ℕ} (hs : s.card < n) : TotalGcd O s (gcdUpTo n) := by
  induction n generalizing s with
  | zero => omega
  | succ n ih =>
    refine ⟨hO, gcdIn_gcdUpTo hs, fun {p q} hp hq => ?_⟩
    rw [gcdUpTo]
    split_ifs with hpz hqz
    · exact .ok (order_canonical_mem hO hq.order)
    · exact .ok (order_canonical_mem hO hp.order)
    · split
      · rename_i u w hu hw
        have hup := mem_vars_of_mainVar? hu
        have hwq := mem_vars_of_mainVar? hw
        have hv : max u w ∈ s := by
          rcases max_choice u w with h | h <;> rw [h]
          · exact hp.vars hup
          · exact hq.vars hwq
        have hgcd := ih (s := s.erase (max u w)) (by
          rw [Finset.card_erase_of_mem hv]
          have := Finset.card_pos.2 ⟨_, hv⟩
          omega)
        have hins : ∀ {r : Poly}, OrderedIn O s r →
            OrderedIn O (insert (max u w) (s.erase (max u w))) r := fun hr =>
          ⟨hr.order, by rw [Finset.insert_erase hv]; exact hr.vars⟩
        have herase : ∀ {r : Poly}, OrderedIn O s r → r.containsVar (max u w) = false →
            OrderedIn O (s.erase (max u w)) r := fun hr hrv =>
          ⟨hr.order, fun x hx => Finset.mem_erase.2
            ⟨fun he => containsVar_eq_false_iff.1 hrv (he ▸ hx), hr.vars hx⟩⟩
        have hcontent : ∀ {r : Poly}, OrderedIn O s r → r.toMv ≠ 0 →
            Returns (contentBy (gcdUpTo n) (max u w) r) (OrderedIn O (s.erase (max u w))) :=
          fun hr hr0 => ((hgcd.returns_contentBy (hins hr)).and fun c hc =>
            (contentBy_spec hgcd.isGcd (hins hr).vars hr0 hc).2.2.1).mono fun c hc => ⟨hc.1, hc.2⟩
        have hp0 := isZero_eq_false_iff.1 (Bool.eq_false_iff.2 hpz)
        have hq0 := isZero_eq_false_iff.1 (Bool.eq_false_iff.2 hqz)
        simp only
        split_ifs with h₁ h₂
        · exact (hcontent hq hq0).bind fun c hc =>
            hgcd.returns (herase hp (by simpa using h₁)) hc
        · exact (hcontent hp hp0).bind fun c hc =>
            hgcd.returns hc (herase hq (by simpa using h₂))
        · exact hgcd.returns_gcdInVar (hins hp) (hins hq)
            (containsVar_iff.1 (by simpa using h₁)) (containsVar_iff.1 (by simpa using h₂))
      · exact .ok hO

/-- Any two polynomials have a greatest common divisor. -/
theorem returns_gcd_mem (hO : O .grLex) (hp : O p.order) (hq : O q.order) :
    Returns (p.gcd q) fun g => O g.order ∧ IsGcd g p q :=
  ((totalGcd_gcdUpTo hO (Nat.lt_succ_of_le (card_union_vars_le p q))).returns
    ⟨hp, Finset.subset_union_left⟩ ⟨hq, Finset.subset_union_right⟩).and fun _ => isGcd_gcd

theorem returns_gcd (hp : p.order = .grLex) (hq : q.order = .grLex) :
    Returns (p.gcd q) fun g => g.order = .grLex ∧ IsGcd g p q :=
  returns_gcd_mem (O := (· = .grLex)) rfl hp hq

/-- Whatever the orders of two nonzero polynomials, the recursion ends at constants. -/
theorem order_gcdUpTo {n : ℕ} {g : Poly} (hs : s.card < n) (hp : p.toMv.vars ⊆ s)
    (hq : q.toMv.vars ⊆ s) (hp0 : p.toMv ≠ 0) (hq0 : q.toMv ≠ 0) (h : gcdUpTo n p q = .ok g) :
    g.order = .grLex := by
  induction n generalizing s p q g with
  | zero => omega
  | succ n ih =>
    rw [gcdUpTo, isZero_eq_false_iff.2 hp0, isZero_eq_false_iff.2 hq0] at h
    simp only [Bool.false_eq_true, if_false] at h
    split at h
    · rename_i u w hu hw
      have hv : max u w ∈ s := by
        rcases max_choice u w with h | h <;> rw [h]
        · exact hp (mem_vars_of_mainVar? hu)
        · exact hq (mem_vars_of_mainVar? hw)
      have hcard : (s.erase (max u w)).card < n := by
        rw [Finset.card_erase_of_mem hv]
        have := Finset.card_pos.2 ⟨_, hv⟩
        omega
      have herase : ∀ {r : Poly}, r.toMv.vars ⊆ s → r.containsVar (max u w) = false →
          r.toMv.vars ⊆ s.erase (max u w) := fun hr hrv x hx =>
        Finset.mem_erase.2 ⟨fun he => containsVar_eq_false_iff.1 hrv (he ▸ hx), hr hx⟩
      have hcontent : ∀ {r c : Poly}, r.toMv.vars ⊆ s → r.toMv ≠ 0 →
          contentBy (gcdUpTo n) (max u w) r = .ok c →
          c.toMv ≠ 0 ∧ c.toMv.vars ⊆ s.erase (max u w) := fun hr hr0 hc => by
        obtain ⟨hc0, -, hcs, -⟩ := contentBy_spec (gcdIn_gcdUpTo hcard)
          (by rwa [Finset.insert_erase hv]) hr0 hc
        exact ⟨hc0, hcs⟩
      split_ifs at h with h₁ h₂
      · obtain ⟨c, hc, h⟩ := bind_eq_ok h
        obtain ⟨hc0, hcs⟩ := hcontent hq hq0 hc
        exact ih hcard (herase hp (by simpa using h₁)) hcs hp0 hc0 h
      · obtain ⟨c, hc, h⟩ := bind_eq_ok h
        obtain ⟨hc0, hcs⟩ := hcontent hp hp0 hc
        exact ih hcard hcs (herase hq (by simpa using h₂)) hc0 hq0 h
      · obtain ⟨cp, hcp, h⟩ := bind_eq_ok h
        obtain ⟨cq, hcq, h⟩ := bind_eq_ok h
        obtain ⟨pp, -, h⟩ := bind_eq_ok h
        obtain ⟨pq, -, h⟩ := bind_eq_ok h
        obtain ⟨c, hc, h⟩ := bind_eq_ok h
        obtain ⟨hcp0, hcps⟩ := hcontent hp hp0 hcp
        obtain ⟨hcq0, hcqs⟩ := hcontent hq hq0 hcq
        have hco := ih hcard hcps hcqs hcp0 hcq0 hc
        split_ifs at h
        all_goals
          obtain ⟨k, -, h⟩ := bind_eq_ok h
          obtain ⟨w, -, h⟩ := bind_eq_ok h
          obtain rfl := Except.ok.inj h
          exact order_canonical (order_mul hco w)
    · obtain rfl := Except.ok.inj h
      rfl

/-- Polynomials in any orders have a greatest common divisor, in the order of constants unless one
of them is zero. -/
theorem returns_gcd_of_ne_zero (hp : p.toMv ≠ 0) (hq : q.toMv ≠ 0) :
    Returns (p.gcd q) fun g => g.order = .grLex ∧ IsGcd g p q := by
  refine (returns_gcd_mem (O := fun _ => True) trivial trivial trivial).and (fun g hg => ?_)
    |>.mono fun g hg => ⟨hg.2, hg.1.2⟩
  exact order_gcdUpTo (Nat.lt_succ_of_le (card_union_vars_le p q)) Finset.subset_union_left
    Finset.subset_union_right hp hq hg

end Poly

end Cylindrical

end
