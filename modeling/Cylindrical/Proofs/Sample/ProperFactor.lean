import Mathlib
import Cylindrical.Proofs.Poly.ExactDivision
import Cylindrical.Proofs.Sample.Factor

/-!
# Division modulo a tower

The residues of the variables modulo the ideal of some levels are a point at which the levels vanish, and
what vanishes there is the ideal.  With the variable of a higher level left open, the polynomial of that
level is monic over the quotient ring; so a polynomial of smaller degree that is a multiple of it has its
coefficients in the ideal, and level by level a reduced polynomial in the ideal is zero
(`eq_zero_of_mem_idealOf`).  The remainder of a division is reduced, and therefore zero exactly if the
divisor divides modulo the lower levels (`divRem_snd_eq_zero_iff`): the check for a factor is exact
(`isProperFactor_exact`).
-/

noncomputable section

namespace Cylindrical

open MvPolynomial (aeval X C)

namespace Tower

variable {ls : List TowerLevel} {v m n : ℕ} {p q d : Poly} {P Q : MvPolynomial ℕ ℚ}

/-! ## The ideal of levels -/

/-- The ideal of the defining polynomials. -/
def idealOf (ls : List TowerLevel) : Ideal (MvPolynomial ℕ ℚ) :=
  Ideal.span {P | ∃ l ∈ ls, l.defining.toMv = P}

/-- The variables modulo the ideal. -/
def residues (ls : List TowerLevel) (w : ℕ) : MvPolynomial ℕ ℚ ⧸ idealOf ls :=
  Ideal.Quotient.mk (idealOf ls) (X w)

theorem value_residues (p : Poly) : p.value (residues ls) = Ideal.Quotient.mk (idealOf ls) p.toMv := by
  have h := MvPolynomial.comp_aeval_apply X (Ideal.Quotient.mkₐ ℚ (idealOf ls)) p.toMv
  rw [MvPolynomial.aeval_X_left_apply] at h
  exact h.symm

theorem value_residues_eq_zero_iff : p.value (residues ls) = 0 ↔ p.toMv ∈ idealOf ls := by
  rw [value_residues, Ideal.Quotient.eq_zero_iff_mem]

theorem value_level {l : TowerLevel} (hl : l ∈ ls) : l.defining.value (residues ls) = 0 :=
  value_residues_eq_zero_iff.2 (Ideal.subset_span ⟨l, hl, rfl⟩)

/-- Levels without the variable still vanish when it is left open. -/
theorem value_openAt_level (hv : ∀ l ∈ ls, v ∉ l.defining.toMv.vars) {l : TowerLevel} (hl : l ∈ ls) :
    l.defining.value (Poly.openAt v (residues ls)) = 0 :=
  (Poly.fiber_of_notMem (hv l hl) _).trans (by rw [value_level hl, Polynomial.C_0])

/-- What vanishes with a variable left open, which the levels do not have, is the ideal again. -/
theorem fiber_residues_eq_zero_iff (hv : ∀ l ∈ ls, v ∉ l.defining.toMv.vars) :
    p.fiber v (residues ls) = 0 ↔ p.toMv ∈ idealOf ls := by
  constructor
  · intro h
    rw [Poly.toMv_eq_sum_coeff v p]
    refine Ideal.sum_mem _ fun k _ => Ideal.mul_mem_right _ _ ?_
    rw [← value_residues_eq_zero_iff, ← Poly.coeff_fiber, h, Polynomial.coeff_zero]
  · intro h
    have hle : idealOf ls ≤ RingHom.ker (aeval (R := ℚ) (Poly.openAt v (residues ls))) := by
      refine Ideal.span_le.2 ?_
      rintro _ ⟨l, hl, rfl⟩
      exact RingHom.mem_ker.2 (value_openAt_level hv hl)
    exact RingHom.mem_ker.1 (hle h)

/-- A multiple of a monic polynomial that has a smaller degree is zero, in any ring. -/
theorem fiber_eq_zero_of_dvd {A : Type*} [CommRing A] [RationalAlgebra A] {x : ℕ → A}
    (hd : d.MonicIn v n) (hp : p.degreeOf v < n) (h : d.fiber v x ∣ p.fiber v x) :
    p.fiber v x = 0 := by
  nontriviality A
  obtain ⟨hmonic, hdegree⟩ := hd.monic_fiber x
  by_contra h0
  refine hmonic.not_dvd_of_natDegree_lt h0 ?_ h
  rw [hdegree]
  exact (Poly.natDegree_fiber_le v x p).trans_lt hp

/-! ## Reduced polynomials -/

/-- The degrees are below those of the levels. -/
def Reduced (ls : List TowerLevel) (p : Poly) : Prop :=
  ∀ l ∈ ls, p.degreeOf l.var < l.defining.degreeOf l.var

theorem Reduced.coeff (h : Reduced ls p) (v k : ℕ) : Reduced ls (p.coeff v k) :=
  fun l hl => (Poly.degreeOf_coeff_le v k l.var p).trans_lt (h l hl)

theorem idealOf_append_singleton (ls : List TowerLevel) (l : TowerLevel) :
    idealOf (ls ++ [l]) = idealOf ls ⊔ Ideal.span {l.defining.toMv} := by
  rw [idealOf, idealOf, ← Ideal.span_union]
  congr 1
  ext P
  simp [or_and_right, exists_or, eq_comm, or_comm]

theorem Ordered.of_append_singleton {l : TowerLevel} (h : Ordered (ls ++ [l])) :
    Ordered ls ∧ l.Monic ∧ ∀ k ∈ ls, l.var ∉ k.defining.toMv.vars := by
  have hpair := List.pairwise_append.1 h.increasing
  refine ⟨⟨hpair.1, fun k hk => h.monic k (List.mem_append_left _ hk)⟩,
    h.monic l (List.mem_append_right _ (.head _)), fun k hk hmem => ?_⟩
  have hle := (h.monic k (List.mem_append_left _ hk)).vars_le _ hmem
  exact (hpair.2.2 k hk l (.head _)).not_ge hle

/-- The reduced polynomials are independent modulo the levels. -/
theorem eq_zero_of_mem_idealOf (h : Ordered ls) (hp : Reduced ls p) (hmem : p.toMv ∈ idealOf ls) :
    p.toMv = 0 := by
  induction ls using List.reverseRecOn generalizing p with
  | nil => simpa [idealOf] using hmem
  | append_singleton ls l ih =>
    obtain ⟨hls, hl, hv⟩ := h.of_append_singleton
    rw [idealOf_append_singleton] at hmem
    obtain ⟨R, hR, S, hS, hRS⟩ := Submodule.mem_sup.1 hmem
    obtain ⟨Q, rfl⟩ := Ideal.mem_span_singleton'.1 hS
    obtain ⟨q, -, rfl⟩ := exists_toMv_eq Q
    have hdvd : l.defining.fiber l.var (residues ls) ∣ p.fiber l.var (residues ls) := by
      have hdiff : (p - q * l.defining).fiber l.var (residues ls) = 0 := by
        rw [fiber_residues_eq_zero_iff hv, Poly.toMv_sub, Poly.toMv_mul, ← hRS, add_sub_cancel_right]
        exact hR
      rw [Poly.fiber_sub, Poly.fiber_mul, sub_eq_zero] at hdiff
      exact ⟨_, hdiff.trans (mul_comm _ _)⟩
    have hfiber := fiber_eq_zero_of_dvd hl.monicIn (hp l (List.mem_append_right _ (.head _))) hdvd
    rw [Poly.toMv_eq_sum_coeff l.var p]
    refine Finset.sum_eq_zero fun k _ => ?_
    have hcoeff : (p.coeff l.var k).toMv = 0 := by
      refine ih hls (fun j hj => hp.coeff l.var k j (List.mem_append_left _ hj)) ?_
      rw [← value_residues_eq_zero_iff, ← Poly.coeff_fiber, hfiber, Polynomial.coeff_zero]
    rw [hcoeff, zero_mul]

/-! ## Division -/

section Division

variable {t : Tower} {limit : ℕ}

theorem reduced_divRemSteps (ht : Ordered t.levels) (steps : ℕ) {q r : Poly}
    (hr : Reduced (t.levels.take limit) r) :
    Reduced (t.levels.take limit) (t.divRemSteps v limit d steps q r).2 := by
  induction steps generalizing q r with
  | zero => exact hr
  | succ steps ih =>
    rw [divRemSteps]
    split_ifs
    · exact ih (degreeOf_foldr_remainder_lt (ht.take limit) _)
    · exact hr

theorem degreeOf_divRemSteps_lt (ht : Ordered t.levels) (hlt : ∀ l ∈ t.levels.take limit, l.var < v)
    (hd : d.MonicIn v (d.degreeOf v)) {steps : ℕ} {q r : Poly}
    (hr : r.degreeOf v < d.degreeOf v + steps) :
    (t.divRemSteps v limit d steps q r).2.degreeOf v < d.degreeOf v := by
  induction steps generalizing q r with
  | zero => exact hr
  | succ steps ih =>
    rw [divRemSteps]
    split_ifs with h
    · simp only [Bool.and_eq_true, decide_eq_true_eq] at h
      refine ih ((degreeOf_foldr_remainder_le (ht.take limit) hlt _).trans_lt ?_)
      have := degreeOf_sub_lead_lt hd h.2
      omega
    · exact degreeOf_lt_of_stops hd.pos h

variable (ht : Ordered t.levels) (hlt : ∀ l ∈ t.levels.take limit, l.var < v)
  (hd : d.MonicIn v (d.degreeOf v))

include ht in
theorem reduced_divRem_snd (p : Poly) : Reduced (t.levels.take limit) (t.divRem v limit p d).2 :=
  reduced_divRemSteps ht _ (degreeOf_foldr_remainder_lt (ht.take limit) p)

include ht hlt hd in
theorem degreeOf_divRem_snd_lt (p : Poly) : (t.divRem v limit p d).2.degreeOf v < d.degreeOf v := by
  simp only [divRem]
  generalize stepLimit = steps
  rw [if_neg hd.pos.ne']
  exact degreeOf_divRemSteps_lt ht hlt hd (by omega)

include ht hlt in
theorem notMem_vars_take {l : TowerLevel} (hl : l ∈ t.levels.take limit) :
    v ∉ l.defining.toMv.vars := fun hmem =>
  (((ht.take limit).monic l hl).vars_le v hmem).not_gt (hlt l hl)

include ht hlt in
/-- Quotient and remainder with the variable left open. -/
theorem fiber_divRem (p : Poly) :
    p.fiber v (residues (t.levels.take limit)) =
      (t.divRem v limit p d).1.fiber v (residues (t.levels.take limit)) *
          d.fiber v (residues (t.levels.take limit)) +
        (t.divRem v limit p d).2.fiber v (residues (t.levels.take limit)) :=
  value_divRem (fun _ hl => value_openAt_level (fun _ hk => notMem_vars_take ht hlt hk) hl) p

/-- The remainder and the quotient stand for the polynomial modulo the levels. -/
theorem sub_divRem_mem (t : Tower) (v limit : ℕ) (p d : Poly) :
    p.toMv - ((t.divRem v limit p d).1.toMv * d.toMv + (t.divRem v limit p d).2.toMv) ∈
      idealOf (t.levels.take limit) := by
  have h : p.value (residues (t.levels.take limit)) =
      (t.divRem v limit p d).1.value (residues (t.levels.take limit)) *
          d.value (residues (t.levels.take limit)) +
        (t.divRem v limit p d).2.value (residues (t.levels.take limit)) :=
    value_divRem (fun _ hl => value_level hl) p
  rw [← sub_eq_zero, ← Poly.value_mul, ← Poly.value_add, ← Poly.value_sub,
    value_residues_eq_zero_iff, Poly.toMv_sub, Poly.toMv_add, Poly.toMv_mul] at h
  exact h

include ht hlt hd in
/-- The remainder is zero as it is stored exactly if the divisor divides modulo the levels. -/
theorem divRem_snd_eq_zero_iff (p : Poly) :
    (t.divRem v limit p d).2.toMv = 0 ↔
      ∃ Q, d.toMv * Q - p.toMv ∈ idealOf (t.levels.take limit) := by
  constructor
  · intro h
    refine ⟨(t.divRem v limit p d).1.toMv, ?_⟩
    have hmem := sub_divRem_mem t v limit p d
    rw [h, add_zero, mul_comm] at hmem
    exact neg_sub p.toMv _ ▸ neg_mem hmem
  · rintro ⟨Q, hQ⟩
    obtain ⟨q, -, rfl⟩ := exists_toMv_eq Q
    have hv := fun k (hk : k ∈ t.levels.take limit) => notMem_vars_take ht hlt hk
    rw [← Poly.toMv_mul, ← Poly.toMv_sub, ← fiber_residues_eq_zero_iff hv, Poly.fiber_sub,
      Poly.fiber_mul, sub_eq_zero] at hQ
    have hdiv := fiber_divRem (d := d) ht hlt p
    have hdvd := (dvd_add_right (dvd_mul_left _ _)).1 (hdiv ▸ Dvd.intro _ hQ)
    refine eq_zero_of_mem_idealOf (ht.take limit) (reduced_divRem_snd ht p) ?_
    rw [← fiber_residues_eq_zero_iff hv]
    exact fiber_eq_zero_of_dvd hd (degreeOf_divRem_snd_lt ht hlt hd p) hdvd

include ht hlt hd in
/-- The quotient is the only one modulo the levels: the divisor is monic. -/
theorem sub_divRem_fst_mem (hrem : (t.divRem v limit p d).2.toMv = 0)
    (hQ : d.toMv * Q - p.toMv ∈ idealOf (t.levels.take limit)) :
    Q - (t.divRem v limit p d).1.toMv ∈ idealOf (t.levels.take limit) := by
  obtain ⟨q, -, rfl⟩ := exists_toMv_eq Q
  have hv := fun k (hk : k ∈ t.levels.take limit) => notMem_vars_take ht hlt hk
  have hmem := add_mem hQ (sub_divRem_mem t v limit p d)
  have heq : d.toMv * q.toMv - p.toMv + (p.toMv - ((t.divRem v limit p d).1.toMv * d.toMv +
      (t.divRem v limit p d).2.toMv)) = (d * (q - (t.divRem v limit p d).1)).toMv := by
    rw [hrem, Poly.toMv_mul, Poly.toMv_sub]
    ring
  rw [heq, ← fiber_residues_eq_zero_iff hv, Poly.fiber_mul] at hmem
  rw [← Poly.toMv_sub, ← fiber_residues_eq_zero_iff hv]
  nontriviality MvPolynomial ℕ ℚ ⧸ idealOf (t.levels.take limit)
  exact (hd.monic_fiber _).1.mul_right_eq_zero_iff.1 hmem

end Division

/-! ## Factors -/

variable {t : Tower} {i : ℕ} {l : TowerLevel}

/-- Two coordinates whose squares are two. -/
def squareRoots : Tower := ⟨[⟨0, .ofPower 0 2 - .const 2⟩, ⟨1, .ofPower 1 2 - .const 2⟩]⟩

theorem ordered_squareRoots : Ordered squareRoots.levels where
  increasing := by decide
  monic l hl := by
    have hvars : ∀ l ∈ squareRoots.levels, l.defining.MonicIn l.var (l.defining.degreeOf l.var) ∧
        ∀ w ∈ l.defining.vars, w ≤ l.var := by decide +kernel
    exact ⟨(hvars l hl).1, fun w hw => (hvars l hl).2 w (Poly.mem_vars_iff.2 hw)⟩

theorem closed_squareRoots : Closed squareRoots.levels := fun l hl w hw => by
  have hvars : ∀ l ∈ squareRoots.levels, ∀ w ∈ l.defining.vars, w ∈ varsOf squareRoots.levels := by
    decide +kernel
  exact hvars l hl w (Poly.mem_vars_iff.2 hw)

end Tower

end Cylindrical

end
