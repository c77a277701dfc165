import Mathlib
import Cylindrical.Monomial.Basic

/-!
# Exponents of power products

A power product is read as the finitely supported function of its exponents
(`Monomial.toFinsupp`), which determines it (`Monomial.toFinsupp_injective`).  Products, quotients,
removal of a variable and renaming become sums, differences, erasure and images of such functions.
-/

noncomputable section

namespace Cylindrical

/-! ## Lists of powers -/

/-- The exponents of a list of powers; those of a repeated variable add up. -/
def exponentsOf (ps : List (ℕ × ℕ)) : ℕ →₀ ℕ := (ps.map fun p => Finsupp.single p.1 p.2).sum

@[simp] theorem exponentsOf_nil : exponentsOf [] = 0 := rfl

@[simp] theorem exponentsOf_cons (p : ℕ × ℕ) (ps : List (ℕ × ℕ)) :
    exponentsOf (p :: ps) = Finsupp.single p.1 p.2 + exponentsOf ps := by
  simp [exponentsOf]

theorem exponentsOf_insertPower (v e : ℕ) (ps : List (ℕ × ℕ)) :
    exponentsOf (insertPower v e ps) = Finsupp.single v e + exponentsOf ps := by
  induction ps with
  | nil => simp [insertPower]
  | cons p ps ih =>
    rw [insertPower]
    split_ifs with h₁ h₂
    · simp
    · subst h₂
      rw [exponentsOf_cons, exponentsOf_cons, ← add_assoc, ← Finsupp.single_add]
    · rw [exponentsOf_cons, exponentsOf_cons, ih, add_left_comm]

theorem exponentsOf_mergePowers_add (ps qs : List (ℕ × ℕ)) :
    exponentsOf (mergePowers (· + ·) ps qs) = exponentsOf ps + exponentsOf qs := by
  fun_induction mergePowers (· + ·) ps qs with
  | case1 => simp
  | case2 => simp
  | case3 p ps q qs _ ih => rw [exponentsOf_cons, ih, exponentsOf_cons p ps, add_assoc]
  | case4 p ps q qs _ _ ih => rw [exponentsOf_cons, ih, exponentsOf_cons q qs, add_left_comm]
  | case5 p ps q qs h₁ h₂ ih =>
    obtain ⟨v, e⟩ := p
    obtain ⟨w, f⟩ := q
    obtain rfl : v = w := by simp only at h₁ h₂; omega
    rw [exponentsOf_cons, ih, exponentsOf_cons, exponentsOf_cons, Finsupp.single_add]
    exact add_add_add_comm _ _ _ _

theorem exponentsOf_subtractPowers {ps qs rs : List (ℕ × ℕ)}
    (h : subtractPowers ps qs = some rs) : exponentsOf ps = exponentsOf rs + exponentsOf qs := by
  fun_induction subtractPowers ps qs generalizing rs with
  | case1 => simp_all
  | case2 => simp at h
  | case3 p ps q qs _ ih =>
    obtain ⟨ts, hts, rfl⟩ := Option.map_eq_some_iff.1 h
    rw [exponentsOf_cons, ih hts, exponentsOf_cons p ts, add_assoc]
  | case4 => simp at h
  | case5 => simp at h
  | case6 p ps q qs h₁ h₂ _ h₃ ih =>
    obtain ⟨v, e⟩ := p
    obtain ⟨w, f⟩ := q
    obtain rfl : v = w := by simp only at h₁ h₂; omega
    obtain rfl : e = f := h₃
    rw [exponentsOf_cons, exponentsOf_cons, ih h, add_left_comm]
  | case7 p ps q qs h₁ h₂ h₃ _ ih =>
    obtain ⟨ts, hts, rfl⟩ := Option.map_eq_some_iff.1 h
    obtain ⟨v, e⟩ := p
    obtain ⟨w, f⟩ := q
    obtain rfl : v = w := by simp only at h₁ h₂; omega
    have he : e = (e - f) + f := by simp only at h₃; omega
    rw [exponentsOf_cons, exponentsOf_cons, exponentsOf_cons, ih hts, he, Finsupp.single_add]
    simp only [Nat.add_sub_cancel]
    exact add_add_add_comm _ _ _ _

theorem exponentsOf_apply {ps : List (ℕ × ℕ)} (h : PowerList ps) (v : ℕ) :
    exponentsOf ps v = exponentIn v ps := by
  induction ps with
  | nil => rfl
  | cons p ps ih =>
    rw [exponentsOf_cons, Finsupp.add_apply, ih h.tail, Finsupp.single_apply, exponentIn]
    split_ifs with hp
    · rw [exponentIn_of_lt fun q hq => hp ▸ h.lt_head q hq, add_zero]
    · rw [zero_add]

theorem snd_le_exponentsOf {p : ℕ × ℕ} {ps : List (ℕ × ℕ)} (h : p ∈ ps) :
    p.2 ≤ exponentsOf ps p.1 := by
  induction ps with
  | nil => cases h
  | cons q qs ih =>
    rw [exponentsOf_cons, Finsupp.add_apply]
    rcases List.mem_cons.1 h with rfl | h
    · simp
    · exact (ih h).trans (Nat.le_add_left _ _)

theorem exponentsOf_filter_ne (v : ℕ) (ps : List (ℕ × ℕ)) :
    exponentsOf (ps.filter (·.1 != v)) = (exponentsOf ps).erase v := by
  induction ps with
  | nil => simp
  | cons p ps ih =>
    rw [exponentsOf_cons, Finsupp.erase_add, List.filter_cons]
    split_ifs with hp
    · rw [exponentsOf_cons, ih, Finsupp.erase_single_ne (by simpa using Ne.symm (by simpa using hp))]
    · obtain rfl : p.1 = v := by simpa using hp
      rw [Finsupp.erase_single, zero_add, ih]

theorem exponentsOf_map (f : ℕ → ℕ) (ps : List (ℕ × ℕ)) :
    exponentsOf (ps.map fun p => (f p.1, p.2)) = (exponentsOf ps).mapDomain f := by
  induction ps with
  | nil => simp
  | cons p ps ih => simp [ih, Finsupp.mapDomain_add, Finsupp.mapDomain_single]

theorem exponentIn_mergePowers_max {ps qs : List (ℕ × ℕ)} (hp : PowerList ps) (hq : PowerList qs)
    (v : ℕ) : exponentIn v (mergePowers max ps qs) = max (exponentIn v ps) (exponentIn v qs) := by
  have hzero : ∀ {p : ℕ × ℕ} {ps : List (ℕ × ℕ)}, PowerList (p :: ps) → p.1 = v →
      exponentIn v ps = 0 := fun hp hv =>
    exponentIn_of_lt fun r hr => hv ▸ hp.lt_head r hr
  fun_induction mergePowers max ps qs with
  | case1 qs => rw [exponentIn, Nat.zero_max]
  | case2 ps => rw [exponentIn, Nat.max_zero]
  | case3 p ps q qs hlt ih =>
    rw [exponentIn, exponentIn, ih hp.tail hq]
    by_cases hv : p.1 = v
    · have hq0 : exponentIn v (q :: qs) = 0 := exponentIn_of_lt fun r hr => by
        rcases List.mem_cons.1 hr with rfl | hr
        · omega
        · exact (hq.lt_head r hr).trans (hv ▸ hlt)
      rw [if_pos hv, if_pos hv, hq0, Nat.max_zero]
    · rw [if_neg hv, if_neg hv]
  | case4 p ps q qs _ hlt ih =>
    rw [exponentIn, ih hp hq.tail, exponentIn.eq_2 v q]
    by_cases hv : q.1 = v
    · have hp0 : exponentIn v (p :: ps) = 0 := exponentIn_of_lt fun r hr => by
        rcases List.mem_cons.1 hr with rfl | hr
        · omega
        · exact (hp.lt_head r hr).trans (hv ▸ hlt)
      rw [if_pos hv, if_pos hv, hp0, Nat.zero_max]
    · rw [if_neg hv, if_neg hv]
  | case5 p ps q qs h₁ h₂ ih =>
    have he : p.1 = q.1 := by omega
    rw [exponentIn, exponentIn, exponentIn, ih hp.tail hq.tail]
    by_cases hv : p.1 = v
    · rw [if_pos hv, if_pos hv, if_pos (he ▸ hv)]
    · rw [if_neg hv, if_neg hv, if_neg (he ▸ hv)]

/-! ## Power products -/

namespace Monomial

/-- The exponents of a power product. -/
def toFinsupp (m : Monomial) : ℕ →₀ ℕ := exponentsOf m.powers

@[simp] theorem toFinsupp_apply (m : Monomial) (v : ℕ) : m.toFinsupp v = m.degreeOf v :=
  exponentsOf_apply m.valid v

theorem toFinsupp_injective : Function.Injective toFinsupp := by
  intro a b h
  apply ext
  obtain ⟨ps, hp, _, _⟩ := a
  obtain ⟨qs, hq, _, _⟩ := b
  simp only [toFinsupp] at h
  show ps = qs
  clear * - h hp hq
  induction ps generalizing qs with
  | nil =>
    cases qs with
    | nil => rfl
    | cons q qs =>
      have := DFunLike.congr_fun h q.1
      rw [exponentsOf_apply hp, exponentsOf_apply hq, exponentIn, exponentIn, if_pos rfl] at this
      exact absurd this.symm hq.head_pos.ne'
  | cons p ps ih =>
    cases qs with
    | nil =>
      have := DFunLike.congr_fun h p.1
      rw [exponentsOf_apply hp, exponentsOf_apply hq, exponentIn, exponentIn, if_pos rfl] at this
      exact absurd this hp.head_pos.ne'
    | cons q qs =>
      -- both lists begin with the largest variable, so the heads agree
      have hle : ∀ {p q : ℕ × ℕ} {ps qs : List (ℕ × ℕ)}, PowerList (p :: ps) →
          PowerList (q :: qs) → exponentsOf (p :: ps) = exponentsOf (q :: qs) → p.1 ≤ q.1 := by
        intro p q ps qs hp hq h
        by_contra hlt
        have := DFunLike.congr_fun h p.1
        rw [exponentsOf_apply hp, exponentsOf_apply hq, exponentIn, if_pos rfl,
          exponentIn_of_lt] at this
        · exact hp.head_pos.ne' this
        · intro r hr
          rcases List.mem_cons.1 hr with rfl | hr
          · omega
          · exact (hq.lt_head r hr).trans (by omega)
      have hv : p.1 = q.1 := le_antisymm (hle hp hq h) (hle hq hp h.symm)
      have he : p.2 = q.2 := by
        have := DFunLike.congr_fun h p.1
        rwa [exponentsOf_apply hp, exponentsOf_apply hq, exponentIn, if_pos rfl, exponentIn,
          if_pos hv.symm] at this
      obtain rfl : p = q := Prod.ext hv he
      rw [exponentsOf_cons, exponentsOf_cons] at h
      rw [ih hp.tail _ hq.tail (add_left_cancel h)]

@[simp] theorem toFinsupp_inj {a b : Monomial} : a.toFinsupp = b.toFinsupp ↔ a = b :=
  toFinsupp_injective.eq_iff

@[simp] theorem toFinsupp_one : (1 : Monomial).toFinsupp = 0 := rfl

@[simp] theorem toFinsupp_ofPower (v e : ℕ) : (ofPower v e).toFinsupp = Finsupp.single v e := by
  unfold ofPower
  split_ifs with he
  · simp [toFinsupp]
  · obtain rfl : e = 0 := by omega
    simp

@[simp] theorem toFinsupp_ofPowers (ps : List (ℕ × ℕ)) :
    (ofPowers ps).toFinsupp = exponentsOf ps := by
  induction ps with
  | nil => simp [ofPowers]
  | cons p ps ih =>
    rw [ofPowers]
    split_ifs with hp
    · rw [toFinsupp, exponentsOf_insertPower, exponentsOf_cons, ← ih, toFinsupp]
    · obtain hp : p.2 = 0 := by omega
      simp [ih, hp]

@[simp] theorem toFinsupp_mul (a b : Monomial) :
    (a * b).toFinsupp = a.toFinsupp + b.toFinsupp :=
  exponentsOf_mergePowers_add _ _

theorem toFinsupp_div? {a b c : Monomial} (h : a.div? b = some c) :
    a.toFinsupp = c.toFinsupp + b.toFinsupp := by
  unfold div? at h
  split at h
  · simp at h
  · rename_i ps hps
    cases h
    exact exponentsOf_subtractPowers hps

@[simp] theorem toFinsupp_without (v : ℕ) (m : Monomial) :
    (m.without v).toFinsupp = m.toFinsupp.erase v :=
  exponentsOf_filter_ne v _

@[simp] theorem toFinsupp_rename (f : ℕ → ℕ) (m : Monomial) :
    (m.rename f).toFinsupp = m.toFinsupp.mapDomain f := by
  rw [rename, toFinsupp_ofPowers, exponentsOf_map, toFinsupp]

@[simp] theorem toFinsupp_lcm (a b : Monomial) :
    (a.lcm b).toFinsupp = a.toFinsupp ⊔ b.toFinsupp := by
  ext v
  rw [Finsupp.sup_apply, toFinsupp_apply, toFinsupp_apply, toFinsupp_apply]
  exact exponentIn_mergePowers_max a.valid b.valid v

theorem toFinsupp_surjective : Function.Surjective toFinsupp := fun m => by
  refine ⟨.ofPowers (m.support.toList.map fun v => (v, m v)), ?_⟩
  rw [toFinsupp_ofPowers, exponentsOf, List.map_map]
  exact (Finset.sum_map_toList _ _).trans m.sum_single

theorem isUnit_iff (m : Monomial) : m.isUnit = true ↔ m.toFinsupp = 0 := by
  rw [← toFinsupp_one, toFinsupp_inj, isUnit, List.isEmpty_iff]
  exact ⟨fun h => ext h, fun h => h ▸ rfl⟩

theorem mem_vars_iff (m : Monomial) (v : ℕ) : v ∈ m.vars ↔ m.degreeOf v ≠ 0 := by
  obtain ⟨ps, hps, d, hd⟩ := m
  show v ∈ ps.map (·.1) ↔ exponentIn v ps ≠ 0
  clear hd d
  induction ps with
  | nil => simp [exponentIn]
  | cons p ps ih =>
    rw [List.map_cons, List.mem_cons, exponentIn]
    split_ifs with hp
    · simp [hp, hps.head_pos.ne']
    · rw [ih hps.tail]
      simp [Ne.symm hp]

theorem mem_vars_iff_mem_support (m : Monomial) (v : ℕ) :
    v ∈ m.vars ↔ v ∈ m.toFinsupp.support := by
  simp [mem_vars_iff]

/-- The least common multiple of coprime power products is their product. -/
theorem sup_eq_add_of_isCoprime {a b : Monomial} (h : a.isCoprime b = true) :
    a.toFinsupp ⊔ b.toFinsupp = a.toFinsupp + b.toFinsupp := by
  have hzero : ∀ v, a.degreeOf v = 0 ∨ b.degreeOf v = 0 := fun v => by
    by_contra hne
    push Not at hne
    obtain ⟨p, hp, hpv⟩ := List.mem_map.1 ((mem_vars_iff a v).2 hne.1)
    obtain ⟨q, hq, hqv⟩ := List.mem_map.1 ((mem_vars_iff b v).2 hne.2)
    have hpq := List.all_eq_true.1 (List.all_eq_true.1 h p hp) q hq
    exact bne_iff_ne.1 hpq (hqv.trans hpv.symm)
  ext v
  rw [Finsupp.sup_apply, Finsupp.add_apply, toFinsupp_apply, toFinsupp_apply]
  rcases hzero v with h | h <;> simp [h]

/-- The power of `v` can be split off. -/
theorem toFinsupp_eq_single_add_erase (v : ℕ) (m : Monomial) :
    m.toFinsupp = Finsupp.single v (m.degreeOf v) + m.toFinsupp.erase v := by
  rw [← toFinsupp_apply, Finsupp.single_add_erase]

theorem div?_ofPower_isSome {v : ℕ} {m : Monomial} (h : m.degreeOf v ≠ 0) :
    (m.div? (ofPower v 1)).isSome := by
  obtain ⟨ps, hps, d, hd⟩ := m
  have hs : (subtractPowers ps [(v, 1)]).isSome := by
    change exponentIn v ps ≠ 0 at h
    clear hd d
    induction ps with
    | nil => simp [exponentIn] at h
    | cons p ps ih =>
      rw [exponentIn] at h
      rw [subtractPowers]
      split_ifs at h with hp
      · have := hps.head_pos
        rw [if_neg (by simp [hp]), if_neg (by simp [hp]), if_neg (by simp; omega)]
        split_ifs <;> simp [subtractPowers]
      · have hlt : v < p.1 := by
          by_contra hge
          exact h (exponentIn_of_lt fun q hq => (hps.lt_head q hq).trans_le (by omega))
        simpa [hlt] using ih hps.tail h
  unfold div?
  have hpow : (ofPower v 1).powers = [(v, 1)] := by simp [ofPower]
  split
  · rename_i hnone
    simp only [hpow] at hnone
    simp [hnone] at hs
  · rfl

end Monomial

end Cylindrical

end
