import Mathlib
import Cylindrical.Proofs.Residue.Evaluation

/-!
# Forms of polynomials over a prime field

The operations keep the residues below the modulus, and they leave at least two coefficients, the last of
them not zero.  They also keep what there is of an order of the variables: a family of forms says
which main variables may stand below which bounds (`ResiduePoly.Forms`), and may leave the order open.
-/

namespace Cylindrical

namespace ResiduePoly

/-! ## Lists without zeros at the end -/

theorem mem_of_mem_trim {c : ResiduePoly} {cs : List ResiduePoly} (h : c ∈ trim cs) : c ∈ cs := by
  induction cs with
  | nil => exact h
  | cons d ds ih =>
    rw [trim] at h
    split at h
    · split_ifs at h
      · cases h
      · exact List.mem_cons.2 (.inl (List.mem_singleton.1 h))
    · rcases List.mem_cons.1 h with rfl | h
      · exact .head _
      · exact .tail _ (ih h)

theorem trim_eq_self_iff {cs : List ResiduePoly} :
    trim cs = cs ↔ ∀ c, cs.getLast? = some c → c.isZero = false := by
  induction cs with
  | nil => simp [trim]
  | cons d ds ih =>
    rw [trim]
    cases ds with
    | nil =>
      simp only [trim, List.getLast?_singleton, Option.some.injEq]
      split_ifs with h <;> simp [h]
    | cons e es =>
      rw [List.getLast?_cons_cons, ← ih]
      cases h : trim (e :: es) with
      | nil => split_ifs <;> simp
      | cons f fs => simp

theorem trim_trim (cs : List ResiduePoly) : trim (trim cs) = trim cs := by
  induction cs with
  | nil => rfl
  | cons d ds ih =>
    rw [trim]
    cases h : trim ds with
    | nil =>
      split_ifs with hd
      · rfl
      · simp [trim, hd]
    | cons e es =>
      rw [trim, ← h, ih, h]

theorem length_trim_le (cs : List ResiduePoly) : (trim cs).length ≤ cs.length := by
  induction cs with
  | nil => exact le_rfl
  | cons d ds ih =>
    rw [trim]
    cases h : trim ds with
    | nil => split_ifs <;> simp
    | cons e es =>
      rw [h] at ih
      simpa using ih

theorem trim_map {f : ResiduePoly → ResiduePoly} {cs : List ResiduePoly} (h : trim cs = cs)
    (hf : ∀ c ∈ cs, c.isZero = false → (f c).isZero = false) : trim (cs.map f) = cs.map f := by
  rw [trim_eq_self_iff] at h ⊢
  intro c hc
  rw [List.getLast?_map, Option.map_eq_some_iff] at hc
  obtain ⟨d, hd, rfl⟩ := hc
  exact hf d (List.mem_of_getLast? hd) (h d hd)

theorem ofCoeffs_of_two_le {v : ℕ} {cs : List ResiduePoly} (hlen : 2 ≤ (trim cs).length) :
    ofCoeffs v cs = node v (trim cs) := by
  rw [ofCoeffs]
  generalize trim cs = ds at hlen ⊢
  rcases ds with _ | ⟨c, _ | ⟨d, ds⟩⟩
  · cases hlen
  · exact absurd hlen (by rw [List.length_singleton]; omega)
  · rfl

/-! ## Nodes -/

/-- The coefficients of a polynomial with the main variable `v`. -/
theorem exists_node_of_mainVar? {v : ℕ} {a : ResiduePoly} (h : a.mainVar? = some v) :
    ∃ cs, a = node v cs := by
  cases a with
  | const a => simp [mainVar?] at h
  | node w cs =>
    obtain rfl := Option.some.inj h
    exact ⟨cs, rfl⟩

theorem negList_eq_map (p : ℕ) (cs : List ResiduePoly) : negList p cs = cs.map (ResiduePoly.neg p) := by
  induction cs with
  | nil => rw [negList]; rfl
  | cons c cs ih => rw [negList, ih]; rfl

theorem scaleCoeffsList_eq_map (p c : ℕ) (cs : List ResiduePoly) :
    scaleCoeffsList p c cs = cs.map (scaleCoeffs p c) := by
  induction cs with
  | nil => rw [scaleCoeffsList]; rfl
  | cons d ds ih => rw [scaleCoeffsList, ih]; rfl

theorem evalList_negList {K : Type*} [CommRing K] {x : ℕ → K} {p : ℕ} {y : K}
    {cs : List ResiduePoly} (h : ∀ c ∈ cs, eval x (ResiduePoly.neg p c) = -eval x c) :
    evalList x y (negList p cs) = -evalList x y cs := by
  induction cs with
  | nil => rw [negList, evalList_nil, neg_zero]
  | cons c cs ih =>
    rw [List.forall_mem_cons] at h
    rw [negList, evalList_cons, evalList_cons, h.1, ih h.2]
    ring

/-! ## Families of forms -/

/-- A family of forms: `F b a` says that `a` is a form below the bound `b`, and `A v b` that the main
variable `v` may stand below it. -/
structure Forms (p : ℕ) (A : ℕ → ℕ → Prop) (F : ℕ → ResiduePoly → Prop) : Prop where
  const_iff : ∀ {b a : ℕ}, F b (const a) ↔ a < p
  node_iff : ∀ {b v : ℕ} {cs : List ResiduePoly},
    F b (node v cs) ↔ A v b ∧ (2 ≤ cs.length ∧ trim cs = cs) ∧ ∀ c ∈ cs, F v c
  trans : ∀ {u v b : ℕ}, A u v → A v b → A u b
  /-- Of two variables below a bound the smaller one may stand below the other. -/
  of_lt : ∀ {u v b : ℕ}, A u b → A v b → u < v → A u v
  /-- Only `v` itself may stand below `v + 1` and not below `v`. -/
  of_ne : ∀ {u v : ℕ}, A u (v + 1) → u ≠ v → A u v

namespace Forms

variable {p n v : ℕ} {A : ℕ → ℕ → Prop} {F : ℕ → ResiduePoly → Prop} {a b c : ResiduePoly}
  {cs ds : List ResiduePoly}

section

variable (hF : Forms p A F)

include hF

theorem mem_zero (hp : 0 < p) : F n 0 := hF.const_iff.2 hp

theorem mem_one (hp : 1 < p) : F n 1 := hF.const_iff.2 hp

theorem mono (hv : A v n) (h : F v a) : F n a := by
  cases a with
  | const a => exact hF.const_iff.2 (hF.const_iff.1 h)
  | node w cs =>
    obtain ⟨hw, hcs⟩ := hF.node_iff.1 h
    exact hF.node_iff.2 ⟨hF.trans hw hv, hcs⟩

/-- A form below `v + 1` is one below every bound of `v`. -/
theorem mono_succ (hv : A v n) (h : F (v + 1) a) : F n a := by
  cases a with
  | const a => exact hF.const_iff.2 (hF.const_iff.1 h)
  | node w cs =>
    obtain ⟨hw, hcs⟩ := hF.node_iff.1 h
    refine hF.node_iff.2 ⟨?_, hcs⟩
    by_cases he : w = v
    · exact he ▸ hv
    · exact hF.trans (hF.of_ne hw he) hv

/-- A form without the variable `v` at the top. -/
theorem of_mainVar?_ne (ha : F (v + 1) a) (h : a.mainVar? ≠ some v) : F v a := by
  cases a with
  | const a => exact hF.const_iff.2 (hF.const_iff.1 ha)
  | node w cs =>
    obtain ⟨hw, hcs⟩ := hF.node_iff.1 ha
    exact hF.node_iff.2 ⟨hF.of_ne hw fun he => h (by rw [mainVar?, he]), hcs⟩

theorem mem_ofCoeffs (hp : 0 < p) (hv : A v n) (h : ∀ c ∈ cs, F v c) : F n (ofCoeffs v cs) := by
  have hmem : ∀ c ∈ trim cs, F v c := fun c hc => h c (mem_of_mem_trim hc)
  have htrim := trim_trim cs
  rw [ofCoeffs]
  generalize trim cs = ds at hmem htrim ⊢
  rcases ds with _ | ⟨c, _ | ⟨d, ds⟩⟩
  · exact hF.mem_zero hp
  · exact hF.mono hv (hmem c (.head _))
  · exact hF.node_iff.2 ⟨hv, ⟨by simp, htrim⟩, hmem⟩

theorem mem_replicate_zero (hp : 0 < p) (k : ℕ) : ∀ c ∈ List.replicate k 0, F n c := fun c hc => by
  rw [List.eq_of_mem_replicate hc]
  exact hF.mem_zero hp

end

/-! ## Addition -/

mutual

theorem mem_add (hF : Forms p A F) (hp : 0 < p) {n : ℕ} {a b : ResiduePoly} (ha : F n a)
    (hb : F n b) : F n (ResiduePoly.add p a b) := by
  match a, b, ha, hb with
  | const a, const b, _, _ =>
    rw [ResiduePoly.add]
    exact hF.const_iff.2 (Nat.mod_lt _ hp)
  | const a, node w ds, ha, hb =>
    obtain ⟨hw, -, hds⟩ := hF.node_iff.1 hb
    rw [ResiduePoly.add]
    exact hF.mem_ofCoeffs hp hw (mem_addHead hF hp (hF.const_iff.2 (hF.const_iff.1 ha)) hds)
  | node v cs, const b, ha, hb =>
    obtain ⟨hv, -, hcs⟩ := hF.node_iff.1 ha
    rw [ResiduePoly.add]
    exact hF.mem_ofCoeffs hp hv (mem_addHead hF hp (hF.const_iff.2 (hF.const_iff.1 hb)) hcs)
  | node v cs, node w ds, ha, hb =>
    obtain ⟨hv, hc, hcs⟩ := hF.node_iff.1 ha
    obtain ⟨hw, hd, hds⟩ := hF.node_iff.1 hb
    rw [ResiduePoly.add]
    split_ifs with h₁ h₂
    · exact hF.mem_ofCoeffs hp hv (mem_addList hF hp hcs (h₁ ▸ hds))
    · exact hF.mem_ofCoeffs hp hw
        (mem_addHead hF hp (hF.node_iff.2 ⟨hF.of_lt hv hw h₂, hc, hcs⟩) hds)
    · exact hF.mem_ofCoeffs hp hv
        (mem_addHead hF hp (hF.node_iff.2 ⟨hF.of_lt hw hv (by omega), hd, hds⟩) hcs)
termination_by sizeOf a + sizeOf b

theorem mem_addHead (hF : Forms p A F) (hp : 0 < p) {n : ℕ} {c : ResiduePoly}
    {ds : List ResiduePoly} (hc : F n c) (hds : ∀ d ∈ ds, F n d) : ∀ e ∈ addHead p c ds, F n e := by
  match ds, hds with
  | [], _ =>
    rw [addHead]
    exact List.forall_mem_singleton.2 hc
  | d :: ds, hds =>
    rw [List.forall_mem_cons] at hds
    rw [addHead, List.forall_mem_cons]
    exact ⟨mem_add hF hp hc hds.1, hds.2⟩
termination_by sizeOf c + sizeOf ds

theorem mem_addList (hF : Forms p A F) (hp : 0 < p) {n : ℕ} {cs ds : List ResiduePoly}
    (hcs : ∀ c ∈ cs, F n c) (hds : ∀ d ∈ ds, F n d) : ∀ e ∈ addList p cs ds, F n e := by
  match cs, ds, hcs, hds with
  | [], ds, _, hds => rwa [addList]
  | c :: cs, [], hcs, _ =>
    rwa [addList]
    simp
  | c :: cs, d :: ds, hcs, hds =>
    rw [List.forall_mem_cons] at hcs hds
    rw [addList, List.forall_mem_cons]
    exact ⟨mem_add hF hp hcs.1 hds.1, mem_addList hF hp hcs.2 hds.2⟩
termination_by sizeOf cs + sizeOf ds

end

/-! ## Negation and multiples -/

section

variable (hF : Forms p A F)

include hF

theorem isZero_neg (ha : F n a) (h : a.isZero = false) : (ResiduePoly.neg p a).isZero = false := by
  cases a with
  | const a =>
    have ha := hF.const_iff.1 ha
    rw [isZero, beq_eq_false_iff_ne] at h
    rw [ResiduePoly.neg, isZero, beq_eq_false_iff_ne, Residue.neg, Nat.mod_eq_of_lt (by omega)]
    omega
  | node v cs => rw [ResiduePoly.neg, isZero]

theorem mem_neg (hp : 0 < p) {n : ℕ} {a : ResiduePoly} (ha : F n a) : F n (ResiduePoly.neg p a) := by
  match a, ha with
  | const a, _ =>
    rw [ResiduePoly.neg]
    exact hF.const_iff.2 (Nat.mod_lt _ hp)
  | node v cs, ha =>
    obtain ⟨hv, ⟨hlen, htrim⟩, hcs⟩ := hF.node_iff.1 ha
    rw [ResiduePoly.neg, negList_eq_map]
    exact hF.node_iff.2 ⟨hv, ⟨by rwa [List.length_map],
      trim_map htrim fun c hc hz => hF.isZero_neg (hcs c hc) hz⟩,
      List.forall_mem_map.2 fun c hc => mem_neg hp (hcs c hc)⟩

theorem eval_neg {K : Type*} [CommRing K] {x : ℕ → K} (hp : (p : K) = 0) {n : ℕ} {a : ResiduePoly}
    (ha : F n a) : eval x (ResiduePoly.neg p a) = -eval x a := by
  match a, ha with
  | const a, ha =>
    rw [ResiduePoly.neg, eval_const, eval_const, Residue.cast_neg hp (hF.const_iff.1 ha).le]
  | node v cs, ha =>
    rw [ResiduePoly.neg, eval_node, eval_node,
      evalList_negList fun c hc => eval_neg hp ((hF.node_iff.1 ha).2.2 c hc)]

theorem mem_sub (hp : 0 < p) (ha : F n a) (hb : F n b) : F n (ResiduePoly.sub p a b) :=
  hF.mem_add hp ha (hF.mem_neg hp hb)

theorem eval_sub {K : Type*} [CommRing K] {x : ℕ → K} (hp : (p : K) = 0) (a : ResiduePoly)
    (hb : F n b) : eval x (ResiduePoly.sub p a b) = eval x a - eval x b := by
  rw [ResiduePoly.sub, eval_add hp, hF.eval_neg hp hb, sub_eq_add_neg]

theorem isZero_scaleCoeffs (hp : p.Prime) {k : ℕ} (hk : k ≠ 0) (hlt : k < p) (ha : F n a)
    (h : a.isZero = false) : (scaleCoeffs p k a).isZero = false := by
  cases a with
  | const a =>
    have ha := hF.const_iff.1 ha
    rw [isZero, beq_eq_false_iff_ne] at h
    rw [scaleCoeffs, isZero, beq_eq_false_iff_ne, Residue.mul, Ne, ← Nat.dvd_iff_mod_eq_zero,
      hp.dvd_mul, not_or]
    exact ⟨Nat.not_dvd_of_pos_of_lt (by omega) ha, Nat.not_dvd_of_pos_of_lt (by omega) hlt⟩
  | node v cs => rw [scaleCoeffs, isZero]

theorem mem_scaleCoeffs (hp : p.Prime) {k : ℕ} (hk : k ≠ 0) (hlt : k < p) {n : ℕ} {a : ResiduePoly}
    (ha : F n a) : F n (scaleCoeffs p k a) := by
  match a, ha with
  | const a, _ =>
    rw [scaleCoeffs]
    exact hF.const_iff.2 (Nat.mod_lt _ hp.pos)
  | node v cs, ha =>
    obtain ⟨hv, ⟨hlen, htrim⟩, hcs⟩ := hF.node_iff.1 ha
    rw [scaleCoeffs, scaleCoeffsList_eq_map]
    exact hF.node_iff.2 ⟨hv, ⟨by rwa [List.length_map],
      trim_map htrim fun c hc hz => hF.isZero_scaleCoeffs hp hk hlt (hcs c hc) hz⟩,
      List.forall_mem_map.2 fun c hc => mem_scaleCoeffs hp hk hlt (hcs c hc)⟩

theorem mem_scale (hp : p.Prime) {k : ℕ} (hlt : k < p) (ha : F n a) : F n (scale p k a) := by
  rw [scale]
  split_ifs with hk
  · exact hF.mem_zero hp.pos
  · exact hF.mem_scaleCoeffs hp hk hlt ha

/-! ## Multiplication -/

theorem mem_addAt (hp : 0 < p) (i : ℕ) (hcs : ∀ c ∈ cs, F n c) (hds : ∀ d ∈ ds, F n d) :
    ∀ e ∈ addAt p i cs ds, F n e := by
  induction i generalizing ds with
  | zero => exact hF.mem_addList hp hds hcs
  | succ i ih =>
    cases ds with
    | nil => exact List.forall_mem_nil _
    | cons d ds =>
      rw [List.forall_mem_cons] at hds
      rw [addAt, List.forall_mem_cons]
      exact ⟨hds.1, ih hds.2⟩

end

mutual

theorem mem_mul (hF : Forms p A F) (hp : p.Prime) {n : ℕ} {a b : ResiduePoly} (ha : F n a)
    (hb : F n b) : F n (ResiduePoly.mul p a b) := by
  match a, b, ha, hb with
  | const a, b, ha, hb =>
    rw [ResiduePoly.mul]
    exact hF.mem_scale hp (hF.const_iff.1 ha) hb
  | node v cs, const b, ha, hb =>
    rw [ResiduePoly.mul]
    · exact hF.mem_scale hp (hF.const_iff.1 hb) ha
    · simp
  | node v cs, node w ds, ha, hb =>
    obtain ⟨hv, hc, hcs⟩ := hF.node_iff.1 ha
    obtain ⟨hw, hd, hds⟩ := hF.node_iff.1 hb
    have hzero : ∀ {n k : ℕ}, ∀ c ∈ List.replicate k 0, F n c := hF.mem_replicate_zero hp.pos _
    rw [ResiduePoly.mul]
    split_ifs with h₁ h₂
    · exact hF.mem_ofCoeffs hp.pos hv (mem_mulRows hF hp 0 hcs (h₁ ▸ hds) hzero)
    · exact hF.mem_ofCoeffs hp.pos hw (hF.mem_addList hp.pos hzero
        (mem_mulRow hF hp (hF.node_iff.2 ⟨hF.of_lt hv hw h₂, hc, hcs⟩) hds))
    · exact hF.mem_ofCoeffs hp.pos hv (hF.mem_addList hp.pos hzero
        (mem_mulColumn hF hp hcs (hF.node_iff.2 ⟨hF.of_lt hw hv (by omega), hd, hds⟩)))
termination_by sizeOf a + sizeOf b

theorem mem_mulRow (hF : Forms p A F) (hp : p.Prime) {n : ℕ} {c : ResiduePoly}
    {ds : List ResiduePoly} (hc : F n c) (hds : ∀ d ∈ ds, F n d) : ∀ e ∈ mulRow p c ds, F n e := by
  match ds, hds with
  | [], _ =>
    rw [mulRow]
    exact List.forall_mem_nil _
  | d :: ds, hds =>
    rw [List.forall_mem_cons] at hds
    rw [mulRow, List.forall_mem_cons]
    exact ⟨mem_mul hF hp hc hds.1, mem_mulRow hF hp hc hds.2⟩
termination_by sizeOf c + sizeOf ds

theorem mem_mulColumn (hF : Forms p A F) (hp : p.Prime) {n : ℕ} {cs : List ResiduePoly}
    {d : ResiduePoly} (hcs : ∀ c ∈ cs, F n c) (hd : F n d) : ∀ e ∈ mulColumn p cs d, F n e := by
  match cs, hcs with
  | [], _ =>
    rw [mulColumn]
    exact List.forall_mem_nil _
  | c :: cs, hcs =>
    rw [List.forall_mem_cons] at hcs
    rw [mulColumn, List.forall_mem_cons]
    exact ⟨mem_mul hF hp hcs.1 hd, mem_mulColumn hF hp hcs.2 hd⟩
termination_by sizeOf cs + sizeOf d

theorem mem_mulRows (hF : Forms p A F) (hp : p.Prime) {n : ℕ} (i : ℕ) {cs ds acc : List ResiduePoly}
    (hcs : ∀ c ∈ cs, F n c) (hds : ∀ d ∈ ds, F n d) (hacc : ∀ e ∈ acc, F n e) :
    ∀ e ∈ mulRows p i cs ds acc, F n e := by
  match cs, hcs with
  | [], _ => rwa [mulRows]
  | c :: cs, hcs =>
    rw [List.forall_mem_cons] at hcs
    rw [mulRows]
    refine mem_mulRows hF hp (i + 1) hcs.2 hds ?_
    split_ifs
    · exact hacc
    · exact hF.mem_addAt hp.pos i (mem_mulRow hF hp hcs.1 hds) hacc
termination_by sizeOf cs + sizeOf ds

end

/-! ## Coefficients -/

section

variable (hF : Forms p A F)

include hF

theorem mem_coeffsIn (ha : F (v + 1) a) : ∀ c ∈ a.coeffsIn v, F v c := by
  cases a with
  | const a => exact List.forall_mem_singleton.2 (hF.const_iff.2 (hF.const_iff.1 ha))
  | node w cs =>
    rw [coeffsIn]
    split_ifs with h
    · exact h ▸ (hF.node_iff.1 ha).2.2
    · exact List.forall_mem_singleton.2 (hF.of_mainVar?_ne ha fun he => h (Option.some.inj he))

theorem mem_shift (hp : 0 < p) (hv : A v (v + 1)) (k : ℕ) (ha : F (v + 1) a) :
    F (v + 1) (a.shift v k) := by
  rw [shift]
  split_ifs
  · exact ha
  · exact hF.mem_ofCoeffs hp hv (List.forall_mem_append.2
      ⟨hF.mem_replicate_zero hp k, hF.mem_coeffsIn ha⟩)

theorem exists_getLast?_of_mainVar? (ha : F n a) (h : a.mainVar? = some v) :
    ∃ cs, a = node v cs ∧ 2 ≤ cs.length ∧ cs.getLast? = some (a.leadingCoeffIn v) := by
  obtain ⟨cs, rfl⟩ := exists_node_of_mainVar? h
  obtain ⟨-, ⟨hlen, -⟩, -⟩ := hF.node_iff.1 ha
  refine ⟨cs, rfl, hlen, ?_⟩
  rw [leadingCoeffIn, if_pos rfl]
  cases hlast : cs.getLast? with
  | none =>
    rw [List.getLast?_eq_none_iff] at hlast
    simp [hlast] at hlen
  | some c => rfl

theorem leadingCoeffIn_spec (ha : F n a) (h : a.mainVar? = some v) :
    F v (a.leadingCoeffIn v) ∧ (a.leadingCoeffIn v).isZero = false := by
  obtain ⟨cs, hcs, -, hlast⟩ := hF.exists_getLast?_of_mainVar? ha h
  rw [hcs] at ha
  obtain ⟨-, ⟨-, htrim⟩, hmem⟩ := hF.node_iff.1 ha
  exact ⟨hmem _ (List.mem_of_getLast? hlast), trim_eq_self_iff.1 htrim _ hlast⟩

theorem degreeIn_ne_zero_iff (ha : F n a) : a.degreeIn v ≠ 0 ↔ a.mainVar? = some v := by
  cases a with
  | const a => simp [degreeIn, mainVar?]
  | node w cs =>
    have := (hF.node_iff.1 ha).2.1.1
    rw [degreeIn, mainVar?, Option.some_inj]
    split_ifs with h
    · exact ⟨fun _ => h, fun _ => by omega⟩
    · exact ⟨fun hn => absurd rfl hn, fun he => absurd he h⟩

end

end Forms

/-! ## Forms without an order -/

section

variable {p : ℕ} {S : Set ℕ}

mutual

/-- A form with variables from `S`, whatever their order. -/
def Trimmed (p : ℕ) (S : Set ℕ) : ResiduePoly → Prop
  | const a => a < p
  | node v cs => v ∈ S ∧ (2 ≤ cs.length ∧ trim cs = cs) ∧ TrimmedList p S cs

/-- Forms with variables from `S`, whatever their order. -/
def TrimmedList (p : ℕ) (S : Set ℕ) : List ResiduePoly → Prop
  | [] => True
  | c :: cs => Trimmed p S c ∧ TrimmedList p S cs

end

theorem trimmedList_iff {cs : List ResiduePoly} : TrimmedList p S cs ↔ ∀ c ∈ cs, Trimmed p S c := by
  induction cs with
  | nil => simp [TrimmedList]
  | cons c cs ih => rw [TrimmedList, ih, List.forall_mem_cons]

theorem trimmed_const {a : ℕ} : Trimmed p S (const a) ↔ a < p := by rw [Trimmed]

theorem trimmed_node {v : ℕ} {cs : List ResiduePoly} : Trimmed p S (node v cs) ↔
    v ∈ S ∧ (2 ≤ cs.length ∧ trim cs = cs) ∧ ∀ c ∈ cs, Trimmed p S c := by
  rw [Trimmed, trimmedList_iff]

theorem forms_trimmed (p : ℕ) (S : Set ℕ) : Forms p (fun v _ => v ∈ S) fun _ => Trimmed p S where
  const_iff := trimmed_const
  node_iff := trimmed_node
  trans hu _ := hu
  of_lt hu _ _ := hu
  of_ne hu _ := hu

end

end ResiduePoly

end Cylindrical
