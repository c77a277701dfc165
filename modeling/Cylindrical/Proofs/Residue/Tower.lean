import Mathlib
import Cylindrical.Proofs.Residue.Euclid

/-!
# Arithmetic modulo a tower over a prime field

At a point where the levels of a tower vanish, remainders keep the value of an element, an inverse that is
found is an inverse there, and a greatest common divisor without the variable means that the
two polynomials have no common zero.
-/

namespace Cylindrical

open ResiduePoly

namespace ResidueTower

/-- The variables of the levels. -/
def vars (t : ResidueTower) : Set ℕ := {v | ∃ l ∈ t.levels, l.var = v}

/-- A tower modulo a prime: the levels are monic normal forms, in the order of their variables. -/
structure Valid (t : ResidueTower) : Prop where
  prime : t.prime.Prime
  increasing : t.levels.Pairwise fun k l => k.var < l.var
  normal : ∀ l ∈ t.levels, Normal t.prime t.vars (l.var + 1) l.defining
  mainVar? : ∀ l ∈ t.levels, l.defining.mainVar? = some l.var
  monic : ∀ l ∈ t.levels, l.defining.leadingCoeffIn l.var = 1

section

variable {t : ResidueTower}

/-! ## Positions of levels -/

theorem levelOf?_eq_some {v i : ℕ} (h : t.levelOf? v = some i) :
    ∃ l ∈ t.levels, l.var = v ∧ t.levels[i]? = some l ∧ t.defining i = l.defining := by
  rw [levelOf?, List.findIdx?_eq_some_iff_getElem] at h
  obtain ⟨hi, hv, -⟩ := h
  have hl := List.getElem?_eq_getElem hi
  refine ⟨t.levels[i], List.getElem_mem hi, by simpa using hv, hl, ?_⟩
  rw [defining, hl, Option.map_some, Option.getD_some]

theorem exists_levelOf? {v : ℕ} (hv : v ∈ t.vars) : ∃ i, t.levelOf? v = some i := by
  obtain ⟨l, hl, rfl⟩ := hv
  rw [levelOf?]
  cases h : t.levels.findIdx? (·.var == l.var) with
  | some i => exact ⟨i, rfl⟩
  | none =>
    rw [List.findIdx?_eq_none_iff] at h
    simpa using h l hl

/-- The levels below a variable are those before the first one that is not. -/
theorem lt_countBelow_of_getElem? {b i : ℕ} (ht : t.Valid) {l : ResidueLevel}
    (hl : t.levels[i]? = some l) (hv : l.var < b) : i < t.countBelow b := by
  rw [countBelow]
  have hincr := ht.increasing
  generalize t.levels = ls at hl hincr
  induction ls generalizing i with
  | nil => simp at hl
  | cons k ls ih =>
    obtain ⟨hk, hls⟩ := List.pairwise_cons.1 hincr
    cases i with
    | zero =>
      obtain rfl := Option.some.inj hl
      rw [List.takeWhile_cons_of_pos (by simpa using hv)]
      exact Nat.succ_pos _
    | succ i =>
      have hl : ls[i]? = some l := hl
      have := hk l (List.mem_of_getElem? hl)
      rw [List.takeWhile_cons_of_pos (by simp; omega), List.length_cons]
      exact Nat.succ_lt_succ (ih hl hls)

theorem lt_countBelow {v b i : ℕ} (ht : t.Valid) (h : t.levelOf? v = some i) (hv : v < b) :
    i < t.countBelow b := by
  obtain ⟨l, -, rfl, hl, -⟩ := levelOf?_eq_some h
  exact lt_countBelow_of_getElem? ht hl hv

theorem countBelow_le_of_getElem? {i : ℕ} {l : ResidueLevel} (hl : t.levels[i]? = some l) :
    t.countBelow l.var ≤ i := by
  rw [countBelow]
  generalize t.levels = ls at hl
  induction ls generalizing i with
  | nil => simp at hl
  | cons k ls ih =>
    cases i with
    | zero =>
      obtain rfl := Option.some.inj hl
      simp
    | succ i =>
      rw [List.takeWhile_cons]
      split_ifs
      · exact Nat.succ_le_succ (ih hl)
      · exact Nat.zero_le _

theorem countBelow_le {v i : ℕ} (h : t.levelOf? v = some i) : t.countBelow v ≤ i := by
  obtain ⟨l, -, rfl, hl, -⟩ := levelOf?_eq_some h
  exact countBelow_le_of_getElem? hl

theorem countBelow_eq (ht : t.Valid) {i : ℕ} {l : ResidueLevel} (hl : t.levels[i]? = some l) :
    t.countBelow l.var = i := by
  refine le_antisymm (countBelow_le_of_getElem? hl) ?_
  cases i with
  | zero => exact Nat.zero_le _
  | succ j =>
    obtain ⟨hj, rfl⟩ := List.getElem?_eq_some_iff.1 hl
    exact lt_countBelow_of_getElem? ht (List.getElem?_eq_getElem (Nat.lt_of_succ_lt hj))
      (List.pairwise_iff_getElem.1 ht.increasing j (j + 1) _ hj (Nat.lt_succ_self j))

/-! ## Remainders -/

section

variable {K : Type*} [CommRing K] {x : ℕ → K}

/-- The levels vanish at a point of a ring where the modulus is zero. -/
structure VanishesAt (t : ResidueTower) (x : ℕ → K) : Prop where
  cast : (t.prime : K) = 0
  eval : ∀ l ∈ t.levels, l.defining.eval x = 0

/-- The levels with a position below `limit` vanish at a point of a ring where the modulus is
zero. -/
structure VanishesBelow (t : ResidueTower) (limit : ℕ) (x : ℕ → K) : Prop where
  cast : (t.prime : K) = 0
  eval : ∀ l ∈ t.levels.take limit, l.defining.eval x = 0

theorem VanishesAt.below (hx : t.VanishesAt x) (limit : ℕ) : t.VanishesBelow limit x :=
  ⟨hx.cast, fun l hl => hx.eval l (List.mem_of_mem_take hl)⟩

theorem VanishesBelow.mono {limit k : ℕ} (hx : t.VanishesBelow limit x) (h : k ≤ limit) :
    t.VanishesBelow k x :=
  ⟨hx.cast, fun l hl => hx.eval l ((List.take_prefix_take_left h).subset hl)⟩

theorem VanishesBelow.eval_getElem? {limit i : ℕ} {l : ResidueLevel} (hx : t.VanishesBelow limit x)
    (hl : t.levels[i]? = some l) (hi : i < limit) : l.defining.eval x = 0 :=
  hx.eval l (List.mem_of_getElem? (i := i) (by rwa [List.getElem?_take_of_lt hi]))

theorem reduceList_eq_map (limit : ℕ) (cs : List ResiduePoly) :
    t.reduceList limit cs = cs.map (t.reduceBelow limit) := by
  induction cs with
  | nil => rw [reduceList, List.map_nil]
  | cons c cs ih => rw [reduceList, ih, List.map_cons]

/-- A family of forms of variables with levels to which the defining polynomials of these belong. -/
structure Supports (t : ResidueTower) (A : ℕ → ℕ → Prop) (F : ℕ → ResiduePoly → Prop) : Prop where
  forms : Forms t.prime A F
  mem_vars : ∀ {v b : ℕ}, A v b → v ∈ t.vars
  succ : ∀ {v b : ℕ}, A v b → A v (v + 1)
  defining : ∀ l ∈ t.levels, A l.var (l.var + 1) → F (l.var + 1) l.defining

namespace Supports

variable {A : ℕ → ℕ → Prop} {F : ℕ → ResiduePoly → Prop} (hs : t.Supports A F) (ht : t.Valid)

include hs ht

theorem reduceBelow_spec {limit : ℕ} (hx : t.VanishesBelow limit x) (b : ℕ) (a : ResiduePoly)
    (ha : F b a) : F b (t.reduceBelow limit a) ∧ (t.reduceBelow limit a).eval x = a.eval x := by
  match a, ha with
  | .const a, ha => exact ⟨by rw [reduceBelow]; exact ha, by rw [reduceBelow]⟩
  | .node v cs, ha =>
    obtain ⟨hv, -, hcs⟩ := hs.forms.node_iff.1 ha
    have hmap : ∀ c ∈ cs, F v (t.reduceBelow limit c) ∧
        (t.reduceBelow limit c).eval x = c.eval x := fun c hc => reduceBelow_spec hx v c (hcs c hc)
    have hnorm : F (v + 1) (ofCoeffs v (cs.map (t.reduceBelow limit))) :=
      hs.forms.mem_ofCoeffs ht.prime.pos (hs.succ hv)
        (List.forall_mem_map.2 fun c hc => (hmap c hc).1)
    have heval : (ofCoeffs v (cs.map (t.reduceBelow limit))).eval x = (node v cs).eval x := by
      rw [eval_ofCoeffs, eval_node]
      exact evalList_map fun c hc => (hmap c hc).2
    rw [reduceBelow, reduceList_eq_map]
    split
    · exact ⟨hs.forms.mono_succ hv hnorm, heval⟩
    · rename_i i hi
      split_ifs with hlt
      · obtain ⟨l, hl, rfl, hli, hdef⟩ := levelOf?_eq_some hi
        have D : Division x t.prime A F l.var (t.reduceBelow i) :=
          ⟨hs.forms, ht.prime, hx.cast, hs.succ hv,
            fun c hc => reduceBelow_spec (hx.mono hlt.le) l.var c hc⟩
        have hd := hs.defining l hl (hs.succ hv)
        obtain ⟨⟨-, hr⟩, he⟩ := D.divRemMonic_spec hnorm hd
        rw [hdef]
        refine ⟨hs.forms.mono_succ hv hr, ?_⟩
        rw [← heval, he ((hs.forms.degreeIn_ne_zero_iff hd).2 (ht.mainVar? l hl)),
          hx.eval_getElem? hli hlt, mul_zero, zero_add]
      · exact ⟨hs.forms.mono_succ hv hnorm, heval⟩
termination_by (limit, sizeOf a)

theorem keeps_reduceBelow {limit : ℕ} (hx : t.VanishesBelow limit x) (b : ℕ) :
    Keeps x (F b) (t.reduceBelow limit) := hs.reduceBelow_spec ht hx b

/-- Division with coefficients that are reduced modulo the levels below a position. -/
theorem division_reduceBelow {limit : ℕ} (hx : t.VanishesBelow limit x) {v b : ℕ} (hv : A v b) :
    Division x t.prime A F v (t.reduceBelow limit) :=
  ⟨hs.forms, ht.prime, hx.cast, hs.succ hv, hs.keeps_reduceBelow ht hx v⟩

end Supports

/-! ## Inverses and greatest common divisors -/

namespace Supports

variable {A : ℕ → ℕ → Prop} {F : ℕ → ResiduePoly → Prop} (hs : t.Supports A F) (ht : t.Valid)

include hs ht

theorem inverts_const (hx : (t.prime : K) = 0) {n b a : ℕ} {c : ResiduePoly}
    (ha : F b (.const a)) (hz : (ResiduePoly.const a).isZero = false)
    (hc : t.inverseUpTo n (.const a) = .ok c) :
    F b c ∧ (ResiduePoly.const a).eval x * c.eval x = 1 := by
  rw [isZero, beq_eq_false_iff_ne] at hz
  rw [inverseUpTo, Residue.inverse?, if_neg hz] at hc
  obtain rfl := Except.ok.inj hc
  refine ⟨hs.forms.const_iff.2 (Residue.inverse_lt ht.prime.ne_zero a), ?_⟩
  rw [eval_const, eval_const, mul_comm]
  exact Residue.cast_inverse_mul hx ht.prime hz (hs.forms.const_iff.1 ha)

/-- An inverse that is found is an inverse wherever the levels of the variables vanish. -/
theorem inverts_inverseUpTo {limit : ℕ} (hx : t.VanishesBelow limit x)
    (hlimit : ∀ {v b i : ℕ}, A v b → t.levelOf? v = some i → i < limit) (n b : ℕ) :
    Inverts x (F b) (t.inverseUpTo n) := by
  induction n generalizing b with
  | zero =>
    intro a c ha hz hc
    cases a with
    | const a => exact hs.inverts_const ht hx.cast ha hz hc
    | node v cs => cases hc
  | succ n ih =>
    intro a c ha hz hc
    cases a with
    | const a => exact hs.inverts_const ht hx.cast ha hz hc
    | node v cs =>
      obtain ⟨hv, hcs⟩ := hs.forms.node_iff.1 ha
      obtain ⟨i, hi⟩ := exists_levelOf? (hs.mem_vars hv)
      have hlt := hlimit hv hi
      obtain ⟨l, hl, rfl, hli, hdef⟩ := levelOf?_eq_some hi
      rw [inverseUpTo, hi] at hc
      simp only at hc
      have D := hs.division_reduceBelow ht (hx.mono hlt.le) hv
      obtain ⟨hcn, hone⟩ := D.invertLoop_spec (ih l.var)
        (hs.keeps_reduceBelow ht (hx.mono hlt) (l.var + 1)) ((node l.var cs).eval x) _
        (hdef ▸ hs.defining l hl (hs.succ hv)) (hs.forms.mem_zero ht.prime.pos)
        (hs.forms.node_iff.2 ⟨hs.succ hv, hcs⟩) (hs.forms.mem_one ht.prime.one_lt)
        (by rw [hdef, hx.eval_getElem? hli hlt, eval_zero, zero_mul]) (by rw [eval_one, one_mul]) hc
      exact ⟨hs.forms.mono_succ hv hcn, hone⟩

/-- Two polynomials in `v` that share a zero over the levels have a greatest common divisor in
which `v` occurs, the highest variable of the family. -/
theorem gcd_spec [Nontrivial K] (hx : t.VanishesAt x) {v : ℕ} (hv : A v (v + 1))
    (hle : ∀ u, A u v → u ≤ v) {a b g : ResiduePoly} (ha : F (v + 1) a) (hav : a.mainVar? = some v)
    (hmonic : a.leadingCoeffIn v = 1) (hb : F (v + 1) b) (hza : a.eval x = 0)
    (hzb : b.eval x = 0) (hg : t.gcd v a b = .ok g) : F (v + 1) g ∧ g.mainVar? = some v := by
  have D := hs.division_reduceBelow ht (hx.below (t.countBelow v)) hv
  have hinv : Inverts x (F v) t.inverse := hs.inverts_inverseUpTo ht (hx.below t.levels.length)
    (fun _ hi => by
      obtain ⟨l, -, -, hl, -⟩ := levelOf?_eq_some hi
      exact (List.getElem?_eq_some_iff.1 hl).1) _ v
  obtain ⟨hra, hrza⟩ := D.coeffs a ha
  obtain ⟨hrb, hrzb⟩ := D.coeffs b hb
  have hrav : (a.reduceCoeffs v (t.reduceBelow (t.countBelow v))).mainVar? = some v :=
    (reduceCoeffs_spec hs.forms ha hav (by
      rw [hmonic, show (1 : ResiduePoly) = .const 1 from rfl, reduceBelow]
      rfl)).1
  rw [hza] at hrza
  rw [hzb] at hrzb
  rw [gcd] at hg
  split_ifs at hg with h
  · exact D.gcdLoop_spec hinv hle _ hrb ((hs.forms.degreeIn_ne_zero_iff hrb).1 (by omega)) hra
      hrzb hrza hg
  · exact D.gcdLoop_spec hinv hle _ hra hrav hrb hrza hrzb hg

end Supports

theorem countBelow_le_length (t : ResidueTower) (b : ℕ) : t.countBelow b ≤ t.levels.length :=
  (List.takeWhile_sublist _).length_le

/-! ## Families for a tower -/

/-- A set of variables of levels that has with each one the lower ones. -/
structure DownClosed (t : ResidueTower) (S : Set ℕ) : Prop where
  subset : S ⊆ t.vars
  mem_of_le : ∀ {v w : ℕ}, v ∈ S → w ∈ t.vars → w ≤ v → w ∈ S

theorem supports_normal (ht : t.Valid) {S : Set ℕ} (hS : t.DownClosed S) :
    t.Supports (Below S) (Normal t.prime S) where
  forms := forms_normal t.prime S
  mem_vars hv := hS.subset hv.2
  succ hv := below_succ hv.2
  defining l hl hv := (ht.normal l hl).mono_set fun _ hw hwt =>
    hS.mem_of_le hv.2 hwt (Nat.lt_succ_iff.1 hw)

theorem supports_trimmed (ht : t.Valid) {S : Set ℕ} (hS : t.DownClosed S) :
    t.Supports (fun v _ => v ∈ S) fun _ => Trimmed t.prime S where
  forms := forms_trimmed t.prime S
  mem_vars hv := hS.subset hv
  succ hv := hv
  defining l hl hv := (ht.normal l hl).trimmed fun _ hw hwt =>
    hS.mem_of_le hv hwt (Nat.lt_succ_iff.1 hw)

theorem downClosed_vars (t : ResidueTower) : t.DownClosed t.vars := ⟨subset_rfl, fun _ hw _ => hw⟩

theorem downClosed_lt (t : ResidueTower) (b : ℕ) : t.DownClosed {w ∈ t.vars | w < b} :=
  ⟨fun _ hw => hw.1, fun hv hw hle => ⟨hw, hle.trans_lt hv.2⟩⟩

theorem keeps_reduceBelow (ht : t.Valid) {limit : ℕ} (hx : t.VanishesBelow limit x) (b : ℕ) :
    Keeps x (Normal t.prime t.vars b) (t.reduceBelow limit) :=
  (supports_normal ht t.downClosed_vars).keeps_reduceBelow ht hx b

theorem division_reduceBelow (ht : t.Valid) {limit : ℕ} (hx : t.VanishesBelow limit x) {v : ℕ}
    (hv : v ∈ t.vars) :
    Division x t.prime (Below t.vars) (Normal t.prime t.vars) v (t.reduceBelow limit) :=
  (supports_normal ht t.downClosed_vars).division_reduceBelow ht hx (below_succ hv)

/-- An inverse of a normal form is an inverse wherever the levels below it vanish. -/
theorem inverts_inverseUpTo (ht : t.Valid) {b : ℕ} (hx : t.VanishesBelow (t.countBelow b) x) (n : ℕ) :
    Inverts x (Normal t.prime t.vars b) (t.inverseUpTo n) := by
  intro a c ha hz hc
  obtain ⟨hcn, hone⟩ := (supports_normal ht (t.downClosed_lt b)).inverts_inverseUpTo ht hx
    (fun hv hi => lt_countBelow ht hi hv.2.2) n b a c (ha.mono_set fun _ hw hwt => ⟨hwt, hw⟩) hz hc
  exact ⟨hcn.mono_set fun _ _ hw => hw.1, hone⟩

end

end

end ResidueTower

end Cylindrical
