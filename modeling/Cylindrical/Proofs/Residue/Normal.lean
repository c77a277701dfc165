import Mathlib
import Cylindrical.Proofs.Residue.Forms

/-!
# Normal forms of polynomials over a prime field

In a normal form the residues are below the modulus, every main variable is above those of its
coefficients, and there are at least two coefficients, the last of them not zero.  The operations of the
ring keep normal forms.
-/

namespace Cylindrical

namespace ResiduePoly

variable {p : ℕ} {S : Set ℕ}

/-! ## Equality -/

mutual

theorem same_iff {a b : ResiduePoly} : same a b = true ↔ a = b := by
  match a, b with
  | const a, const b => rw [same, beq_iff_eq, const.injEq]
  | const a, node w ds => simp [same]
  | node v cs, const b => simp [same]
  | node v cs, node w ds =>
    rw [same, Bool.and_eq_true, beq_iff_eq, sameList_iff, node.injEq]

theorem sameList_iff {cs ds : List ResiduePoly} : sameList cs ds = true ↔ cs = ds := by
  match cs, ds with
  | [], [] => simp [sameList]
  | [], d :: ds => simp [sameList]
  | c :: cs, [] => simp [sameList]
  | c :: cs, d :: ds =>
    rw [sameList, Bool.and_eq_true, same_iff, sameList_iff, List.cons.injEq]

end

instance : DecidableEq ResiduePoly := fun _ _ => decidable_of_iff _ same_iff

theorem eq_one_of_beq {a : ResiduePoly} (h : (a == 1) = true) : a = 1 := same_iff.1 h

/-! ## Normal forms -/

mutual

/-- A normal form with variables from `S` below `b`. -/
def Normal (p : ℕ) (S : Set ℕ) : ℕ → ResiduePoly → Prop
  | _, const a => a < p
  | b, node v cs => (v < b ∧ v ∈ S) ∧ (2 ≤ cs.length ∧ trim cs = cs) ∧ NormalList p S v cs

/-- Normal forms with variables from `S` below `b`. -/
def NormalList (p : ℕ) (S : Set ℕ) : ℕ → List ResiduePoly → Prop
  | _, [] => True
  | b, c :: cs => Normal p S b c ∧ NormalList p S b cs

end

@[simp] theorem normal_const {b a : ℕ} : Normal p S b (const a) ↔ a < p := by rw [Normal]

theorem normal_node {b v : ℕ} {cs : List ResiduePoly} : Normal p S b (node v cs) ↔
    (v < b ∧ v ∈ S) ∧ (2 ≤ cs.length ∧ trim cs = cs) ∧ NormalList p S v cs := by rw [Normal]

@[simp] theorem normalList_nil {b : ℕ} : NormalList p S b [] := by rw [NormalList]; trivial

@[simp] theorem normalList_cons {b : ℕ} {c : ResiduePoly} {cs : List ResiduePoly} :
    NormalList p S b (c :: cs) ↔ Normal p S b c ∧ NormalList p S b cs := by rw [NormalList]

theorem normalList_iff {b : ℕ} {cs : List ResiduePoly} :
    NormalList p S b cs ↔ ∀ c ∈ cs, Normal p S b c := by
  induction cs with
  | nil => simp
  | cons c cs ih => simp [ih]

theorem Normal.mono {b c : ℕ} {a : ResiduePoly} (h : Normal p S b a) (hbc : b ≤ c) :
    Normal p S c a := by
  cases a with
  | const a => simpa using h
  | node v cs =>
    rw [normal_node] at h ⊢
    exact ⟨⟨h.1.1.trans_le hbc, h.1.2⟩, h.2⟩

mutual

theorem Normal.mono_set {T : Set ℕ} {b : ℕ} {a : ResiduePoly} (h : Normal p S b a)
    (hST : ∀ w < b, w ∈ S → w ∈ T) : Normal p T b a := by
  match a, h with
  | const a, h => exact normal_const.2 (normal_const.1 h)
  | node v cs, h =>
    obtain ⟨hv, hc, hcs⟩ := normal_node.1 h
    exact normal_node.2 ⟨⟨hv.1, hST v hv.1 hv.2⟩, hc,
      NormalList.mono_set hcs fun w hw => hST w (hw.trans hv.1)⟩

theorem NormalList.mono_set {T : Set ℕ} {b : ℕ} {cs : List ResiduePoly} (h : NormalList p S b cs)
    (hST : ∀ w < b, w ∈ S → w ∈ T) : NormalList p T b cs := by
  match cs, h with
  | [], _ => exact normalList_nil
  | c :: cs, h =>
    rw [normalList_cons] at h ⊢
    exact ⟨Normal.mono_set h.1 hST, NormalList.mono_set h.2 hST⟩

end

/-- A normal form is a form whatever the order. -/
theorem Normal.trimmed {T : Set ℕ} {b : ℕ} {a : ResiduePoly} (h : Normal p S b a)
    (hST : ∀ w < b, w ∈ S → w ∈ T) : Trimmed p T a := by
  match a, h with
  | const a, h => exact trimmed_const.2 (normal_const.1 h)
  | node v cs, h =>
    obtain ⟨hv, hc, hcs⟩ := normal_node.1 h
    exact trimmed_node.2 ⟨hST v hv.1 hv.2, hc, fun c hmem =>
      (normalList_iff.1 hcs c hmem).trimmed fun w hw => hST w (hw.trans hv.1)⟩

theorem normal_zero (hp : 0 < p) {b : ℕ} : Normal p S b 0 := normal_const.2 hp

theorem normal_one (hp : 1 < p) {b : ℕ} : Normal p S b 1 := normal_const.2 hp

/-! ## Operations -/

/-- The order of the variables in normal forms with variables from `S`. -/
def Below (S : Set ℕ) (v b : ℕ) : Prop := v < b ∧ v ∈ S

theorem below_succ {v : ℕ} (hS : v ∈ S) : Below S v (v + 1) := ⟨Nat.lt_succ_self v, hS⟩

theorem forms_normal (p : ℕ) (S : Set ℕ) : Forms p (Below S) (Normal p S) where
  const_iff := normal_const
  node_iff := by
    intros
    rw [normal_node, normalList_iff, Below]
  trans hu hv := ⟨hu.1.trans hv.1, hu.2⟩
  of_lt hu _ huv := ⟨huv, hu.2⟩
  of_ne hu hne := ⟨lt_of_le_of_ne (Nat.lt_succ_iff.1 hu.1) hne, hu.2⟩

section

variable {n v : ℕ} {a b : ResiduePoly} {cs : List ResiduePoly}

theorem normal_ofCoeffs (hp : 0 < p) (hv : v < n) (hS : v ∈ S) (h : NormalList p S v cs) :
    Normal p S n (ofCoeffs v cs) :=
  (forms_normal p S).mem_ofCoeffs hp ⟨hv, hS⟩ (normalList_iff.1 h)

theorem normal_add (hp : 0 < p) (ha : Normal p S n a) (hb : Normal p S n b) :
    Normal p S n (ResiduePoly.add p a b) := (forms_normal p S).mem_add hp ha hb

theorem normal_neg (hp : 0 < p) (ha : Normal p S n a) : Normal p S n (ResiduePoly.neg p a) :=
  (forms_normal p S).mem_neg hp ha

theorem eval_neg {K : Type*} [CommRing K] {x : ℕ → K} (hp : (p : K) = 0) (ha : Normal p S n a) :
    eval x (ResiduePoly.neg p a) = -eval x a := (forms_normal p S).eval_neg hp ha

theorem normal_sub (hp : 0 < p) (ha : Normal p S n a) (hb : Normal p S n b) :
    Normal p S n (ResiduePoly.sub p a b) := (forms_normal p S).mem_sub hp ha hb

theorem eval_sub {K : Type*} [CommRing K] {x : ℕ → K} (hp : (p : K) = 0) (a : ResiduePoly)
    (hb : Normal p S n b) : eval x (ResiduePoly.sub p a b) = eval x a - eval x b :=
  (forms_normal p S).eval_sub hp a hb

theorem normal_scale (hp : p.Prime) {k : ℕ} (hlt : k < p) (ha : Normal p S n a) :
    Normal p S n (scale p k a) := (forms_normal p S).mem_scale hp hlt ha

theorem normal_mul (hp : p.Prime) (ha : Normal p S n a) (hb : Normal p S n b) :
    Normal p S n (ResiduePoly.mul p a b) := (forms_normal p S).mem_mul hp ha hb

theorem normal_shift (hp : 0 < p) (hS : v ∈ S) (k : ℕ) (ha : Normal p S (v + 1) a) :
    Normal p S (v + 1) (a.shift v k) := (forms_normal p S).mem_shift hp (below_succ hS) k ha

theorem normalList_coeffsIn (ha : Normal p S (v + 1) a) : NormalList p S v (a.coeffsIn v) :=
  normalList_iff.2 ((forms_normal p S).mem_coeffsIn ha)

/-- A normal form that is not a polynomial in the highest variable. -/
theorem Normal.of_mainVar?_ne (ha : Normal p S (v + 1) a) (h : a.mainVar? ≠ some v) :
    Normal p S v a := (forms_normal p S).of_mainVar?_ne ha h

theorem exists_getLast?_of_mainVar? (ha : Normal p S n a) (h : a.mainVar? = some v) :
    ∃ cs, a = node v cs ∧ 2 ≤ cs.length ∧ cs.getLast? = some (a.leadingCoeffIn v) :=
  (forms_normal p S).exists_getLast?_of_mainVar? ha h

theorem leadingCoeffIn_spec (ha : Normal p S n a) (h : a.mainVar? = some v) :
    Normal p S v (a.leadingCoeffIn v) ∧ (a.leadingCoeffIn v).isZero = false :=
  (forms_normal p S).leadingCoeffIn_spec ha h

theorem degreeIn_ne_zero_iff (ha : Normal p S n a) : a.degreeIn v ≠ 0 ↔ a.mainVar? = some v :=
  (forms_normal p S).degreeIn_ne_zero_iff ha

end

end ResiduePoly

end Cylindrical
