import Mathlib
import Cylindrical.Proofs.Groebner.Multiples
import Cylindrical.Proofs.Poly.Operations

/-!
# Monomial orders are admissible

Each of the three orders is a total order of the power products that multiplication keeps and in which
the empty product is the least (`MonomialOrder.isAdmissible`).  Whatever operation a power product comes
from, its list holds exactly the positive exponents, from the largest variable down, and its total degree
is their sum (`Monomial.operationsExact`).  So the reverse lexicographic comparison of power products of
one total degree may stop where one of the two lists ends (`MonomialOrder.compare_gRevLex`).
-/

namespace Cylindrical

/-! ## Operations -/

namespace Monomial

variable {a b c m : Monomial} {f : ℕ → ℕ}

/-- The list of a power product holds the positive exponents of `f`, from the largest variable down, and
its total degree is their sum. -/
structure Stores (m : Monomial) (f : ℕ → ℕ) : Prop where
  descending : m.powers.Pairwise fun p q => q.1 < p.1
  mem_iff : ∀ v e, (v, e) ∈ m.powers ↔ f v = e ∧ 0 < e
  totalDegree : m.totalDegree = (m.powers.map Prod.snd).sum

theorem degreeSum_eq_sum (ps : List (ℕ × ℕ)) : degreeSum ps = (ps.map Prod.snd).sum := by
  induction ps with
  | nil => rfl
  | cons p ps ih => rw [degreeSum, ih, List.map_cons, List.sum_cons]

theorem mem_powers_iff {v e : ℕ} {ps : List (ℕ × ℕ)} (h : PowerList ps) :
    (v, e) ∈ ps ↔ exponentIn v ps = e ∧ 0 < e := by
  induction ps with
  | nil => simp +contextual [exponentIn, eq_comm]
  | cons p ps ih =>
    obtain ⟨w, k⟩ := p
    have hk : 0 < k := h.head_pos
    rw [List.mem_cons, Prod.mk.injEq, ih h.tail, exponentIn]
    split_ifs with hw
    · have hzero : exponentIn v ps = 0 := exponentIn_of_lt fun q hq => hw ▸ h.lt_head q hq
      simp only at hw
      rw [hzero]
      omega
    · simp only at hw
      omega

theorem stores_of_degreeOf (h : ∀ v, m.degreeOf v = f v) : m.Stores f where
  descending := m.valid.descending
  mem_iff v e := by rw [mem_powers_iff m.valid, ← h v, degreeOf]
  totalDegree := m.totalDegree_eq.trans (degreeSum_eq_sum _)

theorem degreeOf_ofPowers (ps : List (ℕ × ℕ)) (v : ℕ) :
    (ofPowers ps).degreeOf v = ((ps.filter (·.1 == v)).map Prod.snd).sum := by
  rw [← toFinsupp_apply, toFinsupp_ofPowers]
  induction ps with
  | nil => rfl
  | cons p ps ih =>
    rw [exponentsOf_cons, Finsupp.add_apply, ih, Finsupp.single_apply, List.filter_cons]
    by_cases hp : p.1 = v <;> simp [hp]

theorem degreeOf_mul (a b : Monomial) (v : ℕ) :
    (a * b).degreeOf v = a.degreeOf v + b.degreeOf v := by
  rw [← toFinsupp_apply, toFinsupp_mul, Finsupp.add_apply, toFinsupp_apply, toFinsupp_apply]

theorem degreeOf_lcm (a b : Monomial) (v : ℕ) :
    (a.lcm b).degreeOf v = max (a.degreeOf v) (b.degreeOf v) := by
  rw [← toFinsupp_apply, toFinsupp_lcm, Finsupp.sup_apply, toFinsupp_apply, toFinsupp_apply]

theorem degreeOf_without (v w : ℕ) (m : Monomial) :
    (m.without v).degreeOf w = if w = v then 0 else m.degreeOf w := by
  rw [← toFinsupp_apply, toFinsupp_without, Finsupp.erase_apply, toFinsupp_apply]

/-- The total degree of a product need not be summed up again. -/
theorem totalDegree_mul (a b : Monomial) : (a * b).totalDegree = a.totalDegree + b.totalDegree := by
  rw [← degree_toFinsupp, ← degree_toFinsupp, ← degree_toFinsupp, toFinsupp_mul, map_add]

protected theorem mul_comm (a b : Monomial) : a * b = b * a :=
  toFinsupp_injective (by rw [toFinsupp_mul, toFinsupp_mul, add_comm])

/-- The quotient is the cofactor. -/
theorem div?_eq_some_iff : a.div? b = some c ↔ a = b * c := by
  rw [Monomial.mul_comm b c]
  constructor
  · intro h
    exact toFinsupp_injective (by rw [toFinsupp_div? h, toFinsupp_mul])
  · rintro rfl
    exact div?_eq_some (toFinsupp_mul c b)

theorem degreeOf_div? (h : a.div? b = some c) (v : ℕ) :
    c.degreeOf v = a.degreeOf v - b.degreeOf v := by
  rw [div?_eq_some_iff.1 h, degreeOf_mul, Nat.add_sub_cancel_left]

/-- Every operation stores the exponents of its result. -/
structure OperationsExact : Prop where
  ofPowers : ∀ ps : List (ℕ × ℕ),
    (ofPowers ps).Stores fun v => ((ps.filter (·.1 == v)).map Prod.snd).sum
  mul : ∀ a b : Monomial, (a * b).Stores fun v => a.degreeOf v + b.degreeOf v
  totalDegree_mul : ∀ a b : Monomial, (a * b).totalDegree = a.totalDegree + b.totalDegree
  lcm : ∀ a b : Monomial, (a.lcm b).Stores fun v => max (a.degreeOf v) (b.degreeOf v)
  without : ∀ (v : ℕ) (a : Monomial), (a.without v).Stores fun w => if w = v then 0 else a.degreeOf w
  div_iff : ∀ a b c : Monomial, a.div? b = some c ↔ a = b * c
  div : ∀ a b c : Monomial, a.div? b = some c → c.Stores fun v => a.degreeOf v - b.degreeOf v

theorem operationsExact : OperationsExact where
  ofPowers ps := stores_of_degreeOf (degreeOf_ofPowers ps)
  mul a b := stores_of_degreeOf (degreeOf_mul a b)
  totalDegree_mul := totalDegree_mul
  lcm a b := stores_of_degreeOf (degreeOf_lcm a b)
  without v a := stores_of_degreeOf fun w => degreeOf_without v w a
  div_iff _ _ _ := div?_eq_some_iff
  div _ _ _ h := stores_of_degreeOf (degreeOf_div? h)

end Monomial

/-! ## Orders -/

/-- A comparison of power products that orders them totally, is kept by multiplication, and has the empty
product as the least. -/
structure IsAdmissible (cmp : Monomial → Monomial → Ordering) : Prop
    extends Std.TransCmp cmp, Std.LawfulEqCmp cmp where
  mul_left : ∀ m a b, cmp (m * a) (m * b) = cmp a b
  mul_right : ∀ m a b, cmp (a * m) (b * m) = cmp a b
  one_lt : ∀ a, a ≠ 1 → cmp 1 a = .lt

/-- The reverse lexicographic comparison as far as both lists go. -/
def commonRevLexCompare : List (ℕ × ℕ) → List (ℕ × ℕ) → Ordering
  | p :: ps, q :: qs =>
    ((compare p.1 q.1).then (compare q.2 p.2)).then (commonRevLexCompare ps qs)
  | _, _ => .eq

theorem revLexCompare_eq_common {ps qs : List (ℕ × ℕ)} (hp : ∀ p ∈ ps, 0 < p.2)
    (hq : ∀ q ∈ qs, 0 < q.2) (h : degreeSum ps = degreeSum qs) :
    revLexCompare ps qs = commonRevLexCompare ps qs := by
  induction ps generalizing qs with
  | nil =>
    cases qs with
    | nil => rfl
    | cons q qs =>
      have := hq q (.head _)
      simp only [degreeSum] at h
      omega
  | cons p ps ih =>
    cases qs with
    | nil =>
      have := hp p (.head _)
      simp only [degreeSum] at h
      omega
    | cons q qs =>
      rw [revLexCompare, commonRevLexCompare]
      -- the tails only count when the heads are equal, and then they have one degree as well
      cases hhead : (compare p.1 q.1).then (compare q.2 p.2) with
      | lt => rfl
      | gt => rfl
      | eq =>
        rw [Ordering.then_eq_eq, Nat.compare_eq_eq, Nat.compare_eq_eq] at hhead
        simp only [degreeSum] at h
        rw [ih (fun r hr => hp r (.tail _ hr)) (fun r hr => hq r (.tail _ hr)) (by omega)]

namespace MonomialOrder

variable {o : MonomialOrder} {a b c : Monomial}

/-- For power products of one total degree neither list goes on where the other one ends. -/
theorem compare_gRevLex (a b : Monomial) :
    gRevLex.compare a b = (Ord.compare a.totalDegree b.totalDegree).then
      (commonRevLexCompare a.powers.reverse b.powers.reverse) := by
  rw [compare]
  cases hdegree : Ord.compare a.totalDegree b.totalDegree with
  | lt => rfl
  | gt => rfl
  | eq =>
    rw [Nat.compare_eq_eq, a.totalDegree_eq, b.totalDegree_eq] at hdegree
    rw [revLexCompare_eq_common a.valid.reverse.positive b.valid.reverse.positive
      (by rw [degreeSum_reverse, degreeSum_reverse, hdegree])]

theorem isLE_compare_iff : (o.compare a b).isLE ↔ o.compare a b = .lt ∨ a = b := by
  rw [Ordering.isLE_iff_eq_lt_or_eq_eq, compare_eq_iff]

theorem isLE_trans (h₁ : (o.compare a b).isLE) (h₂ : (o.compare b c).isLE) :
    (o.compare a c).isLE := by
  rw [isLE_compare_iff] at *
  rcases h₁ with h₁ | rfl
  · rcases h₂ with h₂ | rfl
    · exact .inl (lt_trans h₁ h₂)
    · exact .inl h₁
  · exact h₂

theorem compare_mul_left (o : MonomialOrder) (m a b : Monomial) :
    o.compare (m * a) (m * b) = o.compare a b := by
  cases h : o.compare a b with
  | lt => exact compare_mul_eq_lt h m
  | eq => exact compare_eq_iff.2 (congrArg (m * ·) (compare_eq_iff.1 h))
  | gt => exact compare_eq_gt_iff.2 (compare_mul_eq_lt (compare_eq_gt_iff.1 h) m)

theorem compare_one_lt (o : MonomialOrder) (h : a ≠ 1) : o.compare 1 a = .lt := by
  rw [compare_eq_lt_iff, Monomial.toFinsupp_one]
  exact exponentLT_zero o fun h0 => h (Monomial.toFinsupp_injective h0)

theorem isAdmissible (o : MonomialOrder) : IsAdmissible o.compare where
  eq_swap := (compare_swap o _ _).symm
  isLE_trans := isLE_trans
  compare_self := compare_eq_iff.2 rfl
  eq_of_compare := compare_eq_iff.1
  mul_left := compare_mul_left o
  mul_right m a b := by rw [Monomial.mul_comm a, Monomial.mul_comm b, compare_mul_left]
  one_lt _ := compare_one_lt o

/-- The orders are admissible on the power products that the operations make, the reverse lexicographic
one also when it stops where one list ends. -/
theorem admissible_on_operations : (∀ o : MonomialOrder, IsAdmissible o.compare) ∧
    IsAdmissible (fun a b => (Ord.compare a.totalDegree b.totalDegree).then
      (commonRevLexCompare a.powers.reverse b.powers.reverse)) ∧
        Monomial.OperationsExact := by
  refine ⟨isAdmissible, ?_, Monomial.operationsExact⟩
  simp only [← compare_gRevLex]
  exact isAdmissible gRevLex

end MonomialOrder

end Cylindrical
