import Cylindrical.Monomial.Basic

/-!
# Monomial orders

The lexicographic order, in which a larger variable weighs more, and the two graded orders that
refine the total degree: by the lexicographic order, and by the reverse lexicographic order, in
which the smaller power of the least variable wins.  Each is a strict total order
(`MonomialOrder.lt_trans`, `compare_eq_iff`, `compare_eq_gt_iff`).
-/

namespace Cylindrical

/-- Compares two powers by variable, then by exponent. -/
def comparePower (p q : Nat × Nat) : Ordering :=
  (compare p.1 q.1).then (compare p.2 q.2)

/-- Lexicographic comparison of lists of powers that begin with the most significant variable. -/
def lexCompare : List (Nat × Nat) → List (Nat × Nat) → Ordering
  | [], [] => .eq
  | [], _ :: _ => .lt
  | _ :: _, [] => .gt
  | p :: ps, q :: qs => (comparePower p q).then (lexCompare ps qs)

/-- Comparison of lists of powers that begin with the least variable: at the first difference, the
one with the larger exponent is the smaller. -/
def revLexCompare : List (Nat × Nat) → List (Nat × Nat) → Ordering
  | [], [] => .eq
  | [], _ :: _ => .gt
  | _ :: _, [] => .lt
  | p :: ps, q :: qs =>
    ((compare p.1 q.1).then (compare q.2 p.2)).then (revLexCompare ps qs)

/-- The order in which the terms of a polynomial are kept. -/
inductive MonomialOrder where
  | lex
  | grLex
  | gRevLex
deriving DecidableEq, Inhabited

namespace MonomialOrder

def compare : MonomialOrder → Monomial → Monomial → Ordering
  | lex, a, b => lexCompare a.powers b.powers
  | grLex, a, b =>
    (Ord.compare a.totalDegree b.totalDegree).then (lexCompare a.powers b.powers)
  | gRevLex, a, b =>
    (Ord.compare a.totalDegree b.totalDegree).then
      (revLexCompare a.powers.reverse b.powers.reverse)

end MonomialOrder

/-! ## Comparison of powers -/

theorem comparePower_eq_lt {p q : Nat × Nat} :
    comparePower p q = .lt ↔ p.1 < q.1 ∨ p.1 = q.1 ∧ p.2 < q.2 := by
  simp [comparePower, Ordering.then_eq_lt, Nat.compare_eq_lt]

theorem comparePower_eq_eq {p q : Nat × Nat} : comparePower p q = .eq ↔ p = q := by
  simp [comparePower, Ordering.then_eq_eq, Prod.ext_iff]

theorem comparePower_swap (p q : Nat × Nat) : (comparePower p q).swap = comparePower q p := by
  simp [comparePower, Ordering.swap_then, Nat.compare_swap]

theorem lexCompare_cons_eq_lt {p q : Nat × Nat} {ps qs : List (Nat × Nat)} :
    lexCompare (p :: ps) (q :: qs) = .lt ↔
      p.1 < q.1 ∨ p.1 = q.1 ∧ p.2 < q.2 ∨ p = q ∧ lexCompare ps qs = .lt := by
  rw [lexCompare, Ordering.then_eq_lt, comparePower_eq_lt, comparePower_eq_eq, or_assoc]

theorem lexCompare_eq_eq {ps qs : List (Nat × Nat)} : lexCompare ps qs = .eq ↔ ps = qs := by
  induction ps generalizing qs with
  | nil => cases qs <;> simp [lexCompare]
  | cons p ps ih =>
    cases qs with
    | nil => simp [lexCompare]
    | cons q qs => simp [lexCompare, Ordering.then_eq_eq, comparePower_eq_eq, ih]

theorem lexCompare_swap (ps qs : List (Nat × Nat)) :
    (lexCompare ps qs).swap = lexCompare qs ps := by
  induction ps generalizing qs with
  | nil => cases qs <;> rfl
  | cons p ps ih =>
    cases qs with
    | nil => rfl
    | cons q qs => rw [lexCompare, Ordering.swap_then, comparePower_swap, ih, lexCompare]

theorem lexCompare_trans {ps qs rs : List (Nat × Nat)} (h₁ : lexCompare ps qs = .lt)
    (h₂ : lexCompare qs rs = .lt) : lexCompare ps rs = .lt := by
  induction ps generalizing qs rs with
  | nil =>
    cases rs with
    | nil => cases qs <;> simp [lexCompare] at h₂
    | cons r rs => rfl
  | cons p ps ih =>
    cases qs with
    | nil => simp [lexCompare] at h₁
    | cons q qs =>
      cases rs with
      | nil => simp [lexCompare] at h₂
      | cons r rs =>
        rw [lexCompare_cons_eq_lt] at *
        rcases h₁ with h₁ | h₁ | ⟨rfl, h₁⟩ <;> rcases h₂ with h₂ | h₂ | ⟨rfl, h₂⟩ <;>
          first | (left; omega) | (right; left; omega) | exact .inr (.inr ⟨rfl, ih h₁ h₂⟩)

theorem revLexCompare_cons_eq_lt {p q : Nat × Nat} {ps qs : List (Nat × Nat)} :
    revLexCompare (p :: ps) (q :: qs) = .lt ↔
      p.1 < q.1 ∨ p.1 = q.1 ∧ q.2 < p.2 ∨ p = q ∧ revLexCompare ps qs = .lt := by
  simp only [revLexCompare, Ordering.then_eq_lt, Ordering.then_eq_eq, Nat.compare_eq_lt,
    Nat.compare_eq_eq, Prod.ext_iff, @eq_comm _ q.2, or_assoc]

theorem revLexCompare_eq_eq {ps qs : List (Nat × Nat)} :
    revLexCompare ps qs = .eq ↔ ps = qs := by
  induction ps generalizing qs with
  | nil => cases qs <;> simp [revLexCompare]
  | cons p ps ih =>
    cases qs with
    | nil => simp [revLexCompare]
    | cons q qs =>
      simp [revLexCompare, Ordering.then_eq_eq, ih, Prod.ext_iff, @eq_comm _ q.2]

theorem revLexCompare_swap (ps qs : List (Nat × Nat)) :
    (revLexCompare ps qs).swap = revLexCompare qs ps := by
  induction ps generalizing qs with
  | nil => cases qs <;> rfl
  | cons p ps ih =>
    cases qs with
    | nil => rfl
    | cons q qs => simp only [revLexCompare, Ordering.swap_then, Nat.compare_swap, ih]

theorem revLexCompare_trans {ps qs rs : List (Nat × Nat)} (h₁ : revLexCompare ps qs = .lt)
    (h₂ : revLexCompare qs rs = .lt) : revLexCompare ps rs = .lt := by
  induction ps generalizing qs rs with
  | nil => cases qs <;> simp [revLexCompare] at h₁
  | cons p ps ih =>
    cases rs with
    | nil => rfl
    | cons r rs =>
      cases qs with
      | nil => simp [revLexCompare] at h₂
      | cons q qs =>
        rw [revLexCompare_cons_eq_lt] at *
        rcases h₁ with h₁ | h₁ | ⟨rfl, h₁⟩ <;> rcases h₂ with h₂ | h₂ | ⟨rfl, h₂⟩ <;>
          first | (left; omega) | (right; left; omega) | exact .inr (.inr ⟨rfl, ih h₁ h₂⟩)

/-! ## Strict total orders -/

namespace MonomialOrder

variable {o : MonomialOrder} {a b c : Monomial}

theorem compare_swap (o : MonomialOrder) (a b : Monomial) :
    (o.compare a b).swap = o.compare b a := by
  cases o <;>
    simp [compare, Ordering.swap_then, Nat.compare_swap, lexCompare_swap, revLexCompare_swap]

theorem compare_eq_gt_iff : o.compare a b = .gt ↔ o.compare b a = .lt := by
  rw [← compare_swap, Ordering.swap_eq_gt]

theorem compare_eq_iff : o.compare a b = .eq ↔ a = b := by
  constructor
  · intro h
    apply Monomial.ext
    cases o <;>
      simp_all [compare, lexCompare_eq_eq, revLexCompare_eq_eq]
  · rintro rfl
    cases o <;> simp [compare, lexCompare_eq_eq, revLexCompare_eq_eq]

theorem lt_trans (h₁ : o.compare a b = .lt) (h₂ : o.compare b c = .lt) :
    o.compare a c = .lt := by
  cases o with
  | lex => exact lexCompare_trans h₁ h₂
  | grLex =>
    simp only [compare, Ordering.then_eq_lt, Nat.compare_eq_lt, Nat.compare_eq_eq] at *
    rcases h₁ with h₁ | ⟨hd₁, h₁⟩ <;> rcases h₂ with h₂ | ⟨hd₂, h₂⟩ <;>
      first | (left; omega) | exact .inr ⟨hd₁.trans hd₂, lexCompare_trans h₁ h₂⟩
  | gRevLex =>
    simp only [compare, Ordering.then_eq_lt, Nat.compare_eq_lt, Nat.compare_eq_eq] at *
    rcases h₁ with h₁ | ⟨hd₁, h₁⟩ <;> rcases h₂ with h₂ | ⟨hd₂, h₂⟩ <;>
      first | (left; omega) | exact .inr ⟨hd₁.trans hd₂, revLexCompare_trans h₁ h₂⟩

end MonomialOrder

end Cylindrical
