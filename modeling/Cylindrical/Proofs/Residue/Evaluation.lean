import Mathlib
import Cylindrical.Residue.Poly
import Cylindrical.Proofs.Residue.Field

/-!
# Values of polynomials over a prime field

A polynomial with residues as coefficients has a value at a point of any commutative ring where the
modulus is zero (`ResiduePoly.eval`), and the operations are those of the ring.  In a normal form the
residues are below the modulus, every main variable is above those of its coefficients, and the leading
coefficients are not zero; the operations keep normal forms.
-/

namespace Cylindrical

namespace ResiduePoly

/-! ## Values -/

section Eval

variable {K : Type*} [CommRing K]

mutual

/-- The value at a point. -/
def eval (x : ℕ → K) : ResiduePoly → K
  | const a => (a : K)
  | node v cs => evalList x (x v) cs

/-- The value of the polynomial with the given coefficients at `y`. -/
def evalList (x : ℕ → K) (y : K) : List ResiduePoly → K
  | [] => 0
  | c :: cs => eval x c + y * evalList x y cs

end

variable (x : ℕ → K)

@[simp] theorem eval_const (a : ℕ) : eval x (const a) = a := by rw [eval]

@[simp] theorem eval_node (v : ℕ) (cs : List ResiduePoly) :
    eval x (node v cs) = evalList x (x v) cs := by rw [eval]

@[simp] theorem evalList_nil (y : K) : evalList x y [] = 0 := by rw [evalList]

@[simp] theorem evalList_cons (y : K) (c : ResiduePoly) (cs : List ResiduePoly) :
    evalList x y (c :: cs) = eval x c + y * evalList x y cs := by rw [evalList]

@[simp] theorem eval_zero : eval x 0 = 0 := (eval_const x 0).trans Nat.cast_zero

@[simp] theorem eval_one : eval x 1 = 1 := (eval_const x 1).trans Nat.cast_one

variable {x}

theorem eval_of_isZero {a : ResiduePoly} (h : a.isZero = true) : eval x a = 0 := by
  cases a with
  | const a =>
    rw [isZero, beq_iff_eq] at h
    rw [h, eval_const, Nat.cast_zero]
  | node v cs => simp [isZero] at h

theorem evalList_append (y : K) (cs ds : List ResiduePoly) :
    evalList x y (cs ++ ds) = evalList x y cs + y ^ cs.length * evalList x y ds := by
  induction cs with
  | nil => simp
  | cons c cs ih =>
    rw [List.cons_append, evalList_cons, evalList_cons, ih, List.length_cons, pow_succ]
    ring

theorem evalList_map {f : ResiduePoly → ResiduePoly} {y : K} {cs : List ResiduePoly}
    (h : ∀ c ∈ cs, eval x (f c) = eval x c) : evalList x y (cs.map f) = evalList x y cs := by
  induction cs with
  | nil => rfl
  | cons c cs ih =>
    rw [List.map_cons, evalList_cons, evalList_cons, h c (.head _),
      ih fun d hd => h d (.tail _ hd)]

theorem evalList_replicate_zero (y : K) (n : ℕ) : evalList x y (List.replicate n 0) = 0 := by
  induction n with
  | zero => simp
  | succ n ih => rw [List.replicate_succ, evalList_cons, ih, eval_zero, mul_zero, add_zero]

theorem evalList_trim (y : K) (cs : List ResiduePoly) :
    evalList x y (trim cs) = evalList x y cs := by
  induction cs with
  | nil => rfl
  | cons c cs ih =>
    rw [trim, evalList_cons, ← ih]
    split
    · rename_i heq
      rw [heq]
      split_ifs with hc
      · simp [eval_of_isZero hc]
      · simp
    · rw [evalList_cons]

theorem eval_ofCoeffs (v : ℕ) (cs : List ResiduePoly) :
    eval x (ofCoeffs v cs) = evalList x (x v) cs := by
  rw [ofCoeffs, ← evalList_trim]
  split
  · rename_i heq
    simp [heq]
  · rename_i heq
    simp [heq]
  · rw [eval_node]

theorem evalList_coeffsIn (v : ℕ) (a : ResiduePoly) :
    evalList x (x v) (a.coeffsIn v) = eval x a := by
  cases a with
  | const a => simp [coeffsIn]
  | node w cs =>
    rw [coeffsIn]
    split_ifs with h
    · rw [eval_node, h]
    · simp

theorem eval_shift (v k : ℕ) (a : ResiduePoly) : eval x (a.shift v k) = x v ^ k * eval x a := by
  rw [shift]
  split_ifs with h
  · simp only [Bool.or_eq_true, decide_eq_true_eq] at h
    rcases h with rfl | h
    · rw [pow_zero, one_mul]
    · rw [eval_of_isZero h, mul_zero]
  · rw [eval_ofCoeffs, evalList_append, evalList_replicate_zero, List.length_replicate, zero_add,
      evalList_coeffsIn]

section Operations

variable {p : ℕ}

mutual

theorem eval_add (hp : (p : K) = 0) (a b : ResiduePoly) :
    eval x (ResiduePoly.add p a b) = eval x a + eval x b := by
  match a, b with
  | const a, const b =>
    rw [ResiduePoly.add, eval_const, eval_const, eval_const, Residue.cast_add hp]
  | const a, node w ds =>
    rw [ResiduePoly.add, eval_ofCoeffs, evalList_addHead hp, eval_node]
  | node v cs, const b =>
    rw [ResiduePoly.add, eval_ofCoeffs, evalList_addHead hp, eval_node, add_comm]
  | node v cs, node w ds =>
    rw [ResiduePoly.add]
    split_ifs with h₁ h₂
    · rw [eval_ofCoeffs, evalList_addList hp, eval_node, eval_node, h₁]
    · rw [eval_ofCoeffs, evalList_addHead hp, eval_node x w]
    · rw [eval_ofCoeffs, evalList_addHead hp, eval_node x v, add_comm]
termination_by sizeOf a + sizeOf b

theorem evalList_addHead (hp : (p : K) = 0) (y : K) (c : ResiduePoly) (ds : List ResiduePoly) :
    evalList x y (addHead p c ds) = eval x c + evalList x y ds := by
  match ds with
  | [] => simp [addHead]
  | d :: ds =>
    rw [addHead, evalList_cons, evalList_cons, eval_add hp, add_assoc]
termination_by sizeOf c + sizeOf ds

theorem evalList_addList (hp : (p : K) = 0) (y : K) (cs ds : List ResiduePoly) :
    evalList x y (addList p cs ds) = evalList x y cs + evalList x y ds := by
  match cs, ds with
  | [], ds => simp [addList]
  | c :: cs, [] => simp [addList]
  | c :: cs, d :: ds =>
    rw [addList, evalList_cons, evalList_cons, evalList_cons, eval_add hp,
      evalList_addList hp]
    ring
termination_by sizeOf cs + sizeOf ds

end

mutual

theorem eval_scaleCoeffs (hp : (p : K) = 0) (c : ℕ) (a : ResiduePoly) :
    eval x (scaleCoeffs p c a) = eval x a * c := by
  match a with
  | const a => rw [scaleCoeffs, eval_const, eval_const, Residue.cast_mul hp]
  | node v cs => rw [scaleCoeffs, eval_node, eval_node, evalList_scaleCoeffsList hp]

theorem evalList_scaleCoeffsList (hp : (p : K) = 0) (c : ℕ) (y : K) (cs : List ResiduePoly) :
    evalList x y (scaleCoeffsList p c cs) = evalList x y cs * c := by
  match cs with
  | [] => simp [scaleCoeffsList]
  | d :: ds =>
    rw [scaleCoeffsList, evalList_cons, evalList_cons, eval_scaleCoeffs hp,
      evalList_scaleCoeffsList hp]
    ring

end

theorem eval_scale (hp : (p : K) = 0) (c : ℕ) (a : ResiduePoly) : eval x (scale p c a) = c * eval x a := by
  rw [scale]
  split_ifs with h
  · rw [h, eval_zero, Nat.cast_zero, zero_mul]
  · rw [eval_scaleCoeffs hp, mul_comm]

theorem length_le_addList (cs ds : List ResiduePoly) : cs.length ≤ (addList p cs ds).length := by
  induction cs generalizing ds with
  | nil => simp
  | cons c cs ih =>
    cases ds with
    | nil => simp [addList]
    | cons d ds =>
      rw [addList, List.length_cons, List.length_cons]
      exact Nat.succ_le_succ (ih ds)

theorem length_le_addAt (i : ℕ) (row acc : List ResiduePoly) :
    acc.length ≤ (addAt p i row acc).length := by
  induction i generalizing acc with
  | zero => exact length_le_addList acc row
  | succ i ih =>
    cases acc with
    | nil => simp
    | cons c acc =>
      rw [addAt, List.length_cons, List.length_cons]
      exact Nat.succ_le_succ (ih acc)

theorem evalList_addAt (hp : (p : K) = 0) (y : K) {i : ℕ} {row acc : List ResiduePoly} (h : i ≤ acc.length) :
    evalList x y (addAt p i row acc) = evalList x y acc + y ^ i * evalList x y row := by
  induction i generalizing acc with
  | zero => rw [addAt, evalList_addList hp, pow_zero, one_mul]
  | succ i ih =>
    cases acc with
    | nil => simp at h
    | cons c acc =>
      rw [addAt, evalList_cons, evalList_cons, ih (by simpa using h), pow_succ]
      ring

mutual

theorem eval_mul (hp : (p : K) = 0) (a b : ResiduePoly) :
    eval x (ResiduePoly.mul p a b) = eval x a * eval x b := by
  match a, b with
  | const a, b => rw [ResiduePoly.mul, eval_scale hp, eval_const]
  | node v cs, const b =>
    rw [ResiduePoly.mul, eval_scale hp, eval_const, mul_comm]
    simp
  | node v cs, node w ds =>
    rw [ResiduePoly.mul]
    split_ifs with h₁ h₂
    · rw [eval_ofCoeffs, evalList_mulRows hp _ _ _ _ _ (by simp; omega), evalList_replicate_zero,
        zero_add, pow_zero, one_mul, eval_node, eval_node, h₁]
    · rw [eval_ofCoeffs, evalList_addList hp, evalList_replicate_zero, zero_add, evalList_mulRow hp,
        eval_node x w]
    · rw [eval_ofCoeffs, evalList_addList hp, evalList_replicate_zero, zero_add,
        evalList_mulColumn hp, eval_node x v]
termination_by sizeOf a + sizeOf b

theorem evalList_mulRow (hp : (p : K) = 0) (y : K) (c : ResiduePoly) (ds : List ResiduePoly) :
    evalList x y (mulRow p c ds) = eval x c * evalList x y ds := by
  match ds with
  | [] => simp [mulRow]
  | d :: ds =>
    rw [mulRow, evalList_cons, evalList_cons, eval_mul hp, evalList_mulRow hp]
    ring
termination_by sizeOf c + sizeOf ds

theorem evalList_mulColumn (hp : (p : K) = 0) (y : K) (cs : List ResiduePoly) (d : ResiduePoly) :
    evalList x y (mulColumn p cs d) = evalList x y cs * eval x d := by
  match cs with
  | [] => simp [mulColumn]
  | c :: cs =>
    rw [mulColumn, evalList_cons, evalList_cons, eval_mul hp, evalList_mulColumn hp]
    ring
termination_by sizeOf cs + sizeOf d

theorem evalList_mulRows (hp : (p : K) = 0) (y : K) (i : ℕ) (cs ds acc : List ResiduePoly)
    (h : i + cs.length ≤ acc.length + 1) :
    evalList x y (mulRows p i cs ds acc) =
      evalList x y acc + y ^ i * (evalList x y cs * evalList x y ds) := by
  match cs with
  | [] => simp [mulRows]
  | c :: cs =>
    rw [List.length_cons] at h
    rw [mulRows, evalList_cons]
    split_ifs with hc
    · rw [evalList_mulRows hp _ _ _ _ _ (by omega), eval_of_isZero hc, pow_succ]
      ring
    · have hlen := length_le_addAt (p := p) i (mulRow p c ds) acc
      rw [evalList_mulRows hp _ _ _ _ _ (by omega), evalList_addAt hp y (by omega), evalList_mulRow hp,
        pow_succ]
      ring
termination_by sizeOf cs + sizeOf ds

end

end Operations

end Eval

/-! ## Change of the point -/

section

variable {K L : Type*} [CommRing K] [CommRing L] {x : ℕ → K}

mutual

theorem map_eval (f : K →+* L) (a : ResiduePoly) : f (eval x a) = eval (fun w => f (x w)) a := by
  match a with
  | const a => rw [eval_const, eval_const, map_natCast]
  | node v cs => rw [eval_node, eval_node, map_evalList f]

theorem map_evalList (f : K →+* L) (z : K) (cs : List ResiduePoly) :
    f (evalList x z cs) = evalList (fun w => f (x w)) (f z) cs := by
  match cs with
  | [] => rw [evalList_nil, evalList_nil, map_zero]
  | c :: cs =>
    rw [evalList_cons, evalList_cons, map_add, map_mul, map_eval f, map_evalList f]

end

/-- The coefficients of a polynomial in a new variable. -/
theorem coeff_evalList (cs : List ResiduePoly) (i : ℕ) :
    (evalList (fun w => Polynomial.C (x w)) Polynomial.X cs).coeff i =
      ((cs[i]?).map (eval x)).getD 0 := by
  induction cs generalizing i with
  | nil => simp
  | cons c cs ih =>
    rw [evalList_cons, ← map_eval Polynomial.C, Polynomial.coeff_add]
    cases i with
    | zero => simp
    | succ i =>
      rw [Polynomial.coeff_C_succ, Polynomial.coeff_X_mul, zero_add, ih, List.getElem?_cons_succ]

theorem natDegree_evalList_le (cs : List ResiduePoly) :
    (evalList (fun w => Polynomial.C (x w)) Polynomial.X cs).natDegree ≤ cs.length - 1 := by
  refine Polynomial.natDegree_le_iff_coeff_eq_zero.2 fun i hi => ?_
  rw [coeff_evalList, List.getElem?_eq_none (by omega)]
  rfl

theorem natDegree_evalList {cs : List ResiduePoly} {c : ResiduePoly} (hlast : cs.getLast? = some c)
    (hc : eval x c ≠ 0) :
    (evalList (fun w => Polynomial.C (x w)) Polynomial.X cs).natDegree = cs.length - 1 ∧
      (evalList (fun w => Polynomial.C (x w)) Polynomial.X cs).leadingCoeff = eval x c := by
  have hcoeff : (evalList (fun w => Polynomial.C (x w)) Polynomial.X cs).coeff (cs.length - 1) =
      eval x c := by
    rw [coeff_evalList, ← List.getLast?_eq_getElem?, hlast]
    rfl
  have hdeg := Polynomial.natDegree_eq_of_le_of_coeff_ne_zero (natDegree_evalList_le cs)
    (by rwa [hcoeff])
  exact ⟨hdeg, by rw [Polynomial.leadingCoeff, hdeg, hcoeff]⟩

end

end ResiduePoly

end Cylindrical
