import Mathlib
import Cylindrical.Proofs.Residue.Image

/-!
# Arithmetic modulo the image of a tower

Modulo a prime the levels of a tower need not stay irreducible.  In the image of a tower a reduced element
is inverted or splits a level (`inverse_spec`), and a greatest common divisor over the levels below a variable is
found or splits one of them (`gcd_isGcdBelow`).
-/

noncomputable section

namespace Cylindrical

namespace ResidueTower

open ResiduePoly

variable {p : ℕ} {ds : List (ℕ × Poly)} {t : ResidueTower}

/-! ## Reduced elements -/

/-- A remainder modulo all levels is itself reduced. -/
theorem reduced_reduce (ht : t.Valid) {b : ℕ} {c : ResiduePoly} (hc : Normal t.prime t.vars b c) :
    t.Reduced (t.reduce c) := reduced_reduceBelow ht (t.countBelow_le_length b) c hc

/-- The elements that are their own remainders. -/
theorem reduce_eq_self_iff (ht : t.Valid) {b : ℕ} {c : ResiduePoly}
    (hc : Normal t.prime t.vars b c) : t.reduce c = c ↔ t.Reduced c := by
  refine ⟨fun h => h ▸ reduced_reduce ht hc, fun h => ?_⟩
  obtain ⟨v, hbv, hv⟩ := t.exists_countBelow_eq_length b
  have hcv := hc.mono hbv
  obtain ⟨hn, he⟩ := keeps_reduceBelow ht (vanishesBelow_point (v := v)) v c hcv
  rw [reduce, ← hv]
  exact (separates_point ht v v).eq hn hcv (reduced_reduceBelow ht le_rfl c hcv) h he

/-! ## Inverses -/

/-- A reduced element has an inverse, or what is met in its place is a proper factor of a level and
splits it. -/
theorem inverse_spec (hp : p.Prime) (hds : IsTower ds) (ht : ofPolys? p ds = some t) {b : ℕ}
    {c : ResiduePoly} (hc : Normal t.prime t.vars b c) (hred : t.reduce c = c) (h0 : c ≠ 0) :
    (∃ i, t.inverse c = .ok i ∧ t.reduce (ResiduePoly.mul t.prime c i) = 1) ∨
      ∃ z l, t.inverse c = .error z ∧ t.levels[z.level]? = some l ∧ t.IsProperFactor l z.factor ∧
        ∃ g, (t.recordSplit z).levels =
            t.levels.set z.level { l with split := some (z.factor, g) } ∧
          t.reduceBelow z.level (ResiduePoly.mul t.prime z.factor g) =
            t.reduceBelow z.level l.defining := by
  have hvalid := valid_ofPolys? hp hds ht
  cases h : t.inverse c with
  | ok i =>
    have hz : c.isZero = false := Bool.eq_false_iff.2 fun hz => h0 (eq_zero_of_isZero hz)
    exact .inl ⟨i, rfl, reduce_mul_inverse hvalid hc hz h⟩
  | error z =>
    obtain ⟨l, hl, -, hf⟩ := inverseUpTo_eq_error hvalid _
      ((t.countBelow_le_length b).trans (Nat.le_add_left _ stepLimit)) hc
      ((reduce_eq_self_iff hvalid hc).1 hred) h
    exact .inr ⟨z, l, rfl, hl, hf, _, levels_recordSplit hl, reduceBelow_mul_cofactor hvalid hl hf⟩

/-! ## Greatest common divisors -/

/-- A greatest common divisor over the levels below `v` is found, or what is met in its place is a proper
factor of one of them. -/
theorem gcd_isGcdBelow (hp : p.Prime) (hds : IsTower ds) (ht : ofPolys? p ds = some t) {v : ℕ}
    {a b : ResiduePoly} (ha : Normal t.prime (insert v t.vars) (v + 1) a)
    (hb : Normal t.prime (insert v t.vars) (v + 1) b) :
    (∀ g, t.gcd v a b = .ok g → t.IsGcdBelow v g a b) ∧
      ∀ z, t.gcd v a b = .error z →
        ∃ l, t.levels[z.level]? = some l ∧ l.var < v ∧ t.IsProperFactor l z.factor :=
  have hvalid := valid_ofPolys? hp hds ht
  ⟨fun _ => isGcdBelow_gcd hvalid ha hb, fun _ => gcd_eq_error hvalid ha hb⟩

/-! ## A square root of two modulo seven -/

/-- The polynomial `x² - 2`, which has the root three modulo seven. -/
def squareMinusTwo : Poly := .ofTerms .grLex [⟨1, .ofPower 0 2⟩, ⟨-2, 1⟩]

/-- The image of its tower. -/
def rootOfTwo : ResidueTower := ⟨7, [{ var := 0, defining := .node 0 [.const 5, .const 0, .const 1] }]⟩

theorem isTower_squareMinusTwo : IsTower [(0, squareMinusTwo)] := by
  refine ⟨List.pairwise_singleton _ _, by simp, ?_⟩
  simp only [List.mem_singleton, forall_eq, exists_eq_left]
  intro w hw
  have hvars : squareMinusTwo.vars = [0] := by decide +kernel
  rw [← Poly.mem_vars_iff, hvars, List.mem_singleton] at hw
  exact ⟨hw.le, hw.symm⟩

theorem ofPolys?_squareMinusTwo : ofPolys? 7 [(0, squareMinusTwo)] = some rootOfTwo := by
  have hof : ofPoly? 7 squareMinusTwo = some (.node 0 [.const 5, .const 0, .const 1]) := by
    decide +kernel
  have hdegree : squareMinusTwo.degreeOf 0 = 2 := by decide +kernel
  have hlevel : level? 7 0 squareMinusTwo =
      some { var := 0, defining := .node 0 [.const 5, .const 0, .const 1] } := by
    rw [level?, hof]
    dsimp only
    rw [hdegree]
    rfl
  rw [ofPolys?, List.mapM_cons, hlevel]
  rfl

theorem vars_rootOfTwo : rootOfTwo.vars = {0} := by
  ext v
  simp [vars, rootOfTwo, eq_comm]

/-- The element `x - 3` is not zero, but divides `x² - 2`. -/
theorem inverse_spec_rootOfTwo :
    (∃ i, rootOfTwo.inverse (.node 0 [.const 4, .const 1]) = .ok i ∧
        rootOfTwo.reduce (ResiduePoly.mul 7 (.node 0 [.const 4, .const 1]) i) = 1) ∨
      ∃ z l, rootOfTwo.inverse (.node 0 [.const 4, .const 1]) = .error z ∧
        rootOfTwo.levels[z.level]? = some l ∧ rootOfTwo.IsProperFactor l z.factor ∧
          ∃ g, (rootOfTwo.recordSplit z).levels =
              rootOfTwo.levels.set z.level { l with split := some (z.factor, g) } ∧
            rootOfTwo.reduceBelow z.level (ResiduePoly.mul 7 z.factor g) =
              rootOfTwo.reduceBelow z.level l.defining := by
  have hprime : Nat.Prime 7 := by decide
  have hc : Normal rootOfTwo.prime rootOfTwo.vars 1 (.node 0 [.const 4, .const 1]) := by
    rw [vars_rootOfTwo]
    simp [normal_node, rootOfTwo, trim, isZero]
  have hreduced : rootOfTwo.Reduced (.node 0 [.const 4, .const 1]) := by
    simp [reduced_node, rootOfTwo, degreeIn]
  have hvalid := valid_ofPolys? hprime isTower_squareMinusTwo ofPolys?_squareMinusTwo
  exact inverse_spec hprime isTower_squareMinusTwo ofPolys?_squareMinusTwo hc
    ((reduce_eq_self_iff hvalid hc).2 hreduced) (by decide)

/-- The polynomials `y² - 2` and `y + x` over the square root `x`. -/
theorem gcd_isGcdBelow_rootOfTwo :
    (∀ g, rootOfTwo.gcd 1 (.node 1 [.const 5, .const 0, .const 1])
        (.node 1 [.node 0 [.const 0, .const 1], .const 1]) = .ok g →
      rootOfTwo.IsGcdBelow 1 g (.node 1 [.const 5, .const 0, .const 1])
        (.node 1 [.node 0 [.const 0, .const 1], .const 1])) ∧
      ∀ z, rootOfTwo.gcd 1 (.node 1 [.const 5, .const 0, .const 1])
          (.node 1 [.node 0 [.const 0, .const 1], .const 1]) = .error z →
        ∃ l, rootOfTwo.levels[z.level]? = some l ∧ l.var < 1 ∧ rootOfTwo.IsProperFactor l z.factor := by
  have hprime : Nat.Prime 7 := by decide
  refine gcd_isGcdBelow hprime isTower_squareMinusTwo ofPolys?_squareMinusTwo ?_ ?_ <;>
    rw [vars_rootOfTwo] <;> simp [normal_node, rootOfTwo, trim, isZero]

end ResidueTower

end Cylindrical

end
