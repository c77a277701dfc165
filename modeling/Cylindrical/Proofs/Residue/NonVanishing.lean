import Mathlib
import Cylindrical.Proofs.Residue.TowerImage
import Cylindrical.Proofs.Residue.TowerPlace

/-!
# Values that do not vanish

Where a tower and a polynomial over it vanish, their images vanish at the residues of the coordinates, so
the greatest common divisor of the image with that of a defining polynomial has this common zero, and
the variable of the level occurs in it.  One greatest common divisor without the variable hence proves that
the polynomial vanishes nowhere on the tower (`value_ne_zero_of_degreeIn_gcd`): the prime need not be lucky,
and the tower may split over the rational numbers and modulo the prime.
-/

noncomputable section

namespace Cylindrical

open ResiduePoly

namespace ResidueTower

variable {p : ℕ} {ds : List (ℕ × Poly)} {t : ResidueTower} {i : ℕ} {d : ℕ × Poly} {r : Poly}
  {a g : ResiduePoly}

/-- The variables of the levels up to `v`. -/
theorem downClosed_le (t : ResidueTower) (v : ℕ) : t.DownClosed {w ∈ t.vars | w ≤ v} :=
  ⟨fun _ hw => hw.1, fun hv hw hle => ⟨hw, hle.trans hv.2⟩⟩

/-- The greatest common divisor with a defining polynomial has the variable of the level if there is a
common zero.  The other polynomial may have its variables out of order. -/
theorem degreeIn_gcd_ne_zero (hp : p.Prime) (hds : IsTower ds) (ht : ofPolys? p ds = some t)
    (hd : ds[i]? = some d) (ha : Trimmed t.prime {w ∈ t.vars | w ≤ d.1} a) {K : Type*} [CommRing K]
    [Nontrivial K] {y : ℕ → K} (hy : t.VanishesAt y) (hya : a.eval y = 0)
    (hg : t.gcd d.1 (t.defining i) a = .ok g) : g.degreeIn d.1 ≠ 0 := by
  have hvalid := valid_ofPolys? hp hds ht
  obtain ⟨l, hl, -, hlv, hdef⟩ := exists_level_ofPolys? ht hd
  rw [hdef, ← hlv] at hg
  rw [← hlv] at ha ⊢
  have hs := supports_trimmed hvalid (t.downClosed_le l.var)
  have hv : l.var ∈ {w ∈ t.vars | w ≤ l.var} := ⟨⟨l, hl, rfl⟩, le_rfl⟩
  obtain ⟨hgt, hmain⟩ := hs.gcd_spec hvalid hy hv (fun _ hu => hu.2) (hs.defining l hl hv)
    (hvalid.mainVar? l hl) (hvalid.monic l hl) ha (hy.eval l hl) hya hg
  exact (hs.forms.degreeIn_ne_zero_iff (n := 0) hgt).2 hmain

/-- A greatest common divisor without the variable proves that an element with these residues of values
vanishes at no point of the tower. -/
theorem value_ne_zero_of_reduces (hp : p.Prime) (hds : IsMonicTower ds) (ht : ofPolys? p ds = some t)
    (hd : ds[i]? = some d) (ha : Trimmed t.prime {w ∈ t.vars | w ≤ d.1} a) {K : Type*} [Field K]
    [RationalAlgebra K] {z : ℕ → K} (hz : ∀ e ∈ ds, e.2.value z = 0)
    (hra : ∀ P : Place K p, P.Reduces (r.value z) (a.eval (P.point z)))
    (hg : t.gcd d.1 (t.defining i) a = .ok g) (h0 : g.degreeIn d.1 = 0) : r.value z ≠ 0 := by
  intro hrz
  have := algebraRat.charZero K
  obtain ⟨P⟩ := Place.exists_place K hp
  have hya := hra P
  rw [hrz] at hya
  exact degreeIn_gcd_ne_zero hp hds.toIsTower ht hd ha (vanishesAt_ofPolys? hp hds ht hz P)
    (hya.eq Place.reduces_zero) hg h0

/-- The reduced image of a polynomial over the tower. -/
theorem exists_image? (hp : p.Prime) (ht : ofPolys? p ds = some t)
    (hr : ∀ w ∈ r.toMv.vars, ∃ e ∈ ds, e.1 = w) (hden : ∀ s ∈ r.terms, ¬p ∣ s.coeff.den) :
    ∃ c, ofPoly? p r = some c ∧ t.image? r = some (t.reduce c) := by
  obtain ⟨c, hc⟩ := Option.isSome_iff_exists.1 ((isSome_ofPoly?_iff hp r).2 hden)
  obtain ⟨hprime, -⟩ := ofPolys?_eq_some ht
  refine ⟨c, hc, ?_⟩
  rw [image?, if_pos, hprime, hc, Option.map_some]
  refine List.all_eq_true.2 fun w hw => List.any_eq_true.2 ?_
  obtain ⟨l, hl, hlw⟩ := (mem_vars_ofPolys? ht).2 (hr w (Poly.mem_vars_iff.1 hw))
  exact ⟨l, hl, by simpa using hlw⟩

/-- A polynomial without the prime in its denominators has an image, and when its greatest common divisor
with a defining polynomial lacks the variable of the level, the polynomial is not zero at any complex
point of the tower. -/
theorem value_ne_zero_of_degreeIn_gcd (hp : p.Prime) (hds : IsMonicTower ds)
    (ht : ofPolys? p ds = some t) (hd : ds[i]? = some d)
    (hr : ∀ w ∈ r.toMv.vars, w ≤ d.1 ∧ ∃ e ∈ ds, e.1 = w) (hden : ∀ s ∈ r.terms, ¬p ∣ s.coeff.den) :
    ∃ a, t.image? r = some a ∧ ∀ g, t.gcd d.1 (t.defining i) a = .ok g → g.degreeIn d.1 = 0 →
      ∀ z : ℕ → ℂ, (∀ e ∈ ds, e.2.value z = 0) → r.value z ≠ 0 := by
  have hvalid := valid_ofPolys? hp hds.toIsTower ht
  obtain ⟨c, hc, himage⟩ := exists_image? hp ht (fun w hw => (hr w hw).2) hden
  obtain ⟨hprime, -⟩ := ofPolys?_eq_some ht
  have htrimmed : Trimmed t.prime {w ∈ t.vars | w ≤ d.1} c := by
    rw [hprime]
    exact trimmed_ofPolyUpTo? hp (fun w hw =>
      ⟨(mem_vars_ofPolys? ht).2 (hr w hw).2, (hr w hw).1⟩) hc
  have hreduced := (supports_trimmed hvalid (t.downClosed_le d.1)).reduceBelow_spec hvalid
    (vanishesAt_trivial.below t.levels.length) 0 c htrimmed
  exact ⟨_, himage, fun g hg h0 z hz => value_ne_zero_of_reduces hp hds ht hd hreduced.1 hz
    (fun P => reduces_reduce hp hds ht hz P (fun w hw => (hr w hw).2) hc) hg h0⟩

/-! ## One is no square root of two -/

/-- The polynomial `x - 1`. -/
def minusOne : Poly := .ofTerms .grLex [⟨1, .ofPower 0 1⟩, ⟨-1, 1⟩]

theorem isMonicTower_squareMinusTwo : IsMonicTower [(0, squareMinusTwo)] where
  toIsTower := isTower_squareMinusTwo
  monic := by
    rw [List.forall_mem_singleton, Poly.MonicIn]
    decide +kernel

theorem vars_minusOne : minusOne.vars = [0] := by decide +kernel

theorem image?_minusOne : rootOfTwo.image? minusOne = some (.node 0 [.const 6, .const 1]) := by
  have hof : ofPoly? 7 minusOne = some (.node 0 [.const 6, .const 1]) := by decide +kernel
  rw [image?, vars_minusOne, if_pos (by rfl), show rootOfTwo.prime = 7 from rfl, hof]
  simp [reduce, rootOfTwo, reduceBelow, reduceList, levelOf?, ResiduePoly.ofCoeffs, ResiduePoly.trim,
    isZero, divRemMonic, reduceCoeffs, divideMonic, degreeIn, mainVar?, defining]

theorem gcd_minusOne :
    rootOfTwo.gcd 0 (rootOfTwo.defining 0) (.node 0 [.const 6, .const 1]) = .ok 1 := by
  have hone : (const 1 == (1 : ResiduePoly)) = true := rfl
  simp [gcd, defining, countBelow, rootOfTwo, reduceCoeffs, reduceBelow, degreeIn, ResiduePoly.ofCoeffs,
    ResiduePoly.trim, gcdLoop, isZero, mainVar?, monicModulo, hone, leadingCoeffIn, divRemMonic,
    divideMonic, shift, coeffsIn, ResiduePoly.sub, ResiduePoly.neg, ResiduePoly.negList,
    ResiduePoly.add, addList, ResiduePoly.mul, scale, scaleCoeffs, scaleCoeffsList, Residue.add,
    Residue.neg, Residue.mul, inverse, inverseUpTo, bind, Except.bind, pure, Except.pure]

/-- Modulo seven `x² - 2` has roots and `x - 1` is prime to it. -/
theorem value_ne_zero_of_degreeIn_gcd_minusOne :
    rootOfTwo.gcd 0 (rootOfTwo.defining 0) (.node 0 [.const 6, .const 1]) = .ok 1 ∧
      ∀ z : ℕ → ℂ, squareMinusTwo.value z = 0 → minusOne.value z ≠ 0 := by
  have hvars : ∀ w ∈ minusOne.toMv.vars, w = 0 := fun w hw => by
    rw [← Poly.mem_vars_iff, vars_minusOne] at hw
    exact List.mem_singleton.1 hw
  obtain ⟨a, ha, hgcd⟩ := value_ne_zero_of_degreeIn_gcd (by decide) isMonicTower_squareMinusTwo
    ofPolys?_squareMinusTwo (i := 0) rfl (r := minusOne)
    (fun w hw => ⟨(hvars w hw).le, _, .head _, (hvars w hw).symm⟩) (by decide +kernel)
  obtain rfl := Option.some.inj (image?_minusOne.symm.trans ha)
  exact ⟨gcd_minusOne, fun z hz => hgcd 1 gcd_minusOne rfl z (by simpa using hz)⟩

end ResidueTower

end Cylindrical

end
