import Mathlib
import Cylindrical.Proofs.Residue.Entries
import Cylindrical.Proofs.Sample.Tower

/-!
# Towers at a place

A polynomial has an image modulo a prime when its coefficients are integral at the places over the
prime, so its values at integral points are integral (`Place.value_mem_ring`).  A point where a tower
vanishes is integral at every place, since the defining polynomials are monic, whatever else happens to
them modulo the prime.  Hence the image of the tower vanishes at the residues of the coordinates
(`ResidueTower.vanishesAt_ofPolys?`), where the image of a polynomial has the residue of its value
(`ResidueTower.reduces_reduce`).
-/

noncomputable section

namespace Cylindrical

open ResiduePoly

variable {K : Type*} [Field K] [RationalAlgebra K] {p : ℕ} {x : ℕ → K}

/-! ## Integral values -/

theorem Poly.not_dvd_den_coeff {q : Poly} (h : ∀ s ∈ q.terms, ¬p ∣ s.coeff.den) (v k : ℕ) :
    ∀ s ∈ (q.coeff v k).terms, ¬p ∣ s.coeff.den := fun s hs => by
  obtain ⟨u, hu, rfl⟩ := List.mem_map.1 ((q.perm_terms_coeff v k).mem_iff.1 hs)
  exact h u (List.mem_of_mem_filter hu)

theorem Place.value_mem_ring (hp : p.Prime) (P : Place K p) {q : Poly}
    (hden : ∀ s ∈ q.terms, ¬p ∣ s.coeff.den) (hx : ∀ w ∈ q.toMv.vars, x w ∈ P.ring) :
    q.value x ∈ P.ring := by
  obtain ⟨a, ha⟩ := Option.isSome_iff_exists.1 ((isSome_ofPoly?_iff hp q).2 hden)
  exact (reduces_ofPolyUpTo? hp (fun w hw => P.reduces_point (hx w hw)) ha).1

namespace ResidueTower

/-- A tower of defining polynomials that are monic in their variables. -/
structure IsMonicTower (ds : List (ℕ × Poly)) : Prop extends IsTower ds where
  monic : ∀ d ∈ ds, d.2.MonicIn d.1 (d.2.degreeOf d.1)

variable {ds : List (ℕ × Poly)} {t : ResidueTower}

/-- The image of one level. -/
theorem exists_level_ofPolys? (ht : ofPolys? p ds = some t) {i : ℕ} {d : ℕ × Poly}
    (hd : ds[i]? = some d) :
    ∃ l ∈ t.levels, t.levels[i]? = some l ∧ l.var = d.1 ∧ t.defining i = l.defining := by
  obtain ⟨-, hls⟩ := ofPolys?_eq_some ht
  obtain ⟨hi, rfl⟩ := List.getElem?_eq_some_iff.1 hd
  have hi' := hls.length_eq ▸ hi
  have hl := List.getElem?_eq_getElem hi'
  refine ⟨_, List.getElem_mem hi', hl, (level?_eq_some (hls.get hi hi')).1, ?_⟩
  rw [defining, hl, Option.map_some, Option.getD_some]

variable (hp : p.Prime) (hds : IsMonicTower ds) (ht : ofPolys? p ds = some t)
  (hx : ∀ d ∈ ds, d.2.value x = 0) (P : Place K p)

include hp hds ht hx

/-- The coordinates of the levels are integral at every place. -/
theorem mem_ring_of_ofPolys? (d : ℕ × Poly) (hd : d ∈ ds) : x d.1 ∈ P.ring := by
  obtain ⟨-, hls⟩ := ofPolys?_eq_some ht
  obtain ⟨l, -, hdl⟩ := exists_mem_of_forall₂' hls hd
  have hden := (isSome_ofPoly?_iff hp d.2).1 (by rw [(level?_eq_some hdl).2.1]; rfl)
  refine Place.mem_of_monic ((hds.monic d hd).monic_fiber x).1 (fun n => ?_) (z := x d.1) ?_
  · rw [Poly.coeff_fiber]
    refine P.value_mem_ring hp (Poly.not_dvd_den_coeff hden d.1 n) fun w hw => ?_
    obtain ⟨hle, e, he, rfl⟩ := hds.vars d hd w (Poly.vars_coeff_subset d.1 n d.2 hw)
    have hlt : e.1 < d.1 := lt_of_le_of_ne hle fun heq => Poly.notMem_vars_coeff d.1 n d.2 (heq ▸ hw)
    exact mem_ring_of_ofPolys? e he
  · rw [Polynomial.IsRoot, Poly.eval_fiber, Function.update_eq_self]
    exact hx d hd
termination_by d.1

/-- A polynomial over the tower has the residue of its value as the value of its image. -/
theorem reduces_ofPoly? {r : Poly} {a : ResiduePoly} (hr : ∀ w ∈ r.toMv.vars, ∃ e ∈ ds, e.1 = w)
    (ha : ofPoly? p r = some a) : P.Reduces (r.value x) (a.eval (P.point x)) := by
  refine reduces_ofPolyUpTo? hp (fun w hw => P.reduces_point ?_) ha
  obtain ⟨e, he, rfl⟩ := hr w hw
  exact mem_ring_of_ofPolys? hp hds ht hx P e he

/-- The image of the tower vanishes at the residues of the coordinates. -/
theorem vanishesAt_ofPolys? : t.VanishesAt (P.point x) := by
  obtain ⟨hprime, hls⟩ := ofPolys?_eq_some ht
  refine ⟨by rw [hprime]; exact P.cast_eq_zero, fun l hl => ?_⟩
  obtain ⟨d, hd, hdl⟩ := exists_mem_of_forall₂ hls hl
  have hred := reduces_ofPoly? hp hds ht hx P (fun w hw => (hds.vars d hd w hw).2)
    (level?_eq_some hdl).2.1
  rw [hx d hd] at hred
  exact hred.eq Place.reduces_zero

/-- The reduced image has the residue of the value as well. -/
theorem reduces_reduce {r : Poly} {a : ResiduePoly} (hr : ∀ w ∈ r.toMv.vars, ∃ e ∈ ds, e.1 = w)
    (ha : ofPoly? p r = some a) : P.Reduces (r.value x) ((t.reduce a).eval (P.point x)) := by
  have hvalid := valid_ofPolys? hp hds.toIsTower ht
  obtain ⟨hprime, -⟩ := ofPolys?_eq_some ht
  have htrimmed : Trimmed t.prime t.vars a := by
    rw [hprime]
    exact trimmed_ofPolyUpTo? hp (fun w hw => (mem_vars_ofPolys? ht).2 (hr w hw)) ha
  have hkeeps := (supports_trimmed hvalid t.downClosed_vars).keeps_reduceBelow hvalid
    ((vanishesAt_ofPolys? hp hds ht hx P).below t.levels.length) 0 a htrimmed
  rw [reduce, hkeeps.2]
  exact reduces_ofPoly? hp hds ht hx P hr ha

end ResidueTower

/-! ## Towers of sample points -/

/-- A tower that vanishes at a point: monic levels in order that have each other's variables,
none of them reserved. -/
structure Tower.VanishesAt {A : Type*} [CommRing A] [RationalAlgebra A] (t : Tower) (x : ℕ → A) :
    Prop where
  ordered : Tower.Ordered t.levels
  closed : Tower.Closed t.levels
  value_eq_zero : ∀ l ∈ t.levels, l.defining.value x = 0
  lt_reserved : ∀ l ∈ t.levels, l.var < Poly.reservedVar

namespace Tower

variable {t : Tower} {u : ResidueTower}

theorem VanishesAt.isMonicTower (ht : t.VanishesAt x) :
    ResidueTower.IsMonicTower (t.levels.map fun l => (l.var, l.defining)) where
  increasing := List.pairwise_map.2 ht.ordered.increasing
  le_reserved := List.forall_mem_map.2 fun l hl => (ht.lt_reserved l hl).le
  vars := List.forall_mem_map.2 fun l hl w hw => by
    obtain ⟨k, hk, hkw⟩ := mem_varsOf.1 (ht.closed l hl hw)
    exact ⟨(ht.ordered.monic l hl).vars_le w hw, _, List.mem_map_of_mem hk, hkw⟩
  monic := List.forall_mem_map.2 fun l hl => (ht.ordered.monic l hl).monicIn

section

variable (hp : p.Prime) (ht : t.VanishesAt x) (h : t.image? p = some u)

include h

/-- The image of one level. -/
theorem exists_level_image {i : ℕ} {l : TowerLevel} (hl : t.levels[i]? = some l) :
    ∃ k ∈ u.levels, u.levels[i]? = some k ∧ k.var = l.var ∧ u.defining i = k.defining :=
  ResidueTower.exists_level_ofPolys? h (d := (l.var, l.defining))
    (by rw [List.getElem?_map, hl, Option.map_some])

/-- The degrees of the levels are those of the tower. -/
theorem degreeLE_image {n : ℕ} (hn : ∀ l ∈ t.levels, l.defining.degreeOf l.var ≤ n) :
    u.DegreeLE n := by
  obtain ⟨-, hls⟩ := ResidueTower.ofPolys?_eq_some h
  intro k hk
  obtain ⟨d, hd, hdk⟩ := exists_mem_of_forall₂ hls hk
  obtain ⟨l, hl, rfl⟩ := List.mem_map.1 hd
  obtain ⟨h₁, -, -, h₄, -⟩ := ResidueTower.level?_eq_some hdk
  rw [h₁, h₄]
  exact hn l hl

include hp ht

/-- The image of a tower is valid. -/
theorem valid_image : u.Valid := ResidueTower.valid_ofPolys? hp ht.isMonicTower.toIsTower h

/-- The image of a polynomial is a reduced normal form whose value is the residue of the value. -/
theorem image?_spec (P : Place K p) {r : Poly} {a : ResiduePoly} (hr : u.image? r = some a) {b : ℕ}
    (hb : b ≤ Poly.reservedVar) (hvars : ∀ w ∈ r.toMv.vars, w < b) :
    Normal u.prime u.vars b a ∧ P.Reduces (r.value x) (a.eval (P.point x)) := by
  obtain ⟨hprime, -⟩ := ResidueTower.ofPolys?_eq_some h
  rw [ResidueTower.image?] at hr
  split_ifs at hr with hall
  obtain ⟨c, hc, rfl⟩ := Option.map_eq_some_iff.1 hr
  have hmem : ∀ w ∈ r.toMv.vars, w ∈ u.vars := fun w hw => by
    have := List.all_eq_true.1 hall w (Poly.mem_vars_iff.2 hw)
    obtain ⟨k, hk, hkw⟩ := List.any_eq_true.1 this
    exact ⟨k, hk, by simpa using hkw⟩
  have hnorm := normal_ofPolyUpTo? (hprime ▸ hp) (.of_lt hb hvars) (fun w hw => ⟨hvars w hw, hmem w hw⟩) hc
  rw [hprime] at hc
  exact ⟨(ResidueTower.keeps_reduceBelow (valid_image hp ht h)
      (ResidueTower.vanishesAt_trivial.below _) b c hnorm).1,
    ResidueTower.reduces_reduce hp ht.isMonicTower h (List.forall_mem_map.2 ht.value_eq_zero) P
      (fun w hw => (ResidueTower.mem_vars_ofPolys? h).1 (hmem w hw)) hc⟩

end

end Tower

end Cylindrical

end
