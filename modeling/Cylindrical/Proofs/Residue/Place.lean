import Mathlib
import Cylindrical.Proofs.Focus
import Cylindrical.Proofs.Poly.Value
import Cylindrical.Proofs.Residue.Degree

/-!
# Places of a field over a prime

A valuation ring of a field of characteristic zero, such as the real numbers, in which the prime is
no unit has a residue field of prime characteristic.  Rational numbers without the prime in their
denominators are in the ring, and so are the roots of monic polynomials over it.  The residue of the
value of a rational polynomial is the value of its image modulo the prime at the residues of the
coordinates.
-/

noncomputable section

namespace Cylindrical

/-- A valuation ring of a field in which a prime is no unit. -/
structure Place (K : Type*) [Field K] (p : ℕ) where
  ring : ValuationSubring K
  mem_nonunits : (p : K) ∈ ring.nonunits

namespace Place

variable {K : Type*} [Field K] {p : ℕ}

variable (K) in
theorem exists_place [CharZero K] (hp : p.Prime) : Nonempty (Place K p) := by
  let A : Subring K := (Int.castRingHom K).range
  have hmem : (p : K) ∈ A := ⟨p, by simp⟩
  have hne : Ideal.span {(⟨p, hmem⟩ : A)} ≠ ⊤ := by
    rw [Ne, Ideal.span_singleton_eq_top, isUnit_iff_exists_inv]
    rintro ⟨⟨-, n, rfl⟩, hn⟩
    have hn : (p : K) * (n : K) = 1 := congrArg Subtype.val hn
    have hn : (p : ℤ) * n = 1 := by exact_mod_cast hn
    exact (Nat.prime_iff_prime_int.1 hp).not_isUnit (.of_mul_eq_one n hn)
  obtain ⟨V, -, hV⟩ := Ideal.image_subset_nonunits_valuationSubring _ hne
  exact ⟨V, hV ⟨_, Ideal.mem_span_singleton_self _, rfl⟩⟩

/-- The residue field. -/
abbrev Residue (P : Place K p) : Type _ := IsLocalRing.ResidueField P.ring

variable (P : Place K p)

theorem cast_eq_zero : (p : P.Residue) = 0 := by
  have h : ((p : P.ring) : K) ∈ P.ring.nonunits := by simpa using P.mem_nonunits
  rw [← map_natCast (IsLocalRing.residue P.ring), IsLocalRing.residue_eq_zero_iff]
  exact P.ring.coe_mem_nonunits_iff.1 h

/-- An element is in the valuation ring and has a residue. -/
def Reduces (z : K) (k : P.Residue) : Prop :=
  ∃ h : z ∈ P.ring, IsLocalRing.residue P.ring ⟨z, h⟩ = k

variable {P}

theorem Reduces.add {z w : K} {k l : P.Residue} (hz : P.Reduces z k) (hw : P.Reduces w l) :
    P.Reduces (z + w) (k + l) := by
  obtain ⟨hz, rfl⟩ := hz
  obtain ⟨hw, rfl⟩ := hw
  exact ⟨add_mem hz hw, map_add _ (⟨z, hz⟩ : P.ring) ⟨w, hw⟩⟩

theorem Reduces.mul {z w : K} {k l : P.Residue} (hz : P.Reduces z k) (hw : P.Reduces w l) :
    P.Reduces (z * w) (k * l) := by
  obtain ⟨hz, rfl⟩ := hz
  obtain ⟨hw, rfl⟩ := hw
  exact ⟨mul_mem hz hw, map_mul _ (⟨z, hz⟩ : P.ring) ⟨w, hw⟩⟩

theorem Reduces.eq {z : K} {k l : P.Residue} (hk : P.Reduces z k) (hl : P.Reduces z l) : k = l := by
  obtain ⟨hz, rfl⟩ := hk
  obtain ⟨-, rfl⟩ := hl
  rfl

theorem reduces_intCast (n : ℤ) : P.Reduces n n :=
  ⟨intCast_mem P.ring n, by
    rw [← map_intCast (IsLocalRing.residue P.ring)]
    exact congrArg _ (Subtype.ext (by simp))⟩

theorem reduces_zero : P.Reduces 0 0 := by simpa using reduces_intCast (P := P) 0

theorem natCast_ne_zero {n : ℕ} (hp : p.Prime) (hn : ¬p ∣ n) : (n : P.Residue) ≠ 0 := by
  intro h0
  obtain ⟨a, b, h⟩ := (Nat.isCoprime_iff_coprime.2 ((hp.coprime_iff_not_dvd).2 hn))
  have h := congrArg (Int.cast (R := P.Residue)) h
  push_cast at h
  rw [P.cast_eq_zero, h0, mul_zero, mul_zero, add_zero] at h
  exact zero_ne_one h

/-- A rational number has the residue that is computed for it. -/
theorem reduces_ofRat? (hp : p.Prime) {x : ℚ} {r : ℕ} (h : Cylindrical.Residue.ofRat? p x = some r) :
    P.Reduces x r := by
  obtain ⟨hden, -, hr⟩ := Cylindrical.Residue.ofRat?_spec P.cast_eq_zero hp h
  obtain ⟨hmem, hres⟩ := reduces_intCast (P := P) x.den
  have hne := natCast_ne_zero (P := P) hp hden
  have hunit : IsUnit (⟨_, hmem⟩ : P.ring) := by
    rw [← IsLocalRing.residue_ne_zero_iff_isUnit, hres]
    exact_mod_cast hne
  obtain ⟨⟨u, hu⟩, hinv⟩ := isUnit_iff_exists_inv.1 hunit
  have hinv : ((x.den : ℤ) : K) * u = 1 := congrArg Subtype.val hinv
  rw [Int.cast_natCast] at hinv
  have hx : (x : K) = x.num * u := by
    rw [Rat.cast_def, div_eq_iff (left_ne_zero_of_mul_eq_one hinv), mul_assoc, mul_comm u, hinv, mul_one]
  have hu : P.Reduces u (IsLocalRing.residue P.ring ⟨u, hu⟩) := ⟨hu, rfl⟩
  generalize IsLocalRing.residue P.ring ⟨u, hu.1⟩ = k at hu
  have hone : (x.den : P.Residue) * k = 1 := by
    have h := ((reduces_intCast (P := P) x.den).mul hu).eq
      (l := 1) (by rw [Int.cast_natCast, hinv]; exact_mod_cast reduces_intCast (P := P) 1)
    exact_mod_cast h
  have hrk : (r : P.Residue) = x.num * k := by
    rw [← hr, mul_assoc, hone, mul_one]
  rw [hx, hrk]
  exact (reduces_intCast x.num).mul hu

/-- A root of a monic polynomial over the valuation ring is in it. -/
theorem mem_of_monic {q : Polynomial K} (hq : q.Monic) (h : ∀ n, q.coeff n ∈ P.ring) {z : K}
    (hz : q.IsRoot z) : z ∈ P.ring := by
  have hlift : q ∈ Polynomial.lifts P.ring.subtype := by
    rw [Polynomial.lifts_iff_coeff_lifts]
    exact fun n => ⟨⟨_, h n⟩, rfl⟩
  obtain ⟨r, hr, -, hmonic⟩ := Polynomial.lifts_and_natDegree_eq_and_monic hlift hq
  have hint : IsIntegral P.ring z := ⟨r, hmonic, by
    rw [← Polynomial.eval_map, show algebraMap P.ring K = P.ring.subtype from rfl, hr]
    exact hz⟩
  obtain ⟨y, rfl⟩ := IsIntegrallyClosed.isIntegral_iff.1 hint
  exact y.2

open Classical in
/-- The residues of the coordinates of a point, as far as they are in the valuation ring. -/
def point (P : Place K p) (x : ℕ → K) : ℕ → P.Residue := fun v =>
  if h : x v ∈ P.ring then IsLocalRing.residue P.ring ⟨x v, h⟩ else 0

theorem reduces_point (P : Place K p) {x : ℕ → K} {v : ℕ} (h : x v ∈ P.ring) :
    P.Reduces (x v) (P.point x v) := ⟨h, by rw [point, dif_pos h]⟩

end Place

end Cylindrical

end
