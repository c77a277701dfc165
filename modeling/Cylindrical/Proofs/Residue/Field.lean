import Mathlib
import Cylindrical.Residue.Field

/-!
# Residues in a ring of prime characteristic

In a commutative ring where `p` is zero, residues modulo `p` stand for elements, and the operations on them
for those of the ring.  The inverse of a nonzero residue is one because the moduli in use are
prime.  The representative of least absolute value is the one between the halves of the modulus.
-/

namespace Cylindrical

namespace Residue

/-! ## Prime moduli -/

theorem not_dvd_of_noOddDivisor {n count d m : ℕ} (h : noOddDivisor n count d = true)
    (hd : d ≤ m) (hmod : m % 2 = d % 2) (hcount : m < d + 2 * count) (hm : m * m ≤ n) :
    ¬m ∣ n := by
  induction count generalizing d with
  | zero => omega
  | succ count ih =>
    rw [noOddDivisor] at h
    split_ifs at h with hlt
    · have : d * d ≤ m * m := Nat.mul_le_mul hd hd
      omega
    · simp only [Bool.and_eq_true, bne_iff_ne] at h
      rcases Nat.lt_or_eq_of_le hd with hd | rfl
      · exact ih h.2 (by omega) (by omega) (by omega)
      · exact fun hdvd => h.1 (Nat.mod_eq_zero_of_dvd hdvd)

theorem prime_of_isOddPrime {k : ℕ} (hk : 0 < k) (h : isOddPrime (2 * k + 1) = true) :
    (2 * k + 1).Prime := by
  by_contra hn
  have hpos : 0 < 2 * k + 1 := by omega
  have hsq := Nat.minFac_sq_le_self hpos hn
  have hprime := Nat.minFac_prime (n := 2 * k + 1) (by omega)
  have hdvd := Nat.minFac_dvd (2 * k + 1)
  have hodd : (2 * k + 1).minFac % 2 = 1 := by
    by_contra hev
    have h2 : 2 ∣ 2 * k + 1 := (Nat.dvd_of_mod_eq_zero (by omega)).trans hdvd
    omega
  have htwo := hprime.two_le
  have hle := Nat.minFac_le hpos
  exact not_dvd_of_noOddDivisor (m := (2 * k + 1).minFac) h (by omega) (by omega) (by omega)
    (by rwa [← pow_two]) hdvd

theorem isOddPrime_mersenne : isOddPrime 2147483647 = true := by decide +kernel

theorem prime_of_mem_oddPrimesBelow {k count p : ℕ} (h : p ∈ oddPrimesBelow k count) :
    p.Prime := by
  induction k generalizing count with
  | zero => cases count <;> simp [oddPrimesBelow] at h
  | succ k ih =>
    cases count with
    | zero => simp [oddPrimesBelow] at h
    | succ count =>
      rw [oddPrimesBelow] at h
      split_ifs at h with hp
      · rcases List.mem_cons.1 h with rfl | h
        · exact prime_of_isOddPrime (Nat.succ_pos k) hp
        · exact ih h
      · exact ih h

theorem prime_of_mem_primes {p : ℕ} (h : p ∈ primes) : p.Prime := prime_of_mem_oddPrimesBelow h

/-! ## Operations -/

section

variable {K : Type*} [CommRing K] {p : ℕ} (hp : (p : K) = 0)

include hp

theorem cast_mod (n : ℕ) : ((n % p : ℕ) : K) = n := by
  conv_rhs => rw [← Nat.div_add_mod n p, Nat.cast_add, Nat.cast_mul, hp, zero_mul, zero_add]

theorem cast_add (a b : ℕ) : ((add p a b : ℕ) : K) = a + b := by
  rw [add, cast_mod hp, Nat.cast_add]

theorem cast_sub {a b : ℕ} (hb : b ≤ a + p) : ((sub p a b : ℕ) : K) = a - b := by
  rw [sub, cast_mod hp, Nat.cast_sub hb, Nat.cast_add, hp, add_zero]

theorem cast_mul (a b : ℕ) : ((mul p a b : ℕ) : K) = a * b := by
  rw [mul, cast_mod hp, Nat.cast_mul]

theorem cast_neg {a : ℕ} (ha : a ≤ p) : ((neg p a : ℕ) : K) = -a := by
  rw [neg, cast_mod hp, Nat.cast_sub ha, hp, zero_sub]

theorem cast_eq_of_modEq {x y : ℤ} (h : x ≡ y [ZMOD p]) : (x : K) = y := by
  obtain ⟨k, hk⟩ := h.dvd
  have := congrArg (Int.cast (R := K)) hk
  rw [Int.cast_mul, Int.cast_natCast, hp, zero_mul, Int.cast_sub] at this
  exact (sub_eq_zero.1 this).symm

theorem cast_ofInt (h0 : p ≠ 0) (n : ℤ) : ((ofInt p n : ℕ) : K) = n := by
  have hpos : (0 : ℤ) < p := by exact_mod_cast Nat.pos_of_ne_zero h0
  have hnn := Int.emod_nonneg n hpos.ne'
  rw [ofInt, ← Int.cast_natCast, Int.toNat_of_nonneg hnn]
  exact cast_eq_of_modEq hp (Int.mod_modEq n p)

end

theorem ofInt_lt {p : ℕ} (h0 : p ≠ 0) (n : ℤ) : ofInt p n < p := by
  have hpos : (0 : ℤ) < p := by exact_mod_cast Nat.pos_of_ne_zero h0
  have := Int.emod_lt_of_pos n hpos
  have := Int.emod_nonneg n hpos.ne'
  rw [ofInt]
  omega

/-! ## Inverses -/

theorem cast_remainder (a b : ℕ) : ((a % b : ℕ) : ℤ) = a - (a / b : ℕ) * b := by
  rw [Int.natCast_mod, Int.natCast_div, Int.emod_def, mul_comm]

/-- The cofactor that the Euclidean algorithm keeps of the second one of its arguments. -/
theorem gcd_modEq_cofactor {p : ℕ} (a : ℤ) (r₀ r₁ : ℕ) (t₀ t₁ : ℤ)
    (h₀ : (r₀ : ℤ) ≡ t₀ * a [ZMOD p]) (h₁ : (r₁ : ℤ) ≡ t₁ * a [ZMOD p]) :
    (Nat.gcd r₀ r₁ : ℤ) ≡ cofactor r₀ r₁ t₀ t₁ * a [ZMOD p] := by
  fun_induction cofactor r₀ r₁ t₀ t₁ with
  | case1 r₀ t₀ t₁ => simpa using h₀
  | case2 r₀ r₁ t₀ t₁ hr _ ih =>
    rw [Nat.gcd_comm, Nat.gcd_rec, Nat.gcd_comm]
    refine ih h₁ ?_
    rw [cast_remainder]
    have := h₀.sub (h₁.mul_left (r₀ / r₁ : ℕ))
    calc _ ≡ t₀ * a - (r₀ / r₁ : ℕ) * (t₁ * a) [ZMOD p] := this
      _ = (t₀ - (r₀ / r₁ : ℕ) * t₁) * a := by ring

theorem inverse_lt {p : ℕ} (h0 : p ≠ 0) (a : ℕ) : inverse p a < p := ofInt_lt h0 _

theorem cast_inverse_mul {K : Type*} [CommRing K] {p : ℕ} (hp : (p : K) = 0) (hprime : p.Prime)
    {a : ℕ} (ha : a ≠ 0) (hlt : a < p) : ((inverse p a : ℕ) : K) * a = 1 := by
  have hgcd : Nat.gcd p a = 1 := (Nat.Prime.coprime_iff_not_dvd hprime).2 fun hdvd =>
    (Nat.le_of_dvd (Nat.pos_of_ne_zero ha) hdvd).not_gt hlt
  have h := gcd_modEq_cofactor (p := p) (a : ℤ) p a 0 1 (by simp)
    (by simp)
  have h := cast_eq_of_modEq hp h
  rw [hgcd, Int.cast_natCast, Nat.cast_one, Int.cast_mul, Int.cast_natCast] at h
  rw [inverse, cast_ofInt hp hprime.ne_zero, ← h]

theorem ofRat?_spec {K : Type*} [CommRing K] {p : ℕ} (hp : (p : K) = 0) (hprime : p.Prime)
    {x : ℚ} {r : ℕ} (h : ofRat? p x = some r) :
    ¬p ∣ x.den ∧ r < p ∧ (r : K) * x.den = x.num := by
  obtain ⟨s, hs, rfl⟩ := Option.map_eq_some_iff.1 h
  rw [inverse?] at hs
  split_ifs at hs with h0
  obtain rfl := Option.some.inj hs
  refine ⟨fun hd => h0 (Nat.mod_eq_zero_of_dvd hd), Nat.mod_lt _ hprime.pos, ?_⟩
  have hinv := cast_inverse_mul hp hprime h0 (Nat.mod_lt _ hprime.pos)
  rw [cast_mod hp] at hinv
  rw [cast_mul hp, cast_ofInt hp hprime.ne_zero, mul_assoc, hinv, mul_one]

theorem cast_inverse {m k : ℕ} (hm : m.Prime) (hk : k ≠ 0) (hlt : k < m) :
    ((inverse m k : ℕ) : ZMod m) = (k : ZMod m)⁻¹ := by
  have := Fact.mk hm
  exact eq_inv_of_mul_eq_one_left (cast_inverse_mul (ZMod.natCast_self m) hm hk hlt)

theorem cast_of_ofRat? {m r : ℕ} (hm : m.Prime) {x : ℚ} (h : ofRat? m x = some r) :
    (r : ZMod m) = x.num * (x.den : ZMod m)⁻¹ := by
  have := Fact.mk hm
  obtain ⟨hdvd, -, hmul⟩ := ofRat?_spec (ZMod.natCast_self m) hm h
  exact (eq_mul_inv_iff_mul_eq₀ (mt (ZMod.natCast_eq_zero_iff _ _).1 hdvd)).2 hmul

/-! ## Representatives of least absolute value -/

theorem symmetric_spec {m k : ℕ} (hk : k < m) : (m : ℤ) ∣ k - symmetric m k ∧
    -(m : ℤ) < 2 * symmetric m k ∧ 2 * symmetric m k ≤ m := by
  rw [symmetric]
  split_ifs with h
  · exact ⟨⟨1, by ring⟩, by omega, by omega⟩
  · exact ⟨⟨0, by ring⟩, by omega, by omega⟩

/-- The representative of least absolute value is the only one between the halves of the modulus. -/
theorem eq_symmetric_iff {m k : ℕ} (hk : k < m) {n : ℤ} : n = symmetric m k ↔
    (n : ZMod m) = k ∧ (n : ℚ) ∈ Set.Ioc (-(m : ℚ) / 2) (m / 2) := by
  have hbounds : (n : ℚ) ∈ Set.Ioc (-(m : ℚ) / 2) (m / 2) ↔ -(m : ℤ) < 2 * n ∧ 2 * n ≤ m := by
    rw [Set.mem_Ioc, div_lt_iff₀' two_pos, le_div_iff₀' two_pos]
    exact and_congr (by exact_mod_cast Iff.rfl) (by exact_mod_cast Iff.rfl)
  have hclass : (n : ZMod m) = k ↔ (m : ℤ) ∣ k - n := by
    rw [← Int.cast_natCast, ZMod.intCast_eq_intCast_iff_dvd_sub]
  obtain ⟨hdvd, hlo, hhi⟩ := symmetric_spec hk
  rw [hbounds, hclass]
  refine ⟨fun h => h ▸ ⟨hdvd, hlo, hhi⟩, ?_⟩
  rintro ⟨hdvd', hlo', hhi'⟩
  -- Two numbers between the halves differ by less than the modulus.
  have hdiff : (m : ℤ) ∣ n - symmetric m k := by simpa using dvd_sub hdvd hdvd'
  have hlt : |n - symmetric m k| < m := abs_lt.2 ⟨by omega, by omega⟩
  exact sub_eq_zero.1 (Int.eq_zero_of_abs_lt_dvd hdiff hlt)

end Residue

end Cylindrical
