/-!
# Powers with exponents of 32 bits

The exponent of a number is a word of 32 bits and is read as a signed one.  Below `2 ^ 31` it counts
as it is (`signedPow_of_lt`); from there on it stands for the negative number that is less by
`2 ^ 32`, and the power is a reciprocal.
-/

namespace Cylindrical

/-- The number of words of 32 bits. -/
def wordCount : Nat := Nat.pow 2 32

/-- The power of a number, with the exponent read as a signed word of 32 bits. -/
def signedPow (x : Rat) (k : Nat) : Rat := x.zpow (Int.bmod k wordCount)

theorem signedPow_of_lt (x : Rat) {k : Nat} (h : k < Nat.pow 2 31) : signedPow x k = x.pow k := by
  have hk : Int.bmod k wordCount = k :=
    Int.bmod_eq_of_le_mul_two (by simp only [wordCount, Nat.pow_eq] at *; omega)
      (by simp only [wordCount, Nat.pow_eq] at *; omega)
  rw [signedPow, hk]
  rfl

end Cylindrical
