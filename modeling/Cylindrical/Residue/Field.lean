/-!
# Residues modulo a prime

Residues are natural numbers below the modulus `p`; the operations take `p` first.  Inverses come
from the extended Euclidean algorithm, so the inverse of zero is zero.
-/

namespace Cylindrical

namespace Residue

def add (p a b : Nat) : Nat := (a + b) % p

def sub (p a b : Nat) : Nat := (a + p - b) % p

def neg (p a : Nat) : Nat := (p - a) % p

def mul (p a b : Nat) : Nat := a * b % p

/-- The residue of an integer. -/
def ofInt (p : Nat) (n : Int) : Nat := (n % (p : Int)).toNat

/-- The extended Euclidean algorithm on the remainders `r₀` and `r₁` with the cofactors `t₀` and
`t₁`; the cofactor of the last nonzero remainder. -/
def cofactor (r₀ r₁ : Nat) (t₀ t₁ : Int) : Int :=
  if h : r₁ = 0 then t₀
  else
    have : r₀ % r₁ < r₁ := Nat.mod_lt _ (Nat.pos_of_ne_zero h)
    cofactor r₁ (r₀ % r₁) t₁ (t₀ - (r₀ / r₁ : Nat) * t₁)
termination_by r₁

/-- The inverse of a nonzero residue. -/
def inverse (p a : Nat) : Nat := ofInt p (cofactor p a 0 1)

/-- The inverse, `none` for zero. -/
def inverse? (p a : Nat) : Option Nat := if a = 0 then none else some (inverse p a)

/-- The residue of a rational number, `none` if `p` divides the denominator. -/
def ofRat? (p : Nat) (x : Rat) : Option Nat :=
  (inverse? p (x.den % p)).map (mul p (ofInt p x.num))

/-- The representative of least absolute value. -/
def symmetric (p a : Nat) : Int := if p / 2 < a then (a : Int) - (p : Int) else (a : Int)

/-! ## Primes -/

/-- No odd number from `d` on, among the given number of them, divides `n`. -/
def noOddDivisor (n : Nat) : Nat → Nat → Bool
  | 0, _ => true
  | count + 1, d =>
    if n < d * d then true else n % d != 0 && noOddDivisor n count (d + 2)

/-- Whether an odd number above one is prime. -/
def isOddPrime (n : Nat) : Bool := noOddDivisor n n 3

/-- The largest `count` primes of the form `2 * i + 1` with `0 < i ≤ k`, in descending order. -/
def oddPrimesBelow : Nat → Nat → List Nat
  | 0, _ => []
  | _, 0 => []
  | k + 1, count + 1 =>
    let n := 2 * (k + 1) + 1
    if isOddPrime n then n :: oddPrimesBelow k count else oddPrimesBelow k (count + 1)

/-- The 256 largest primes below `2 ^ 31`, in descending order. -/
def primes : List Nat := oddPrimesBelow 1073741823 256

end Residue

end Cylindrical
