import Cylindrical.Residue.Poly

/-!
# Chinese remaindering and rational reconstruction

Images of one polynomial modulo several primes are combined into residues modulo the product of the
primes, from which small rational coefficients are recovered.  A reconstruction that the next image
confirms is reported as stable.
-/

namespace Cylindrical

namespace Residue

/-! ## Rational numbers from residues -/

/-- The Euclidean algorithm, stopped at the first remainder up to `bound`; that remainder and its
cofactor. -/
def boundedCofactor (bound r₀ r₁ : Nat) (t₀ t₁ : Int) : Nat × Int :=
  if h : r₁ ≤ bound then (r₁, t₁)
  else
    have : r₀ % r₁ < r₁ := Nat.mod_lt _ (by omega)
    boundedCofactor bound r₁ (r₀ % r₁) t₁ (t₀ - (r₀ / r₁ : Nat) * t₁)
termination_by r₁

/-- The fraction `n / d` with `n ≡ d * u` modulo `m`, and `n` and `d` up to the square root of
`m / 2` in absolute value. -/
def toRat? (m : Nat) (u : Int) : Option Rat :=
  let bound := (m / 2).sqrt
  let (n, d) := boundedCofactor bound m (ofInt m u) 0 1
  if d = 0 || bound < d.natAbs || Nat.gcd n d.natAbs != 1 then none
  else some ((n : Int) / (d : Int) : Rat)

/-- A list of pairs without those whose key occurs again later. -/
def lastEntries : List (Monomial × Nat) → List (Monomial × Nat)
  | [] => []
  | e :: es => if es.any (·.1 = e.1) then lastEntries es else e :: lastEntries es

/-- Whether a polynomial has the given image modulo `p`. -/
def reducesTo (q : Poly) (p : Nat) (image : List (Monomial × Nat)) : Bool :=
  let entries := lastEntries (image.filter fun e => e.2 != 0)
  q.terms.all (fun t => t.coeff.den % p != 0) &&
    let residues := q.terms.map fun t => (t.monomial, (ofRat? p t.coeff).getD 0)
    let nonzero := residues.filter fun e => e.2 != 0
    nonzero.all (fun e => entries.contains e) && nonzero.length == entries.length

end Residue

/-- Residues of the coefficients of one polynomial modulo a product of primes. -/
structure Reconstruction where
  modulus : Nat := 1
  residues : List (Monomial × Nat) := []
  /-- The last reconstruction. -/
  last : Option Poly := none
  /-- The number of successive images that confirmed the reconstruction before them. -/
  agreements : Nat := 0
  primesUsed : Nat := 0
deriving Inhabited

namespace Reconstruction

/-- The value of a key in a list of pairs, zero if it does not occur. -/
def lookup (m : Monomial) : List (Monomial × Nat) → Nat
  | [] => 0
  | e :: es => if e.1 = m then e.2 else lookup m es

/-- The residue modulo `modulus * p` that is `a` modulo `modulus` and `b` modulo `p`. -/
def combine (modulus p inverse a b : Nat) : Nat :=
  a + modulus * Residue.ofInt p (((b : Int) - (a : Int)) * (inverse : Int))

/-- The polynomial with small rational coefficients that has the residues. -/
def poly? (r : Reconstruction) : Option Poly :=
  (r.residues.mapM fun e =>
    (Residue.toRat? r.modulus e.2).map fun c => (⟨c, e.1⟩ : Term)).map (.ofTerms .grLex)

/-- Adds the image modulo one more prime. -/
def addImage (p : Nat) (image : List (Monomial × Nat)) (r : Reconstruction) : Reconstruction :=
  let agrees := r.last.any fun q => Residue.reducesTo q p image
  let image := Residue.lastEntries image
  let inverse := Residue.inverse p (r.modulus % p)
  let known := r.residues.map fun e =>
    (e.1, combine r.modulus p inverse e.2 (lookup e.1 image))
  let fresh := (image.filter fun e => !r.residues.any (·.1 = e.1)).map fun e =>
    (e.1, combine r.modulus p inverse 0 e.2)
  { modulus := r.modulus * p
    residues := (known ++ fresh).filter fun e => e.2 != 0
    last := r.last
    agreements := if agrees then r.agreements + 1 else 0
    primesUsed := r.primesUsed + 1 }

/-- Adds the image modulo one more prime; a reconstruction is returned when the image confirms it
and does not change it. -/
def add (p : Nat) (image : List (Monomial × Nat)) (r : Reconstruction) :
    Option Poly × Reconstruction :=
  let next := r.addImage p image
  let rec? := next.poly?
  match rec?, r.last with
  | some q, some q' =>
    if 0 < next.agreements && q.sameTerms q' then (some q, next)
    else (none, { next with last := rec? })
  | _, _ => (none, { next with last := rec? })

end Reconstruction

end Cylindrical
