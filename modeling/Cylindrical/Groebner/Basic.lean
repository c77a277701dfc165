import Cylindrical.AlgebraError
import Cylindrical.Monomial.WellOrder
import Cylindrical.StepLimit

/-!
# Gröbner bases

Reduction modulo a list of polynomials ends because leading monomials go down in a well-founded
order (`wellFounded_leadBelow`).  A basis is completed by reducing S-polynomials, pair by pair, up
to a limit on its size; each pair of elements is treated once.  The reduced basis is monic and none
of its monomials is a multiple of another leading monomial.
-/

namespace Cylindrical

/-! ## Leading monomials go down -/

/-- The first list of terms is empty or has a smaller leading monomial. -/
def LeadBelow (o : MonomialOrder) (ts : List Term) : List Term → Prop
  | [] => False
  | u :: _ => ∀ t ∈ ts.head?, o.compare t.monomial u.monomial = .lt

instance (o : MonomialOrder) (ts us : List Term) : Decidable (LeadBelow o ts us) := by
  cases us with
  | nil => exact .isFalse id
  | cons u us => exact inferInstanceAs (Decidable (∀ t ∈ ts.head?, _))

theorem acc_leadBelow_nil (o : MonomialOrder) : Acc (LeadBelow o) [] := .intro _ fun _ h => h.elim

theorem wellFounded_leadBelow (o : MonomialOrder) : WellFounded (LeadBelow o) := by
  have key : ∀ m : Monomial, ∀ t ts, t.monomial = m → Acc (LeadBelow o) (t :: ts) := by
    intro m
    induction m using o.wellFounded.induction with
    | h m ih =>
      intro t ts ht
      refine .intro _ fun us h => ?_
      cases us with
      | nil => exact acc_leadBelow_nil o
      | cons u us => exact ih u.monomial (ht ▸ h u rfl) u us rfl
  refine ⟨fun ts => ?_⟩
  cases ts with
  | nil => exact acc_leadBelow_nil o
  | cons t ts => exact key _ t ts rfl

namespace Poly

/-! ## Reduction -/

/-- The first member of the list whose leading monomial divides that of `t`; the multiple of it
that cancels `t`, as a quotient term and the terms to multiply. -/
def reducer? (t : Term) : List Poly → Option (Term × List Term)
  | [] => none
  | g :: gs =>
    match g.terms with
    | [] => reducer? t gs
    | u :: us =>
      match t.monomial.div? u.monomial with
      | some m => some (⟨t.coeff / u.coeff, m⟩, u :: us)
      | none => reducer? t gs

/-- The irreducible terms that are left when a list of terms is reduced from its leading term down.
An element of the basis that is sorted by another order can raise the leading monomial; after
`rises` such steps the next one ends the reduction. -/
def reduceTerms (o : MonomialOrder) (basis : List Poly) (rises : Nat) (ts : List Term)
    (h : TermList o ts) : List Term :=
  match ts, h with
  | [], _ => []
  | t :: ts, h =>
    match reducer? t basis with
    | none => t :: reduceTerms o basis rises ts h.tail
    | some (q, us) =>
      have rest : TermList o (addTerms o (t :: ts) (mulTerm o ⟨-q.coeff, q.monomial⟩ us)) :=
        h.addTerms (.collectTerms _)
      if LeadBelow o (addTerms o (t :: ts) (mulTerm o ⟨-q.coeff, q.monomial⟩ us)) (t :: ts) then
        reduceTerms o basis rises _ rest
      else
        match rises with
        | 0 => addTerms o (t :: ts) (mulTerm o ⟨-q.coeff, q.monomial⟩ us)
        | rises + 1 => reduceTerms o basis rises _ rest
termination_by (rises, (wellFounded_leadBelow o).wrap ts)
decreasing_by
  · exact Prod.Lex.right _ fun s hs => h.lt_head s (List.mem_of_mem_head? hs)
  · exact Prod.Lex.right _ ‹_›
  · exact Prod.Lex.left _ _ (Nat.lt_succ_self _)

/-- The normal form modulo a list of polynomials, in their order. -/
def normalForm (basis : List Poly) (p : Poly) : Poly :=
  let p := p.withOrder (match basis with | [] => p.order | g :: _ => g.order)
  ofTerms p.order (reduceTerms p.order basis stepLimit p.terms p.valid)

/-- The normal form with coprime integer coefficients and positive leading coefficient, and whether
its sign was changed. -/
def reduceBy (basis : List Poly) (p : Poly) : Poly × Bool :=
  let q := (normalForm basis p).primitive
  if q.leadingCoeff < 0 then (-q, true) else (q, false)

/-- The difference of the multiples of two polynomials that makes their leading terms cancel. -/
def sPolynomial (f g : Poly) : Poly :=
  match f.terms, g.terms with
  | t :: _, u :: _ =>
    let l := t.monomial.lcm u.monomial
    match l.div? t.monomial, l.div? u.monomial with
    | some m, some n => (f.mulMonomial m).scale t.coeff⁻¹ - (g.mulMonomial n).scale u.coeff⁻¹
    | _, _ => 0
  | _, _ => 0

end Poly

/-! ## Completion -/

namespace Groebner

/-- How a basis is completed. -/
structure Config where
  /-- Leave out pairs whose leading monomials have no common variable. -/
  productCriterion : Bool := true
  /-- The size beyond which completion is given up. -/
  maxBasisSize : Nat := 512
deriving Inhabited

/-- Counts of the steps of completion. -/
structure Stats where
  sPolynomials : Nat := 0
  zeroReductions : Nat := 0
  skippedPairs : Nat := 0
  added : Nat := 0
deriving Inhabited

/-- Completion counts its steps, also when it fails. -/
abbrev Completion := EStateM AlgebraError Stats

/-- The pairs of a new element, number `k`, with those before it, the last one first. -/
def pairsWith (k : Nat) : List (Nat × Nat) := (List.range k).reverse.map fun i => (i, k)

/-- All pairs of `n` elements, the last one first. -/
def allPairs (n : Nat) : List (Nat × Nat) := (List.range n).reverse.flatMap pairsWith

/-- Whether the leading monomials have no common variable. -/
def coprimeLeads (f g : Poly) : Bool :=
  match f.leadingMonomial?, g.leadingMonomial? with
  | some m, some n => m.isCoprime n
  | _, _ => true

/-- Treats the pairs one by one; `none` is the unit ideal. -/
def complete (config : Config) :
    Nat → Array Poly → List (Nat × Nat) → Completion (Option (Array Poly))
  | 0, basis, _ => return some basis
  | _, basis, [] => return some basis
  | steps + 1, basis, (i, j) :: pairs => do
    let f := basis.getD i 0
    let g := basis.getD j 0
    if config.productCriterion && coprimeLeads f g then
      modify fun s => { s with skippedPairs := s.skippedPairs + 1 }
      complete config steps basis pairs
    else
      modify fun s => { s with sPolynomials := s.sPolynomials + 1 }
      let r := (f.sPolynomial g).normalForm basis.toList
      if r.isZero then
        modify fun s => { s with zeroReductions := s.zeroReductions + 1 }
        complete config steps basis pairs
      else if r.isConstant then
        return none
      else if config.maxBasisSize ≤ basis.size then
        throw (.basisLimit config.maxBasisSize)
      else
        modify fun s => { s with added := s.added + 1 }
        complete config steps (basis.push r.monic) (pairsWith basis.size ++ pairs)

/-- Whether the element number `i` of a basis, with leading monomial `m`, is superfluous: another
leading monomial divides it, and is different or comes earlier. -/
def isRedundant (basis : List Poly) (i : Nat) (m : Monomial) : Bool :=
  basis.zipIdx.any fun (h, j) =>
    match h.leadingMonomial? with
    | none => false
    | some n => j != i && (m.div? n).isSome && (n != m || j < i)

/-- The elements whose leading monomials are not multiples of others. -/
def minimal (basis : List Poly) : List Poly :=
  (basis.zipIdx.filter fun (g, i) =>
    match g.leadingMonomial? with
    | none => false
    | some m => !isRedundant basis i m).map (·.1)

/-- Reduces every element by all others. -/
def interReduce (basis : List Poly) : List Poly :=
  let basis := minimal basis
  basis.zipIdx.map fun (g, i) => (g.normalForm (basis.eraseIdx i)).monic

/-- The reduced Gröbner basis of an ideal; the unit ideal has the basis `[1]`. -/
def basis (config : Config) (o : MonomialOrder) (generators : List Poly) :
    Completion (List Poly) := do
  let gs := (generators.filter fun g => !g.isZero).map fun g => (g.withOrder o).monic
  if gs.any (·.isConstant) then return [1]
  else
    let n := max gs.length config.maxBasisSize
    match ← complete config (n * n) gs.toArray (allPairs gs.length) with
    | none => return [1]
    | some gs => return interReduce gs.toList

/-- Whether a reduced basis is that of the unit ideal. -/
def isUnitIdeal (basis : List Poly) : Bool := basis.any (·.isConstant)

end Groebner

end Cylindrical
