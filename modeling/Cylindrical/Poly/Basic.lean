import Cylindrical.Monomial.Order
import Cylindrical.SignedPower

/-!
# Polynomials with rational coefficients

A polynomial is the list of its terms, strictly descending in its monomial order and without zero
coefficients, so that two polynomials in one order are equal exactly when they have the same terms
(`Poly.ext`).  Every operation builds its result with `insertTerm` or `addTerms`, which keep such
lists (`TermList.insertTerm`, `TermList.addTerms`); the result is in the order of the first operand.
-/

namespace Cylindrical

/-- A coefficient times a power product. -/
structure Term where
  coeff : Rat
  monomial : Monomial
deriving DecidableEq

/-- Lists of terms in strictly descending order with nonzero coefficients. -/
structure TermList (o : MonomialOrder) (ts : List Term) : Prop where
  descending : ts.Pairwise fun s t => o.compare t.monomial s.monomial = .lt
  nonzero : ∀ t ∈ ts, t.coeff ≠ 0

/-- A polynomial in indexed variables. -/
structure Poly where
  order : MonomialOrder
  terms : List Term
  valid : TermList order terms

/-! ## Lists of terms -/

namespace TermList

variable {o : MonomialOrder} {s t : Term} {ts us : List Term}

theorem nil : TermList o [] := ⟨.nil, by simp⟩

theorem tail (h : TermList o (t :: ts)) : TermList o ts :=
  ⟨h.descending.tail, fun s hs => h.nonzero s (.tail _ hs)⟩

theorem lt_head (h : TermList o (t :: ts)) :
    ∀ s ∈ ts, o.compare s.monomial t.monomial = .lt :=
  (List.pairwise_cons.1 h.descending).1

theorem head_ne_zero (h : TermList o (t :: ts)) : t.coeff ≠ 0 := h.nonzero t (.head _)

theorem cons (h : TermList o ts) (hlt : ∀ s ∈ ts, o.compare s.monomial t.monomial = .lt)
    (ht : t.coeff ≠ 0) : TermList o (t :: ts) :=
  ⟨List.pairwise_cons.2 ⟨hlt, h.descending⟩, by
    intro s hs
    cases hs with
    | head => exact ht
    | tail _ hs => exact h.nonzero s hs⟩

theorem singleton (ht : t.coeff ≠ 0) : TermList o [t] := .cons .nil (by simp) ht

theorem filter (h : TermList o ts) (f : Term → Bool) : TermList o (ts.filter f) :=
  ⟨h.descending.filter f, fun s hs => h.nonzero s (List.mem_filter.1 hs).1⟩

theorem mapCoeff (h : TermList o ts) (f : Rat → Rat) (hf : ∀ c, c ≠ 0 → f c ≠ 0) :
    TermList o (ts.map fun t => ⟨f t.coeff, t.monomial⟩) :=
  ⟨List.pairwise_map.2 h.descending, by
    intro s hs
    obtain ⟨t, ht, rfl⟩ := List.mem_map.1 hs
    exact hf _ (h.nonzero t ht)⟩

end TermList

/-- Adds one term to a list of terms. -/
def insertTerm (o : MonomialOrder) (t : Term) : List Term → List Term
  | [] => if t.coeff = 0 then [] else [t]
  | u :: us =>
    match o.compare t.monomial u.monomial with
    | .gt => if t.coeff = 0 then u :: us else t :: u :: us
    | .eq =>
      let c := t.coeff + u.coeff
      if c = 0 then us else ⟨c, u.monomial⟩ :: us
    | .lt => u :: insertTerm o t us

theorem monomial_of_mem_insertTerm {o : MonomialOrder} {t r : Term} {us : List Term}
    (h : r ∈ insertTerm o t us) : r.monomial = t.monomial ∨ ∃ u ∈ us, u.monomial = r.monomial := by
  induction us with
  | nil => grind [insertTerm]
  | cons u us ih => grind [insertTerm]

theorem TermList.insertTerm {o : MonomialOrder} {us : List Term} (h : TermList o us) (t : Term) :
    TermList o (insertTerm o t us) := by
  induction us with
  | nil =>
    rw [Cylindrical.insertTerm]
    split
    · exact .nil
    · exact .singleton ‹_›
  | cons u us ih =>
    rw [Cylindrical.insertTerm]
    split
    · rename_i hgt
      split
      · exact h
      · refine .cons h (fun s hs => ?_) ‹_›
        rw [MonomialOrder.compare_eq_gt_iff] at hgt
        cases hs with
        | head => exact hgt
        | tail _ hs => exact MonomialOrder.lt_trans (h.lt_head s hs) hgt
    · simp only
      split
      · exact h.tail
      · exact .cons h.tail h.lt_head ‹_›
    · rename_i hlt
      refine .cons (ih h.tail) (fun s hs => ?_) h.head_ne_zero
      rcases monomial_of_mem_insertTerm hs with hs | ⟨r, hr, hs⟩
      · exact hs ▸ hlt
      · exact hs ▸ h.lt_head r hr

/-- The sum of two lists of terms. -/
def addTerms (o : MonomialOrder) : List Term → List Term → List Term
  | [], us => us
  | ts, [] => ts
  | t :: ts, u :: us =>
    match o.compare t.monomial u.monomial with
    | .gt => t :: addTerms o ts (u :: us)
    | .lt => u :: addTerms o (t :: ts) us
    | .eq =>
      let c := t.coeff + u.coeff
      if c = 0 then addTerms o ts us else ⟨c, u.monomial⟩ :: addTerms o ts us
termination_by ts us => ts.length + us.length

theorem monomial_of_mem_addTerms {o : MonomialOrder} {r : Term} {ts us : List Term}
    (h : r ∈ addTerms o ts us) :
    (∃ t ∈ ts, t.monomial = r.monomial) ∨ ∃ u ∈ us, u.monomial = r.monomial := by
  fun_induction addTerms o ts us with
  | case1 => exact .inr ⟨r, h, rfl⟩
  | case2 => exact .inl ⟨r, h, rfl⟩
  | case3 => grind
  | case4 => grind
  | case5 => grind
  | case6 => grind

theorem TermList.addTerms {o : MonomialOrder} {ts us : List Term} (ht : TermList o ts)
    (hu : TermList o us) : TermList o (addTerms o ts us) := by
  fun_induction Cylindrical.addTerms o ts us with
  | case1 => exact hu
  | case2 => exact ht
  | case3 t ts u us hgt ih =>
    refine .cons (ih ht.tail hu) (fun s hs => ?_) ht.head_ne_zero
    rw [MonomialOrder.compare_eq_gt_iff] at hgt
    rcases monomial_of_mem_addTerms hs with ⟨r, hr, hs⟩ | ⟨r, hr, hs⟩
    · exact hs ▸ ht.lt_head r hr
    · cases hr with
      | head => exact hs ▸ hgt
      | tail _ hr => exact hs ▸ MonomialOrder.lt_trans (hu.lt_head r hr) hgt
  | case4 t ts u us hlt ih =>
    refine .cons (ih ht hu.tail) (fun s hs => ?_) hu.head_ne_zero
    rcases monomial_of_mem_addTerms hs with ⟨r, hr, hs⟩ | ⟨r, hr, hs⟩
    · cases hr with
      | head => exact hs ▸ hlt
      | tail _ hr => exact hs ▸ MonomialOrder.lt_trans (ht.lt_head r hr) hlt
    · exact hs ▸ hu.lt_head r hr
  | case5 t ts u us heq c hc ih => exact ih ht.tail hu.tail
  | case6 t ts u us heq c hc ih =>
    refine .cons (ih ht.tail hu.tail) (fun s hs => ?_) hc
    rcases monomial_of_mem_addTerms hs with ⟨r, hr, hs⟩ | ⟨r, hr, hs⟩
    · have := ht.lt_head r hr
      rw [MonomialOrder.compare_eq_iff.1 heq] at this
      exact hs ▸ this
    · exact hs ▸ hu.lt_head r hr

/-- Any list of terms, with like terms combined. -/
def collectTerms (o : MonomialOrder) (ts : List Term) : List Term :=
  ts.foldr (insertTerm o) []

theorem TermList.collectTerms {o : MonomialOrder} (ts : List Term) :
    TermList o (collectTerms o ts) := by
  induction ts with
  | nil => exact .nil
  | cons t ts ih => exact ih.insertTerm t

/-- A list of terms multiplied by one term. -/
def mulTerm (o : MonomialOrder) (t : Term) (us : List Term) : List Term :=
  collectTerms o (us.map fun u => ⟨t.coeff * u.coeff, t.monomial * u.monomial⟩)

/-- The product of two lists of terms. -/
def mulTerms (o : MonomialOrder) (ts us : List Term) : List Term :=
  ts.foldr (fun t acc => addTerms o (mulTerm o t us) acc) []

theorem TermList.mulTerms {o : MonomialOrder} (ts us : List Term) :
    TermList o (mulTerms o ts us) := by
  induction ts with
  | nil => exact .nil
  | cons t ts ih => exact (TermList.collectTerms _).addTerms ih

/-! ## Construction -/

namespace Poly

theorem ext {p q : Poly} (ho : p.order = q.order) (ht : p.terms = q.terms) : p = q := by
  cases p
  cases q
  cases ho
  cases ht
  rfl

instance : DecidableEq Poly := fun p q =>
  if h : p.order = q.order ∧ p.terms = q.terms then isTrue (ext h.1 h.2)
  else isFalse fun hpq => h (hpq ▸ ⟨rfl, rfl⟩)

/-- The sum of any terms. -/
def ofTerms (o : MonomialOrder) (ts : List Term) : Poly :=
  ⟨o, collectTerms o ts, .collectTerms ts⟩

/-- The polynomial with its terms in another order. -/
def withOrder (o : MonomialOrder) (p : Poly) : Poly :=
  if p.order = o then p else ofTerms o p.terms

/-- A constant. -/
def const (c : Rat) : Poly := ofTerms .grLex [⟨c, 1⟩]

instance : Zero Poly := ⟨⟨.grLex, [], .nil⟩⟩

instance : One Poly := ⟨const 1⟩

instance : Inhabited Poly := ⟨0⟩

/-- The power `v ^ e`. -/
def ofPower (v e : Nat) : Poly := ofTerms .grLex [⟨1, .ofPower v e⟩]

/-- The variable `v`. -/
def var (v : Nat) : Poly := ofPower v 1

/-- The polynomial in `v` with the given coefficients, from the constant one up. -/
def univariate (v : Nat) (cs : List Rat) : Poly :=
  ofTerms .grLex (cs.zipIdx.map fun c => ⟨c.1, .ofPower v c.2⟩).reverse

/-- The sum of `cᵢ * v ^ i` for polynomial coefficients, from the constant one up. -/
def ofCoeffs (v : Nat) (cs : List Poly) : Poly :=
  ofTerms .grLex <| cs.zipIdx.reverse.flatMap fun c =>
    c.1.terms.map fun t => ⟨t.coeff, t.monomial * .ofPower v c.2⟩

/-! ## Inspection -/

def isZero (p : Poly) : Bool := p.terms.isEmpty

/-- The nonzero constants. -/
def isConstant (p : Poly) : Bool :=
  match p.terms with
  | [t] => t.monomial.isUnit
  | _ => false

/-- Zero or a constant. -/
def isNumber (p : Poly) : Bool := p.isZero || p.isConstant

/-- The value of a number, and zero for any other polynomial. -/
def constantValue (p : Poly) : Rat :=
  match p.terms with
  | [t] => if t.monomial.isUnit then t.coeff else 0
  | _ => 0

def isOne (p : Poly) : Bool := p.isConstant && p.constantValue == 1

/-- Equality of the term lists. -/
def sameTerms (p q : Poly) : Bool := p.terms == q.terms

def totalDegree (p : Poly) : Nat :=
  p.terms.foldl (fun d t => max d t.monomial.totalDegree) 0

/-- The degree in `v`. -/
def degreeOf (v : Nat) (p : Poly) : Nat :=
  p.terms.foldl (fun d t => max d (t.monomial.degreeOf v)) 0

/-- The last index of 32 bits, which is kept to say that there is no variable. -/
def reservedVar : Nat := 4294967295

/-- The larger of two optional variables; the reserved one gives way to any other. -/
def maxVar? : Option Nat → Option Nat → Option Nat
  | none, w => w
  | v, none => v
  | some v, some w => some (if v = reservedVar then w else if w = reservedVar then v else max v w)

/-- The largest variable that comes first in a term; the reserved one only if there is no other. -/
def mainVar? (p : Poly) : Option Nat :=
  p.terms.foldl (fun v t => maxVar? v t.monomial.mainVar?) none

def containsVar (v : Nat) (p : Poly) : Bool :=
  p.terms.any fun t => t.monomial.degreeOf v != 0

/-- Inserts a number into an increasing list without repetition. -/
def insertVar (v : Nat) : List Nat → List Nat
  | [] => [v]
  | w :: ws => if v < w then v :: w :: ws else if v = w then w :: ws else w :: insertVar v ws

/-- The variables that occur, in increasing order. -/
def vars (p : Poly) : List Nat :=
  p.terms.foldl (fun vs t => t.monomial.vars.foldl (fun vs v => insertVar v vs) vs) []

def leadingTerm? (p : Poly) : Option Term := p.terms.head?

def leadingMonomial? (p : Poly) : Option Monomial := p.leadingTerm?.map (·.monomial)

/-- The coefficient of the leading term, zero for the zero polynomial. -/
def leadingCoeff (p : Poly) : Rat :=
  match p.terms with
  | [] => 0
  | t :: _ => t.coeff

/-- The coefficient of the unit monomial. -/
def constantTerm (p : Poly) : Rat :=
  match p.terms.find? (·.monomial.isUnit) with
  | none => 0
  | some t => t.coeff

/-- The coefficient of `v ^ k`, a polynomial in the other variables. -/
def coeff (v k : Nat) (p : Poly) : Poly :=
  ofTerms p.order <| (p.terms.filter fun t => t.monomial.degreeOf v == k).map fun t =>
    ⟨t.coeff, t.monomial.without v⟩

/-- The coefficients with respect to `v`, from the constant one up to the leading one. -/
def coeffs (v : Nat) (p : Poly) : List Poly :=
  (List.range (p.degreeOf v + 1)).map fun k => p.coeff v k

/-- The coefficient of the highest power of `v`. -/
def leadingCoeffOf (v : Nat) (p : Poly) : Poly := p.coeff v (p.degreeOf v)

/-- The polynomial without the terms of highest degree in `v`. -/
def reductum (v : Nat) (p : Poly) : Poly :=
  ⟨p.order, p.terms.filter fun t => t.monomial.degreeOf v < p.degreeOf v, p.valid.filter _⟩

/-- The coefficients of a polynomial in `v` alone, from the constant one up; `none` if another
variable occurs. -/
def univariate? (v : Nat) (p : Poly) : Option (List Rat) :=
  if p.terms.all fun t => t.monomial.powers.all fun q => q.1 == v then
    some ((p.coeffs v).map (·.constantValue))
  else none

/-! ## Ring operations -/

protected def neg (p : Poly) : Poly :=
  ⟨p.order, p.terms.map fun t => ⟨-t.coeff, t.monomial⟩, p.valid.mapCoeff (- ·) (by grind)⟩

instance : Neg Poly := ⟨Poly.neg⟩

protected def add (p q : Poly) : Poly :=
  ⟨p.order, addTerms p.order p.terms (q.withOrder p.order).terms, p.valid.addTerms (by
    rw [withOrder]
    split
    · exact ‹_› ▸ q.valid
    · exact .collectTerms _)⟩

instance : Add Poly := ⟨Poly.add⟩

protected def sub (p q : Poly) : Poly := p + -q

instance : Sub Poly := ⟨Poly.sub⟩

/-- The product with a rational number. -/
def scale (c : Rat) (p : Poly) : Poly :=
  if h : c = 0 then 0
  else ⟨p.order, p.terms.map fun t => ⟨c * t.coeff, t.monomial⟩,
    p.valid.mapCoeff (c * ·) fun _ hd hcd => (Rat.mul_eq_zero.1 hcd).elim h hd⟩

protected def mul (p q : Poly) : Poly :=
  if p.isZero || q.isZero then 0
  else ⟨p.order, mulTerms p.order p.terms q.terms, .mulTerms _ _⟩

instance : Mul Poly := ⟨Poly.mul⟩

def mulMonomial (m : Monomial) (p : Poly) : Poly :=
  ⟨p.order, mulTerm p.order ⟨1, m⟩ p.terms, .collectTerms _⟩

/-- The power `p ^ k` by repeated squaring. -/
def powBySquaring (p : Poly) (k : Nat) : Poly :=
  if k = 0 then 1
  else
    let q := powBySquaring p (k / 2)
    if k % 2 = 1 then q * q * p else q * q

/-- The power `p ^ k`. -/
protected def pow (p : Poly) (k : Nat) : Poly := if k = 1 then p else p.powBySquaring k

/-! ## Derivative, evaluation and substitution -/

/-- The derivative with respect to `v`. -/
def derivative (v : Nat) (p : Poly) : Poly :=
  ofTerms p.order <| p.terms.map fun t =>
    ⟨t.coeff * (t.monomial.degreeOf v : Nat), (t.monomial.div? (.ofPower v 1)).getD 1⟩

/-- The polynomial with `v` replaced by a number. -/
def evalAt (v : Nat) (x : Rat) (p : Poly) : Poly :=
  if p.containsVar v then
    ofTerms p.order <| p.terms.map fun t =>
      ⟨t.coeff * signedPow x (t.monomial.degreeOf v), t.monomial.without v⟩
  else p

/-- The value of a monomial, `none` if a variable has no value. -/
def evalPowers? (x : Nat → Option Rat) : List (Nat × Nat) → Option Rat
  | [] => some 1
  | p :: ps =>
    match x p.1, evalPowers? x ps with
    | some y, some z => some (signedPow y p.2 * z)
    | _, _ => none

/-- The value of a sum of terms, `none` if a variable has no value. -/
def evalTerms? (x : Nat → Option Rat) : List Term → Option Rat
  | [] => some 0
  | t :: ts =>
    match evalPowers? x t.monomial.powers, evalTerms? x ts with
    | some y, some z => some (t.coeff * y + z)
    | _, _ => none

/-- The value of the polynomial, `none` if a variable that occurs has no value. -/
def eval? (x : Nat → Option Rat) (p : Poly) : Option Rat := evalTerms? x p.terms

/-- The polynomial `p` with `v` replaced by `q`. -/
def substitute (v : Nat) (p q : Poly) : Poly :=
  if p.containsVar v then (p.coeffs v).foldr (fun c acc => acc * q + c) 0 else p

/-- Renames the variables. -/
def rename (f : Nat → Nat) (p : Poly) : Poly :=
  ofTerms p.order <| p.terms.map fun t => ⟨t.coeff, t.monomial.rename f⟩

/-! ## Normal forms up to a factor -/

/-- The greatest common divisor of the numerators over the least common multiple of the
denominators: the polynomial divided by it has coprime integer coefficients. -/
def content (p : Poly) : Rat :=
  if p.isZero then 1
  else
    let numerator : Nat := p.terms.foldl (fun g t => Nat.gcd g t.coeff.num.natAbs) 0
    mkRat numerator (p.terms.foldl (fun l t => Nat.lcm l t.coeff.den) 1)

/-- The polynomial divided by its content. -/
def primitive (p : Poly) : Poly := if p.isZero then p else p.scale p.content⁻¹

/-- The multiple with coprime integer coefficients and a positive leading one. -/
def canonical (p : Poly) : Poly :=
  let q := p.primitive
  if q.leadingCoeff < 0 then -q else q

/-- The number `c` for which the polynomial is `c` times its canonical form. -/
def canonicalFactor (p : Poly) : Rat := if p.leadingCoeff < 0 then -p.content else p.content

/-- The multiple with leading coefficient one. -/
def monic (p : Poly) : Poly := if p.isZero then p else p.scale p.leadingCoeff⁻¹

/-- Every term is a positive multiple of a square, and the constant term is one of them. -/
def isDefinitelyPositive (p : Poly) : Bool :=
  0 < p.constantTerm && p.terms.all fun t => 0 < t.coeff && t.monomial.isSquare

def isDefinitelyNegative (p : Poly) : Bool := (-p).isDefinitelyPositive

/-- A sufficient test for a polynomial without real zeros. -/
def isDefinitelyNonzero (p : Poly) : Bool :=
  p.isConstant || p.isDefinitelyPositive || p.isDefinitelyNegative

end Poly

end Cylindrical
