import Mathlib
import Cylindrical.Proofs.Poly.Exponents
import Cylindrical.Proofs.Residue.TowerInverse

/-!
# Exponents of remainders over a prime field

Remainders modulo a tower have no more coefficients in the variable of a level than the degree of its
polynomial.  The coefficients of a greatest common divisor and of a zero divisor are remainders, so the
exponents that occur in their images are bounded (`bounded_gcd`, `bounded_zeroDivisor`), except for those of
their own variable.
-/

namespace Cylindrical

namespace ResiduePoly

variable {n v : ℕ}

mutual

/-- At most `n` coefficients at each node. -/
def Bounded (n : ℕ) : ResiduePoly → Prop
  | const _ => True
  | node _ cs => cs.length ≤ n ∧ BoundedList n cs

/-- At most `n` coefficients at each node of the members. -/
def BoundedList (n : ℕ) : List ResiduePoly → Prop
  | [] => True
  | c :: cs => Bounded n c ∧ BoundedList n cs

end

@[simp] theorem bounded_const {a : ℕ} : Bounded n (const a) := by rw [Bounded]; trivial

theorem boundedList_iff {cs : List ResiduePoly} : BoundedList n cs ↔ ∀ c ∈ cs, Bounded n c := by
  induction cs with
  | nil => simp [BoundedList]
  | cons c cs ih => simp [BoundedList, ih]

theorem bounded_node {cs : List ResiduePoly} :
    Bounded n (node v cs) ↔ cs.length ≤ n ∧ ∀ c ∈ cs, Bounded n c := by
  rw [Bounded, boundedList_iff]

/-! ## Exponents of images -/

section

variable {p : ℕ} {S : Set ℕ}

theorem exponentsOf_eq_zero {b w : ℕ} {powers : List (ℕ × ℕ)} (h : ∀ q ∈ powers, b ≤ q.1)
    (hw : w < b) : exponentsOf powers w = 0 := by
  induction powers with
  | nil => rfl
  | cons q powers ih =>
    have hq := h q (.head _)
    rw [exponentsOf_cons, Finsupp.add_apply, ih fun q hq => h q (.tail _ hq),
      Finsupp.single_eq_of_ne (by omega)]

mutual

theorem degreeOf_of_mem_entries {b w : ℕ} {a : ResiduePoly} {powers : List (ℕ × ℕ)}
    (ha : Normal p S b a) (hn : Bounded n a) (hpow : ∀ q ∈ powers, b ≤ q.1)
    (hexp : exponentsOf powers w < n) {e : Monomial × ℕ} (he : e ∈ a.entries powers) :
    e.1.degreeOf w < n := by
  match a, ha, hn with
  | const a, _, _ =>
    rw [entries] at he
    split_ifs at he
    · cases he
    · rw [List.mem_singleton.1 he, ← Monomial.toFinsupp_apply, Monomial.toFinsupp_ofPowers]
      exact hexp
  | node v cs, ha, hn =>
    obtain ⟨hv, -, hcs⟩ := normal_node.1 ha
    obtain ⟨hlen, hn⟩ := bounded_node.1 hn
    rw [entries] at he
    exact degreeOf_of_mem_entriesFrom hcs hn (fun q hq => hv.1.trans_le (hpow q hq))
      (fun _ => by omega) hexp he

theorem degreeOf_of_mem_entriesFrom {v i w : ℕ} {cs : List ResiduePoly} {powers : List (ℕ × ℕ)}
    (hcs : NormalList p S v cs) (hn : ∀ c ∈ cs, Bounded n c) (hpow : ∀ q ∈ powers, v < q.1)
    (hlen : w = v → i + cs.length ≤ n) (hexp : exponentsOf powers w < n) {e : Monomial × ℕ}
    (he : e ∈ entriesFrom powers v i cs) : e.1.degreeOf w < n := by
  match cs, hcs with
  | [], _ =>
    rw [entriesFrom] at he
    cases he
  | c :: cs, hcs =>
    rw [normalList_cons] at hcs
    rw [List.length_cons] at hlen
    rw [entriesFrom] at he
    rcases List.mem_append.1 he with he | he
    · generalize hps : (if i = 0 then powers else (v, i) :: powers) = ps at he
      refine degreeOf_of_mem_entries hcs.1 (hn c (.head _)) (fun q hq => ?_) ?_ he <;> subst hps
      · split_ifs at hq
        · exact (hpow q hq).le
        · rcases List.mem_cons.1 hq with rfl | hq
          · exact le_rfl
          · exact (hpow q hq).le
      · split_ifs
        · exact hexp
        · rw [exponentsOf_cons, Finsupp.add_apply]
          by_cases hw : w = v
          · subst hw
            have := hlen rfl
            rw [Finsupp.single_eq_same, exponentsOf_eq_zero (b := w + 1) hpow (Nat.lt_succ_self w)]
            omega
          · rwa [Finsupp.single_eq_of_ne hw, zero_add]
    · exact degreeOf_of_mem_entriesFrom hcs.2 (fun d hd => hn d (.tail _ hd)) hpow
        (fun hw => by have := hlen hw; omega) hexp he

end

/-- The exponents in an image, except for those of the main variable. -/
theorem degreeOf_of_mem_image {v w : ℕ} {a : ResiduePoly} (ha : Normal p S (v + 1) a)
    (hn : CoeffsSatisfy (Bounded n) v a) (hpos : 0 < n) (hw : w ≠ v) {e : Monomial × ℕ} (he : e ∈ a.image) :
    e.1.degreeOf w < n := by
  rw [image] at he
  have hexp : exponentsOf [] w < n := hpos
  by_cases hv : a.mainVar? = some v
  · obtain ⟨cs, rfl⟩ := exists_node_of_mainVar? hv
    rw [CoeffsSatisfy, coeffsIn, if_pos rfl] at hn
    rw [entries] at he
    exact degreeOf_of_mem_entriesFrom (normal_node.1 ha).2.2 hn (by simp) (fun h => absurd h hw)
      hexp he
  · exact degreeOf_of_mem_entries ha (hn.of_mainVar?_ne ha hv) (by simp) hexp he

end

end ResiduePoly

namespace ResidueTower

open ResiduePoly

variable {t : ResidueTower} {n : ℕ}

/-- No level has a degree above `n`. -/
def DegreeLE (t : ResidueTower) (n : ℕ) : Prop := ∀ l ∈ t.levels, l.defining.degreeIn l.var ≤ n

/-- Reduced normal forms have at most as many coefficients at each node as the largest degree. -/
theorem Reduced.bounded (hn : t.DegreeLE n) {b : ℕ} {a : ResiduePoly} (h : t.Reduced a)
    (ha : Normal t.prime t.vars b a) : Bounded n a := by
  match a, h, ha with
  | .const a, _, _ => exact bounded_const
  | .node v cs, h, ha =>
    obtain ⟨⟨-, l, hl, rfl⟩, -, hcs⟩ := normal_node.1 ha
    obtain ⟨hlen, hred⟩ := reduced_node.1 h
    exact bounded_node.2 ⟨(hlen l hl rfl).trans (hn l hl), fun c hc =>
      (hred c hc).bounded hn (normalList_iff.1 hcs c hc)⟩

theorem bounded_coeffs (hn : t.DegreeLE n) {v : ℕ} {a : ResiduePoly}
    (ha : Normal t.prime t.vars (v + 1) a) (h : CoeffsSatisfy t.Reduced v a) :
    CoeffsSatisfy (Bounded n) v a := fun c hc =>
  (h c hc).bounded hn (normalList_iff.1 (normalList_coeffsIn ha) c hc)

section

variable (ht : t.Valid) (hn : t.DegreeLE n) {v : ℕ} (hv : v ∈ t.vars) {a b : ResiduePoly}
  (ha : Normal t.prime t.vars (v + 1) a) (hb : Normal t.prime t.vars (v + 1) b)

include ht hn hv ha hb

/-- A greatest common divisor has remainders as coefficients. -/
theorem bounded_gcd {g : ResiduePoly} (hg : t.gcd v a b = .ok g) :
    Normal t.prime t.vars (v + 1) g ∧ CoeffsSatisfy (Bounded n) v g := by
  rw [← Set.insert_eq_of_mem hv] at ha hb
  obtain ⟨hgn, hgr⟩ := coeffsSatisfy_gcd ht ha hb hg
  rw [Set.insert_eq_of_mem hv] at hgn
  exact ⟨hgn, bounded_coeffs hn hgn hgr⟩

/-- A zero divisor that keeps a greatest common divisor from being found. -/
theorem bounded_zeroDivisor {z : ZeroDivisor} (hz : t.gcd v a b = .error z) :
    ∃ l, t.levels[z.level]? = some l ∧ Normal t.prime t.vars (l.var + 1) z.factor ∧
      CoeffsSatisfy (Bounded n) l.var z.factor := by
  rw [← Set.insert_eq_of_mem hv] at ha hb
  obtain ⟨l, hl, -, hf⟩ := gcd_eq_error ht ha hb hz
  exact ⟨l, hl, hf.normal, bounded_coeffs hn hf.normal hf.coeffs⟩

end

end ResidueTower

end Cylindrical
