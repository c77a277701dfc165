import Mathlib
import Cylindrical.Poly.Subresultant
import Cylindrical.Proofs.Focus
import Cylindrical.Proofs.Poly.Division
import Cylindrical.Proofs.Poly.ExactDivision

/-!
# Determinants by elimination

A step of the elimination replaces a matrix by two by two minors on its first row and column,
divided by the previous pivot.  The minors of the new matrix are minors of the old one, up to powers
of the two pivots: this makes every division exact, and determines the last entry.

Matrices are tables with zeros outside of them, and the rows and columns of a minor may repeat, so
that an exchange of rows only renames the rows of minors.
-/

noncomputable section

open MvPolynomial

namespace Cylindrical

/-! ## Condensation -/

section

variable {R : Type*} [CommRing R] {k : ℕ} (B : ℕ → ℕ → R)

/-- The minor of a table with the given rows and columns. -/
def minor (f g : Fin k → ℕ) : R := (Matrix.of fun i j => B (f i) (g j)).det

/-- A step of the elimination without a division. -/
def condense (i j : ℕ) : R := B (i + 1) (j + 1) * B 0 0 - B (i + 1) 0 * B 0 (j + 1)

/-- The first row or column, and the given ones among the others. -/
def withFirst (f : Fin k → ℕ) : Fin (k + 1) → ℕ := Fin.cons 0 fun i => f i + 1

/-- The minor of the first `n` rows and columns. -/
def leadingMinor (n : ℕ) : R := minor B (Fin.val : Fin n → ℕ) Fin.val

theorem map_leadingMinor {S : Type*} [CommRing S] (φ : R →+* S) (n : ℕ) :
    φ (leadingMinor B n) = leadingMinor (fun i j => φ (B i j)) n := RingHom.map_det _ _

theorem minor_one (f g : Fin 1 → ℕ) : minor B f g = B (f 0) (g 0) := Matrix.det_fin_one _

/-- Minors of the condensed table are minors with the first row and column. -/
theorem minor_condense (f g : Fin k → ℕ) :
    B 0 0 * minor (condense B) f g = B 0 0 ^ k * minor B (withFirst f) (withFirst g) := by
  set M : Matrix (Fin (k + 1)) (Fin (k + 1)) R :=
    Matrix.of fun i j => B (withFirst f i) (withFirst g j)
  -- the rows below the first one are scaled, and then cleared in the first column
  set scales : Fin (k + 1) → R := Fin.cons 1 fun _ => B 0 0
  set cleared : Matrix (Fin (k + 1)) (Fin (k + 1)) R := Matrix.of fun i j =>
    scales i * M i j - (Fin.cons 0 fun i => B (f i + 1) 0 : Fin (k + 1) → R) i * M 0 j
  have hscaled : (Matrix.of fun i j => scales i * M i j).det = B 0 0 ^ k * M.det := by
    rw [Matrix.det_mul_column, Fin.prod_univ_succ]
    simp [scales]
  have hcleared : (Matrix.of fun i j => scales i * M i j).det = cleared.det := by
    refine Matrix.det_eq_of_forall_row_eq_smul_add_const
      (Fin.cons 0 fun i => B (f i + 1) 0) 0 rfl fun i j => ?_
    simp [cleared, scales]
  have hexpand : cleared.det = B 0 0 * minor (condense B) f g := by
    rw [Matrix.det_succ_column_zero, Fin.sum_univ_succ, Finset.sum_eq_zero fun i _ => ?_]
    · rw [add_zero, minor]
      have hhead : cleared 0 0 = B 0 0 := by simp [cleared, scales, M, withFirst]
      have hrest : cleared.submatrix (Fin.succAbove 0) Fin.succ =
          Matrix.of fun i j => condense B (f i) (g j) := by
        ext i j
        simp [cleared, scales, M, withFirst, condense, mul_comm]
      rw [hhead, hrest]
      simp
    · have hzero : cleared i.succ 0 = 0 := by simp [cleared, scales, M, withFirst, mul_comm]
      rw [hzero, mul_zero, zero_mul]
  rw [← hexpand, ← hcleared, hscaled]
  rfl

/-- The minors of every size are divisible by the power of `d` with the exponent one below it. -/
def MinorsDivisible (d : R) (B : ℕ → ℕ → R) : Prop :=
  ∀ (k : ℕ) (f g : Fin (k + 1) → ℕ), d ^ k ∣ minor B f g

variable {B} {d : R}

theorem minorsDivisible_one : MinorsDivisible 1 B := fun k _ _ => by
  rw [one_pow]
  exact one_dvd _

namespace MinorsDivisible

/-- The entries of the condensed table are minors with two rows and columns. -/
theorem dvd_condense (h : MinorsDivisible d B) (i j : ℕ) : d ∣ condense B i j := by
  have hminor : minor B ![0, i + 1] ![0, j + 1] = condense B i j := by
    rw [minor, Matrix.det_fin_two, condense]
    simp only [Matrix.of_apply, Matrix.cons_val_zero, Matrix.cons_val_one]
    ring
  rw [← hminor, ← pow_one d]
  exact h 1 _ _

theorem rename (h : MinorsDivisible d B) (σ : ℕ → ℕ) : MinorsDivisible d fun i j => B (σ i) j :=
  fun k f g => h k (σ ∘ f) g

variable {B' : ℕ → ℕ → R}

theorem minor_eq (hB' : ∀ i j, d * B' i j = condense B i j) (f g : Fin k → ℕ) :
    minor (condense B) f g = d ^ k * minor B' f g := by
  have hsmul : (Matrix.of fun i j => condense B (f i) (g j)) =
      d • Matrix.of fun i j => B' (f i) (g j) := by
    ext i j
    simp [hB']
  rw [minor, hsmul, Matrix.det_smul, Fintype.card_fin]
  rfl

variable [IsDomain R]

/-- After a step the minors are divisible by powers of the pivot of that step. -/
theorem step (h : MinorsDivisible d B) (hd : d ≠ 0) (hpivot : B 0 0 ≠ 0)
    (hB' : ∀ i j, d * B' i j = condense B i j) : MinorsDivisible (B 0 0) B' := fun k f g => by
  obtain ⟨c, hc⟩ := h (k + 1) (withFirst f) (withFirst g)
  refine ⟨c, mul_left_cancel₀ hpivot (mul_left_cancel₀ (pow_ne_zero (k + 1) hd) ?_)⟩
  calc d ^ (k + 1) * (B 0 0 * minor B' f g)
      = B 0 0 * minor (condense B) f g := by
        rw [minor_eq hB']
        ring
    _ = B 0 0 ^ (k + 1) * (d ^ (k + 1) * c) := by rw [minor_condense, hc]
    _ = d ^ (k + 1) * (B 0 0 * (B 0 0 ^ k * c)) := by ring

end MinorsDivisible

end

namespace Poly

/-! ## Tables of rows -/

/-- The polynomials that the entries of a list of rows stand for. -/
def table (rows : List (List Poly)) (i j : ℕ) : MvPolynomial ℕ ℚ :=
  ((rows.getD i []).getD j 0).toMv

/-- As many rows as columns. -/
structure Square (n : ℕ) (rows : List (List Poly)) : Prop where
  length : rows.length = n
  width : ∀ row ∈ rows, row.length = n

variable {row pivot ps : List Poly} {rows rest : List (List Poly)} {p prev : Poly} {n : ℕ}

theorem getD_zero_eq_headD (row : List Poly) : row.getD 0 0 = row.headD 0 := by
  cases row <;> rfl

theorem table_zero_zero : table (row :: rows) 0 0 = (row.headD 0).toMv := by
  rw [table, ← getD_zero_eq_headD]
  rfl

theorem table_zero_of_heads (h : ∀ r ∈ rows, (r.headD 0).toMv = 0) (i : ℕ) : table rows i 0 = 0 := by
  rw [table, getD_zero_eq_headD]
  by_cases hi : i < rows.length
  · rw [List.getD_eq_getElem _ _ hi]
    exact h _ (List.getElem_mem hi)
  · rw [List.getD_eq_default _ _ (not_lt.1 hi)]
    exact toMv_zero

/-! ## Exchange of rows -/

theorem exchangeRow_eq_none (h : exchangeRow row rows = none) :
    ∀ r ∈ rows, (r.headD 0).toMv = 0 := by
  induction rows with
  | nil => nofun
  | cons r rs ih =>
    rw [exchangeRow] at h
    split_ifs at h with hr
    exact List.forall_mem_cons.2 ⟨toMv_eq_zero_iff.2 hr, ih (Option.map_eq_none_iff.1 h)⟩

/-- The first row changes places with one that begins with a nonzero entry. -/
theorem exchangeRow_eq_some (h : exchangeRow row rows = some (pivot, rest)) :
    (pivot.headD 0).toMv ≠ 0 ∧ ∃ t, rows[t]? = some pivot ∧ rest = rows.set t row := by
  induction rows generalizing rest with
  | nil => cases h
  | cons r rs ih =>
    rw [exchangeRow] at h
    split_ifs at h with hr
    · obtain ⟨⟨pivot', rest'⟩, hex, he⟩ := Option.map_eq_some_iff.1 h
      obtain ⟨rfl, rfl⟩ := Prod.mk.inj he
      obtain ⟨hpivot, t, ht, rfl⟩ := ih hex
      exact ⟨hpivot, t + 1, ht, rfl⟩
    · obtain ⟨rfl, rfl⟩ := Prod.mk.inj (Option.some.inj h)
      exact ⟨fun h0 => hr (toMv_eq_zero_iff.1 h0), 0, rfl, rfl⟩

section

variable {t : ℕ} (ht : rows[t]? = some pivot)

include ht

theorem Square.exchange (h : Square n (row :: rows)) : Square n (pivot :: rows.set t row) := by
  refine ⟨by simpa using h.length, List.forall_mem_cons.2 ⟨?_, fun r hr => ?_⟩⟩
  · exact h.width pivot (.tail _ (List.mem_of_getElem? ht))
  · rcases List.mem_or_eq_of_mem_set hr with hr | rfl
    · exact h.width r (.tail _ hr)
    · exact h.width r (.head _)

theorem table_exchange (i j : ℕ) : table (pivot :: rows.set t row) i j =
    table (row :: rows) (Equiv.swap 0 (t + 1) i) j := by
  obtain ⟨hlt, rfl⟩ := List.getElem?_eq_some_iff.1 ht
  rw [table, table]
  congr 2
  rcases i with _ | i
  · simp [hlt]
  · by_cases hi : i = t
    · subst hi
      simp [hlt]
    · rw [Equiv.swap_apply_of_ne_of_ne (by omega) (by omega)]
      simp [List.getElem?_set_ne (Ne.symm hi)]

theorem leadingMinor_exchange (hn : t + 1 < n) :
    leadingMinor (table (pivot :: rows.set t row)) n =
      -leadingMinor (table (row :: rows)) n := by
  let σ : Equiv.Perm (Fin n) := Equiv.swap ⟨0, by omega⟩ ⟨t + 1, hn⟩
  have hσ : ∀ i : Fin n, Equiv.swap 0 (t + 1) i.val = (σ i).val := fun i => by
    simp only [σ, Equiv.swap_apply_def, Fin.ext_iff]
    split_ifs <;> rfl
  have hperm : (Matrix.of fun i j : Fin n => table (pivot :: rows.set t row) i j) =
      (Matrix.of fun i j : Fin n => table (row :: rows) i j).submatrix σ id := by
    ext1 i j
    simp only [Matrix.of_apply, Matrix.submatrix_apply, id, table_exchange ht, hσ]
  rw [leadingMinor, minor, hperm, Matrix.det_permute, Equiv.Perm.sign_swap (by simp [Fin.ext_iff])]
  simp [leadingMinor, minor]

end

/-! ## Elimination in the rows below the pivot -/

/-- A mapped computation returns when it does at every entry. -/
theorem returns_mapM {α β : Type} {f : α → Algebra β} {Q : α → β → Prop} {xs : List α}
    (h : ∀ x ∈ xs, Returns (f x) (Q x)) : Returns (xs.mapM f) (List.Forall₂ Q xs) := by
  induction xs with
  | nil => exact .ok .nil
  | cons x xs ih =>
    obtain ⟨hx, hxs⟩ := List.forall_mem_cons.1 h
    rw [List.mapM_cons]
    exact hx.bind fun y hy => (ih hxs).bind fun ys hys => .ok (.cons hy hys)

/-- What a row becomes when its first entry is eliminated with the pivot row `p :: ps`. -/
def EliminatedRow (prev p : Poly) (ps row out : List Poly) : Prop :=
  out.length = ps.length ∧ ∀ j, prev.toMv * (out.getD j 0).toMv =
    (row.getD (j + 1) 0).toMv * p.toMv - (row.getD 0 0).toMv * (ps.getD j 0).toMv

theorem returns_eliminateRow (hlength : row.length = ps.length + 1) (hprev : prev.toMv ≠ 0)
    (hdvd : ∀ j, prev.toMv ∣
      (row.getD (j + 1) 0).toMv * p.toMv - (row.getD 0 0).toMv * (ps.getD j 0).toMv) :
    Returns (eliminateRow prev p ps row) (EliminatedRow prev p ps row) := by
  obtain _ | ⟨c, cs⟩ := row
  · cases hlength
  rw [eliminateRow]
  replace hlength := Nat.succ.inj hlength
  induction cs generalizing ps with
  | nil =>
    obtain rfl := List.length_eq_zero_iff.1 hlength.symm
    exact .ok ⟨rfl, fun j => by simp⟩
  | cons x cs ih =>
    obtain _ | ⟨y, ps⟩ := ps
    · cases hlength
    obtain ⟨q, hq⟩ := exists_divExact? (p := x * p - c * y) hprev (by simpa using hdvd 0)
    have hhead : prev.toMv * q.toMv = x.toMv * p.toMv - c.toMv * y.toMv := by
      rw [mul_comm, ← (toMv_of_divExact? hq).2, toMv_sub, toMv_mul, toMv_mul]
    rw [List.zip_cons_cons, List.mapM_cons]
    refine Returns.bind (Q := (· = q)) ⟨q, by simp only [hq], rfl⟩ fun _ h => ?_
    obtain rfl := h
    refine (ih (fun j => hdvd (j + 1)) (Nat.succ.inj hlength)).bind fun out hout => .ok ?_
    refine ⟨congrArg Nat.succ hout.1, fun j => ?_⟩
    cases j with
    | zero => exact hhead
    | succ j => exact hout.2 j

theorem table_eq_condense {out : List (List Poly)}
    (h : List.Forall₂ (EliminatedRow prev p ps) rows out) (i j : ℕ) :
    prev.toMv * table out i j = condense (table ((p :: ps) :: rows)) i j := by
  induction h generalizing i with
  | nil => simp [table, condense]
  | cons hrow _ ih =>
    cases i with
    | zero => exact hrow.2 j
    | succ i => exact ih i

/-- A step of the elimination condenses the table and divides by the previous pivot. -/
theorem returns_eliminateRows (hsquare : Square (n + 1) ((p :: ps) :: rows))
    (hprev : prev.toMv ≠ 0) (hminors : MinorsDivisible prev.toMv (table ((p :: ps) :: rows))) :
    Returns (rows.mapM (eliminateRow prev p ps)) fun out => Square n out ∧
      ∀ i j, prev.toMv * table out i j = condense (table ((p :: ps) :: rows)) i j := by
  have hps : ps.length = n := Nat.succ.inj (hsquare.width _ (.head _))
  refine (returns_mapM (Q := EliminatedRow prev p ps) fun row hrow => ?_).mono
    fun out hout => ⟨⟨?_, fun r hr => ?_⟩, table_eq_condense hout⟩
  · refine returns_eliminateRow (by rw [hps, hsquare.width _ (.tail _ hrow)]) hprev fun j => ?_
    obtain ⟨i, hi, rfl⟩ := List.mem_iff_getElem.1 hrow
    have hentry : ∀ j, table ((p :: ps) :: rows) (i + 1) j = (rows[i].getD j 0).toMv := fun j => by
      rw [table, List.getD_cons_succ, List.getD_eq_getElem _ _ hi]
    rw [← hentry, ← hentry]
    exact hminors.dvd_condense i j
  · rw [← hout.length_eq]
    exact Nat.succ.inj hsquare.length
  · obtain ⟨row, -, hrow⟩ := exists_mem_of_forall₂ hout hr
    rw [hrow.1, hps]

/-! ## The determinant -/

theorem withFirst_val : withFirst (Fin.val : Fin n → ℕ) = Fin.val := by
  ext i
  cases i using Fin.cases <;> rfl

/-- The sign that the exchanges of rows leave. -/
def exchangeSign (negate : Bool) : MvPolynomial ℕ ℚ := if negate then -1 else 1

theorem exchangeSign_not (negate : Bool) : exchangeSign (!negate) = -exchangeSign negate := by
  cases negate <;> simp [exchangeSign]

/-- The result of an elimination is the determinant over a power of the previous pivot. -/
def Eliminated (n : ℕ) (prev : Poly) (negate : Bool) (rows : List (List Poly)) (d : Poly) : Prop :=
  d.toMv * prev.toMv ^ n = exchangeSign negate * leadingMinor (table rows) (n + 1)

/-- A step with the pivot row in front, after which the elimination is known to be right. -/
theorem returns_eliminateStep {negate : Bool} (hsquare : Square (n + 2) ((p :: ps) :: rows))
    (hp : p.toMv ≠ 0) (hprev : prev.toMv ≠ 0)
    (hminors : MinorsDivisible prev.toMv (table ((p :: ps) :: rows)))
    (hrest : ∀ out, Square (n + 1) out → MinorsDivisible p.toMv (table out) →
      Returns (eliminate (n + 1) p negate out) (Eliminated n p negate out)) :
    Returns (rows.mapM (eliminateRow prev p ps) >>= eliminate (n + 1) p negate)
      (Eliminated (n + 1) prev negate ((p :: ps) :: rows)) := by
  refine (returns_eliminateRows hsquare hprev hminors).bind fun out hout => ?_
  refine (hrest out hout.1 (hminors.step hprev hp hout.2)).mono fun d hd => ?_
  have hcondense := minor_condense (table ((p :: ps) :: rows)) (Fin.val : Fin (n + 1) → ℕ) Fin.val
  rw [MinorsDivisible.minor_eq hout.2, withFirst_val, ← leadingMinor, ← leadingMinor] at hcondense
  change p.toMv * _ = p.toMv ^ (n + 1) * _ at hcondense
  refine mul_left_cancel₀ (pow_ne_zero (n + 1) hp) ?_
  calc p.toMv ^ (n + 1) * (d.toMv * prev.toMv ^ (n + 1))
      = p.toMv * (d.toMv * p.toMv ^ n) * prev.toMv ^ (n + 1) := by ring
    _ = exchangeSign negate *
          (p.toMv * (prev.toMv ^ (n + 1) * leadingMinor (table out) (n + 1))) := by
      rw [hd]
      ring
    _ = p.toMv ^ (n + 1) *
          (exchangeSign negate * leadingMinor (table ((p :: ps) :: rows)) (n + 2)) := by
      rw [hcondense]
      ring

theorem returns_eliminate {negate : Bool} (hsquare : Square (n + 1) rows) (hprev : prev.toMv ≠ 0)
    (hminors : MinorsDivisible prev.toMv (table rows)) :
    Returns (eliminate (n + 1) prev negate rows) (Eliminated n prev negate rows) := by
  induction n generalizing prev negate rows with
  | zero =>
    obtain ⟨row, rfl⟩ := List.length_eq_one_iff.1 hsquare.length
    refine .ok ?_
    rw [Eliminated, pow_zero, mul_one, leadingMinor, minor_one, Fin.val_zero, table_zero_zero,
      exchangeSign]
    split_ifs <;> simp
  | succ n ih =>
    obtain _ | ⟨row, _ | ⟨row', rows⟩⟩ := rows
    · cases hsquare.length
    · cases hsquare.length
    rw [eliminate]
    · by_cases hhead : (row.headD 0).isZero = true
      · rw [if_pos hhead]
        cases hex : exchangeRow row (row' :: rows) with
        | none =>
          refine .ok ?_
          have hheads : ∀ r ∈ row :: row' :: rows, (r.headD 0).toMv = 0 :=
            List.forall_mem_cons.2 ⟨toMv_eq_zero_iff.2 hhead, exchangeRow_eq_none hex⟩
          have hminor : leadingMinor (table (row :: row' :: rows)) (n + 2) = 0 :=
            Matrix.det_eq_zero_of_column_eq_zero (0 : Fin (n + 2)) fun i =>
              table_zero_of_heads hheads i
          rw [Eliminated, toMv_zero, zero_mul, hminor, mul_zero]
        | some pivoted =>
          obtain ⟨_ | ⟨p, ps⟩, rest⟩ := pivoted
          · exact absurd toMv_zero (exchangeRow_eq_some hex).1
          obtain ⟨hp, t, ht, rfl⟩ := exchangeRow_eq_some hex
          have htable : table ((p :: ps) :: (row' :: rows).set t row) = fun i j =>
              table (row :: row' :: rows) (Equiv.swap 0 (t + 1) i) j := funext₂ (table_exchange ht)
          refine (returns_eliminateStep (hsquare.exchange ht) hp hprev ?_
            fun out hout => ih hout hp).mono fun d hd => ?_
          · rw [htable]
            exact hminors.rename _
          · have hlt := (List.getElem?_eq_some_iff.1 ht).1
            have hlength : (row' :: rows).length = n + 1 := Nat.succ.inj hsquare.length
            rw [Eliminated, exchangeSign_not, leadingMinor_exchange ht (by omega),
              neg_mul_neg] at hd
            exact hd
      · rw [if_neg hhead]
        obtain _ | ⟨p, ps⟩ := row
        · exact absurd rfl hhead
        · have hp : p.toMv ≠ 0 := fun h0 => hhead (toMv_eq_zero_iff.1 h0)
          exact returns_eliminateStep hsquare hp hprev hminors fun out hout => ih hout hp
    · nofun

/-- The determinant of a square list of rows. -/
theorem returns_determinant (hsquare : Square n rows) :
    Returns (determinant rows) fun d => d.toMv = leadingMinor (table rows) n := by
  rw [determinant, hsquare.length]
  cases n with
  | zero => exact .ok (by simp [leadingMinor, minor])
  | succ n =>
    refine Returns.mono (returns_eliminate hsquare ?_ ?_) fun d hd => ?_
    · rw [toMv_one]
      exact one_ne_zero
    · rw [toMv_one]
      exact minorsDivisible_one
    · simpa [Eliminated, exchangeSign] using hd

end Poly

end Cylindrical

end
