import Mathlib
import Cylindrical.Proofs.Sample.ZeroTest
import Cylindrical.Proofs.Sign

/-!
# Signs at a sample point

An enclosure without zero shows the sign, and the zero test in between is right at the point that the
rounds before it have left.  Refinements and replacements keep the value of a polynomial in which the
known coordinates have been put, so the rounds agree with each other.
-/

noncomputable section

namespace Cylindrical

namespace ZeroTest

variable {cfg : Config} {σ τ : PointState} {x : ℕ → ℝ} {p q : Poly} {s : Sign}

theorem intervalSign?_eq_some {prec : ℕ} {t : SamplePoint} (ht : t.Denotes x) (hq : q.ExponentsCount)
    (h : intervalSign? prec q t = some s) : s = .ofReal (q.value x) := by
  rw [intervalSign?] at h
  cases hi : Interval.evalPoly? prec t.span? q with
  | none =>
    rw [hi] at h
    cases h
  | some i =>
    have henc := Interval.encloses_of_evalPoly? ht.encloses hq hi
    rw [hi, Option.bind_some] at h
    cases hsign : i.sign? with
    | none =>
      rw [hsign] at h
      cases h
    | some c =>
      rw [hsign] at h
      cases c with
      | lt =>
        obtain rfl := Option.some.inj h
        exact (Sign.ofReal_of_neg (henc.sign?.2 hsign)).symm
      | eq => cases h
      | gt =>
        obtain rfl := Option.some.inj h
        exact (Sign.ofReal_of_pos (henc.sign?.1 hsign)).symm

/-- A round without the zero test: it shows the sign, or goes on at a refined point. -/
theorem round_spec {vars : List ℕ} {round : ℕ} {next : PointM Sign} (hs : σ.point.Sound x)
    (hq : q.ExponentsCount)
    (hnext : ∀ υ : PointState, σ.point.Evolves x υ.point → next υ = .ok s τ →
      υ.point.Evolves x τ.point ∧ s = .ofReal (q.value x))
    (hrun : (do
      refineTo vars (cfg.precision round / 2)
      match intervalSign? (cfg.precision round) q (← get).point with
      | some s =>
        if round < cfg.probe then count fun s => { s with intervalSigns := s.intervalSigns + 1 }
        return s
      | none => next : PointM Sign) σ = .ok s τ) :
    σ.point.Evolves x τ.point ∧ s = .ofReal (q.value x) := by
  obtain ⟨_, σ₁, hrefine, h₁⟩ := run_bind_eq_ok hrun
  have hev := SamplePoint.Evolves.of_refines hs (refineTo_eq_ok hrefine)
  rw [run_get_bind] at h₁
  cases hi : intervalSign? (cfg.precision round) q σ₁.point with
  | none =>
    rw [hi] at h₁
    obtain ⟨hev', hsign⟩ := hnext σ₁ hev h₁
    exact ⟨hev.trans hev', hsign⟩
  | some u =>
    rw [hi] at h₁
    have hu := intervalSign?_eq_some hev.sound.denotes hq hi
    simp only at h₁
    split_ifs at h₁
    · obtain ⟨_, σ₂, hcount, h₂⟩ := run_bind_eq_ok h₁
      obtain ⟨rfl, rfl⟩ := run_pure_eq_ok h₂
      rw [count_eq_ok hcount]
      exact ⟨hev, hu⟩
    · obtain ⟨rfl, rfl⟩ := run_pure_eq_ok h₁
      exact ⟨hev, hu⟩

/-- The rounds of a sign evaluation, for a polynomial without known variables. -/
theorem signRounds_spec {vars : List ℕ} {rounds round : ℕ} (hs : σ.point.Sound x)
    (hknown : (σ.point.substituteKnown q).value x = q.value x) (hq : q.ExponentsCount)
    (hrun : signRounds cfg q vars rounds round σ = .ok s τ) :
    σ.point.Evolves x τ.point ∧ s = .ofReal (q.value x) := by
  induction rounds generalizing round σ with
  | zero => cases hrun
  | succ rounds ih =>
    rw [signRounds] at hrun
    simp only at hrun
    by_cases hprobe : round = cfg.probe
    · rw [if_pos hprobe] at hrun
      obtain ⟨b, σ₁, hvanishes, h₁⟩ := run_bind_eq_ok hrun
      obtain ⟨hev, hb⟩ := vanishesAt_spec hs hvanishes
      rw [hknown] at hb
      cases b with
      | true =>
        obtain ⟨rfl, rfl⟩ := run_pure_eq_ok h₁
        rw [hb.1 rfl, Sign.ofReal_zero]
        exact ⟨hev, rfl⟩
      | false =>
        obtain ⟨hev', hsign⟩ := round_spec hev.sound hq (fun υ hυ h =>
          ih hυ.sound ((hev.trans hυ).value q ▸ hknown) h) h₁
        exact ⟨hev.trans hev', hsign⟩
    · rw [if_neg hprobe] at hrun
      exact round_spec hs hq (fun υ hυ h => ih hυ.sound (hυ.value q ▸ hknown) h) hrun

theorem signAt_spec (hs : σ.point.Sound x) (hq : (σ.point.substituteKnown p).ExponentsCount)
    (hrun : signAt cfg p σ = .ok s τ) :
    σ.point.Evolves x τ.point ∧ s = .ofReal ((σ.point.substituteKnown p).value x) := by
  rw [signAt] at hrun
  obtain ⟨_, σ₁, hcount, h₁⟩ := run_bind_eq_ok hrun
  have hσ₁ := count_eq_ok hcount
  rw [← hσ₁] at hs hq ⊢
  rw [run_get_bind] at h₁
  have hknown := SamplePoint.substituteKnown_substituteKnown hs.denotes.triangular p
  generalize σ₁.point.substituteKnown p = q at h₁ hq hknown ⊢
  split_ifs at h₁ with hnum
  · obtain ⟨rfl, rfl⟩ := run_pure_eq_ok h₁
    rw [Poly.value_of_isNumber x hnum, eq_ratCast, Sign.ofReal_cast]
    exact ⟨.refl hs, rfl⟩
  · cases hfind : q.vars.find? fun v => σ₁.point.size ≤ v with
    | some v =>
      rw [hfind] at h₁
      cases h₁
    | none =>
      rw [hfind] at h₁
      exact signRounds_spec hs (by rw [hknown]) hq h₁

end ZeroTest

end Cylindrical

end
