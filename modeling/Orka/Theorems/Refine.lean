import Orka.Refine

/-!
# What the refine loop returns

A round that does not help has escalated the configuration before it is measured, and the loop leaves with the new configuration and
the old measurement. On every other way out the two belong together.
-/

namespace Orka

open Steps

variable {α π : Type} [LinearOrder α] {args : RefineArgs α π}

/-! ## Rounds -/

/-- The configuration a round measures: the objective is not met yet, and there are tensors to spend bits on. -/
def Escalates (args : RefineArgs α π) (cfg cfg' : Configs α) : Prop :=
  meetsObjective (args.measure cfg) args.objective args.target = false ∧
    ∃ offenders, attributeTensors args cfg = .ok offenders ∧ offenders ≠ [] ∧ cfg' = escalate offenders cfg

/-- The configurations of the rounds that lower the divergence, after the start. -/
inductive Reaches (args : RefineArgs α π) (start : Configs α) : ℕ → Configs α → Prop where
  | start : Reaches args start 0 start
  | round {r : ℕ} {cfg cfg' : Configs α} : Reaches args start r cfg → Escalates args cfg cfg' →
      (args.measure cfg).kl.le (args.measure cfg').kl = false → Reaches args start (r + 1) cfg'

/-- No round that does not lower the divergence measures anything else than the round before it. -/
def StuckUnchanged (args : RefineArgs α π) (start : Configs α) : Prop :=
  ∀ r < args.maxRounds.toNat, ∀ cfg cfg', Reaches args start r cfg → Escalates args cfg cfg' →
    (args.measure cfg).kl.le (args.measure cfg').kl = true → args.measure cfg' = args.measure cfg

/-- A round leads on to one configuration. -/
theorem Escalates.unique {cfg c c' : Configs α} (h : Escalates args cfg c) (h' : Escalates args cfg c') : c = c' := by
  obtain ⟨-, offenders, ho, -, rfl⟩ := h
  obtain ⟨-, offenders', ho', -, rfl⟩ := h'
  rw [ho] at ho'
  rw [Except.ok.inj ho']

/-- The loop reaches one configuration in a round. -/
theorem Reaches.unique {start : Configs α} {r : ℕ} {c c' : Configs α} (h : Reaches args start r c) (h' : Reaches args start r c') :
    c = c' := by
  induction h generalizing c' with
  | start => cases h'; rfl
  | round _ hnext _ ih =>
    cases h' with
    | round hprev hnext' _ =>
      obtain rfl := ih hprev
      exact hnext.unique hnext'

/-- A round before one that is reached escalates. -/
theorem Reaches.escalates {start : Configs α} {r r' : ℕ} {c c' : Configs α} (h : Reaches args start r c) (hlt : r' < r)
    (hc' : Reaches args start r' c') : ∃ d, Escalates args c' d := by
  induction h with
  | start => exact absurd hlt (Nat.not_lt_zero _)
  | @round r cfg cfg' hprev hround _ ih =>
    rcases Nat.lt_succ_iff_lt_or_eq.1 hlt with hlt | rfl
    · exact ih hlt
    · exact ⟨cfg', hprev.unique hc' ▸ hround⟩

/-- A round before one that is reached has lowered the divergence. -/
theorem Reaches.not_stuck {start : Configs α} {r r' : ℕ} {c c' d : Configs α} (h : Reaches args start r c) (hlt : r' < r)
    (hc' : Reaches args start r' c') (hnext : Escalates args c' d) : (args.measure c').kl.le (args.measure d).kl = false := by
  induction h with
  | start => exact absurd hlt (Nat.not_lt_zero _)
  | @round r cfg cfg' hprev hround hless ih =>
    rcases Nat.lt_succ_iff_lt_or_eq.1 hlt with hlt | rfl
    · exact ih hlt
    · obtain rfl := hprev.unique hc'
      rwa [hnext.unique hround]

/-- **The loop.** From a configuration it has reached, with its measurement: either it returns a configuration it has reached with its
measurement, or a round is stuck, and it returns the configuration of that round with the measurement of the one before. -/
theorem refineLoop_spec {start : Configs α} {n r : ℕ} {cfg : Configs α} (hreach : Reaches args start r cfg)
    {out : Configs α × Quality α × ℤ} (h : refineLoop args n r cfg (args.measure cfg) = .ok out) :
    ∃ r' c, r ≤ r' ∧ r' ≤ r + n ∧ Reaches args start r' c ∧ out.2.1 = args.measure c ∧
      (out.1 = c ∧ (∀ c', r' < r + n → Escalates args c c' → False) ∨
        r' < r + n ∧ Escalates args c out.1 ∧ (args.measure c).kl.le (args.measure out.1).kl = true) := by
  induction n generalizing r cfg with
  | zero =>
    obtain rfl := Except.ok.inj h
    exact ⟨r, cfg, le_rfl, le_rfl, hreach, rfl, .inl ⟨rfl, fun _ hlt => absurd hlt (lt_irrefl _)⟩⟩
  | succ n ih =>
    unfold refineLoop at h
    split at h
    · next hmeets =>
      obtain rfl := Except.ok.inj h
      refine ⟨r, cfg, le_rfl, Nat.le_add_right _ _, hreach, rfl, .inl ⟨rfl, fun c' _ hnext => ?_⟩⟩
      rw [hnext.1] at hmeets
      exact Bool.false_ne_true hmeets
    next hmeets =>
    obtain ⟨offenders, hattribute, h⟩ := bind_eq_ok.1 h
    split at h
    · next hnone =>
      obtain rfl := Except.ok.inj h
      refine ⟨r, cfg, le_rfl, Nat.le_add_right _ _, hreach, rfl, .inl ⟨rfl, fun c' _ hnext => ?_⟩⟩
      obtain ⟨-, offenders', ho, hne, -⟩ := hnext
      rw [hattribute] at ho
      exact hne (Except.ok.inj ho ▸ List.isEmpty_iff.1 hnone)
    next hsome =>
    have hnext : Escalates args cfg (escalate offenders cfg) :=
      ⟨Bool.eq_false_iff.2 hmeets, offenders, hattribute, fun hnil => hsome (List.isEmpty_iff.2 hnil), rfl⟩
    simp only at h
    split at h
    · next hstuck =>
      obtain rfl := Except.ok.inj h
      exact ⟨r, cfg, le_rfl, Nat.le_add_right _ _, hreach, rfl, .inr ⟨Nat.lt_add_of_pos_right n.succ_pos, hnext, hstuck⟩⟩
    · next hless =>
      obtain ⟨r', c, hr, hn, hc, hq, hout⟩ := ih (hreach.round hnext (Bool.eq_false_iff.2 hless)) h
      refine ⟨r', c, (Nat.le_succ r).trans hr, by omega, hc, hq, ?_⟩
      rw [show r + 1 + n = r + (n + 1) by omega] at hout
      exact hout

/-- Where every divergence is a number, a round that is reached has no more of it than the start. -/
theorem Reaches.kl_le {start : Configs α} (hnum : ∀ r c, Reaches args start r c → (args.measure c).kl ≠ .nan) {r : ℕ} {c : Configs α}
    (h : Reaches args start r c) : (args.measure c).kl.le (args.measure start).kl = true := by
  induction h with
  | start => exact Extended.le_refl (hnum 0 start .start)
  | round hprev hnext hless ih =>
    exact Extended.le_trans (Extended.le_of_not_le (hnum _ _ (hprev.round hnext hless)) (hnum _ _ hprev) hless) ih

/-- **The refine loop.** What `refine` returns is a configuration with its own measurement if and only if no stuck round measures
anything new; and as long as the divergences are numbers, the one returned is at most that of the start. -/
theorem refine_measured_iff {start : Configs α} {out : Configs α × Quality α × ℤ} (h : refine args start = .ok out) :
    (out.2.1 = args.measure out.1 ↔ StuckUnchanged args start) ∧
      ((∀ r c, Reaches args start r c → (args.measure c).kl ≠ .nan) → out.2.1.kl.le (args.measure start).kl = true) := by
  obtain ⟨r, c, -, hr, hc, hq, hout⟩ := refineLoop_spec (.start : Reaches args start 0 start) h
  rw [Nat.zero_add] at hr hout
  refine ⟨⟨fun hmeasured r' hr' c' d hc' hnext hstuck => ?_, fun hcond => ?_⟩, fun hnum => by rw [hq]; exact hc.kl_le hnum⟩
  · rcases Nat.lt_trichotomy r' r with hlt | rfl | hlt
    · exact absurd hstuck (Bool.eq_false_iff.1 (hc.not_stuck hlt hc' hnext))
    · obtain rfl := hc.unique hc'
      rcases hout with ⟨-, hnone⟩ | ⟨-, hnext', -⟩
      · exact absurd hnext (hnone d hr')
      · rw [hnext.unique hnext', ← hmeasured, hq]
    · obtain ⟨d', hd'⟩ : ∃ d', Escalates args c d' := hc'.escalates hlt hc
      have hless := hc'.not_stuck hlt hc hd'
      rcases hout with ⟨-, hnone⟩ | ⟨-, hnext', hstuck'⟩
      · exact absurd hd' (hnone d' (hlt.trans hr'))
      · rw [hd'.unique hnext', hstuck'] at hless
        exact absurd hless (by decide)
  · rcases hout with ⟨rfl, -⟩ | ⟨hlt, hnext, hstuck⟩
    · exact hq
    · rw [hq, hcond r hlt c _ hc hnext hstuck]

/-! ## Two runs -/

/-- A run on one tensor, which measures a divergence for each width. -/
def byBits (kl : ℤ → ℚ) : RefineArgs ℚ (Configs ℚ) where
  signals := [("a", ⟨[(2, .finite 8), (3, .finite 8), (4, .finite 13)], 3, .finite (2 / 100)⟩)]
  objective := "min-bits"
  target := some (.finite (2 / 100))
  packFn cfg := cfg
  pulseFn cfg := ⟨.finite (kl ((cfg.head?.map fun c => c.2.bits).getD 0)), .finite (9 / 10)⟩
  sort scored := ⟨scored, List.Perm.refl _⟩

/-- Two stages of two bits. -/
def twoBits : Configs ℚ := [("a", ⟨"rvq", 2, 2, "block-max", false, "policy", 7 / 10, "x"⟩)]

/-- Where three bits measure worse than two, the configuration of three bits is returned with the measurement of two. -/
theorem refine_stuck_mismatch : ∃ out, refine (byBits fun b => if b = 2 then 1 / 2 else 3 / 5) twoBits = .ok out ∧
    out.2.1 ≠ (byBits fun b => if b = 2 then 1 / 2 else 3 / 5).measure out.1 := by
  have hrun : ((refine (byBits fun b => if b = 2 then 1 / 2 else 3 / 5) twoBits).toOption.map fun out =>
      (out.2.1, (byBits fun b => if b = 2 then 1 / 2 else 3 / 5).measure out.1)) =
      some (⟨.finite (1 / 2), .finite (9 / 10)⟩, ⟨.finite (3 / 5), .finite (9 / 10)⟩) := by decide +kernel
  cases hout : refine (byBits fun b => if b = 2 then 1 / 2 else 3 / 5) twoBits with
  | error e =>
    rw [hout] at hrun
    cases hrun
  | ok out =>
    rw [hout] at hrun
    obtain ⟨hquality, hmeasure⟩ := Prod.mk.inj (Option.some.inj hrun)
    refine ⟨out, rfl, ?_⟩
    rw [hquality, hmeasure]
    decide +kernel

/-- Where every further bit helps, the target is met. -/
theorem refine_measured_iff_met : ∃ out, refine (byBits fun b => 1 / 10 - b / 50) twoBits = .ok out ∧
    (out.2.1 = (byBits fun b => 1 / 10 - b / 50).measure out.1 ↔ StuckUnchanged (byBits fun b => 1 / 10 - b / 50) twoBits) ∧
      out.2.1.kl.le ((byBits fun b => 1 / 10 - b / 50).measure twoBits).kl = true := by
  have hrun : (refine (byBits fun b => 1 / 10 - b / 50) twoBits).toOption.isSome = true := by decide +kernel
  cases hout : refine (byBits fun b => 1 / 10 - b / 50) twoBits with
  | error e =>
    rw [hout] at hrun
    cases hrun
  | ok out => exact ⟨out, rfl, (refine_measured_iff hout).1, (refine_measured_iff hout).2 fun _ _ _ => nofun⟩

end Orka
