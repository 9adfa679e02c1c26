import Orka.Lemmas.Autoquant

/-!
# Acceptance and endings of a run

An accepted run rests on evidence computed on the artifact it ends with, as long as no pack is taken while the state holds
evidence; and a run ends in its report if and only if every exception it comes to is one its handlers name.
-/

namespace Orka

open Dynamic Fresh

set_option linter.unusedSectionVars false

variable {α : Type} [Zero α] [One α] [Add α] [IntCast α] [Div α] [NatCast α] [BEq α] [LE α] [LT α] [DecidableLE α] [DecidableLT α]
  {world : Outside α} {config : RunConfig α}

/-! ## Fresh evidence -/

/-- The first state holds no evidence. -/
theorem sound_start : Fresh.Sound HarnessState.log HarnessState.holdsEvidence (HarnessState.start config) := by
  intro i hi
  cases i with
  | verification => cases hi
  | quality => cases hi

/-- Every session of a run holds fresh evidence. -/
theorem sound_of_reaches {s : Session α}
    (hpack : ∀ t, Visits world config t → t.packs world config = true →
      t.state.verificationPassed = false ∧ t.state.objectiveMet = false)
    (h : Relation.ReflTransGen (Next world config) (Session.start config) s) (hlt : s.state.step ≤ config.maxSteps) :
    Fresh.Sound HarnessState.log HarnessState.holdsEvidence s.state := by
  induction h with
  | refl => exact sound_start
  | @tail t u ht hu ih =>
    have hstep := step_of_next hu
    have htlt : t.state.step < config.maxSteps := by omega
    obtain ⟨client, action, result, ha, rfl⟩ := acts_of_next hu
    exact sound_recorded ha (hpack t ⟨ht, htlt⟩) (ih htlt.le)

variable (world config) in
/-- In a run that packs only while the state holds no evidence, the verification and the quality it is accepted by were computed
after its last successful pack. -/
theorem fresh_of_succeeded
    (hpack : ∀ s, Visits world config s → s.packs world config = true →
      s.state.verificationPassed = false ∧ s.state.objectiveMet = false)
    (h : (runAutoquant world config).state.status = .succeeded) (i : Evidence) :
    Fresh.Holds (runAutoquant world config).state.log i := by
  obtain ⟨s, client, action, result, hs, ha, hacc, he⟩ := accepted_of_succeeded h
  have hsound := sound_recorded ha (hpack s hs) (sound_of_reaches hpack hs.1 hs.2.le)
  have hgate : acceptanceGate (s.recorded client action result) = true := by
    rcases Bool.or_eq_true_iff.1 hacc with hg | hr
    · exact hg
    · exact gate_of_accepted ha hr
  rw [acceptanceGate, Bool.and_eq_true] at hgate
  rw [he]
  cases i with
  | verification => exact hsound .verification hgate.1
  | quality => exact hsound .quality hgate.2

/-- A planner that calls the tools of a list in turn, each for nothing, in a run where every tool finds what it needs: one
matrix to quantize, a pulse check that stays below any target from `1/50` on, and a verification that passes. -/
def scriptedWorld (names : List String) : Outside ℚ where
  loads _ := .ok (.dict [])
  text _ := ""
  ofInt n := .ok n
  parseFloat _ := .error ⟨.valueError, "could not convert string to float"⟩
  elapsed _ := 0
  post n :=
    match names[n]? with
    | some name =>
      .ok (.dict [("choices", .list [.dict [("message", .dict [("tool_calls", .list
        [.dict [("function", .dict [("name", .str name), ("arguments", .str "{}")])]])])]])])
    | none => .error ⟨.stopIteration, ""⟩
  inspectCheckpoint _ := .ok ([("q_proj", "attn.q")], 1)
  deriveConfig _ := .ok ([("q_proj", ⟨"rvq", 4, 2, "block-max", false, "policy", 7 / 10, ""⟩)], [("q_proj", "attn.q")])
  writeAllocation _ := .ok ()
  unlink _ := .ok ()
  packFn _ _ _ := .ok ()
  pulseFn := some fun _ _ => .ok (.record (.float (1 / 100)) (.float 1))
  artifactExists _ := true
  verifyFn _ _ := .ok (.dict [("ok", .bool true)])
  makeDir := .ok ()
  writeReport := .ok ()

/-- A run of at most eight steps for the knee. -/
def kneeConfig : RunConfig ℚ where
  gratisBaseUrl := "http://gratis"
  model := "gratis-auto"
  maxUsd := 1 / 20
  maxSteps := 8
  timeoutSeconds := 60
  objective := .knee
  target := some (1 / 50)
  outputDir := "out"
  source := "model"
  hasUrl := by decide
  hasModel := by decide
  hasBudget := by norm_num
  hasSteps := by decide
  hasTime := by decide

/-- A scripted run through every tool, its quality fresh at the end. -/
theorem fresh_of_succeeded_scripted :
    Fresh.Holds (runAutoquant (scriptedWorld ["derive", "allocate", "pack", "pulse_check", "verify"]) kneeConfig).state.log
      .quality := by
  have hpack : ∀ s ∈ visited (scriptedWorld ["derive", "allocate", "pack", "pulse_check", "verify"]) kneeConfig 8
      (Session.start kneeConfig),
      s.packs (scriptedWorld ["derive", "allocate", "pack", "pulse_check", "verify"]) kneeConfig = true →
        s.state.verificationPassed = false ∧ s.state.objectiveMet = false := by decide +kernel
  exact fresh_of_succeeded (scriptedWorld ["derive", "allocate", "pack", "pulse_check", "verify"]) kneeConfig
    (fun s hs => hpack s (mem_visited_of_visits hs)) (by decide +kernel) .quality

/-- A run that measures its artifact, refines the candidate, packs again and verifies succeeds by the quality of the artifact
that is gone. -/
theorem stale_quality_accepted :
    (runAutoquant (scriptedWorld ["derive", "allocate", "pack", "pulse_check", "refine", "allocate", "pack", "verify"])
      kneeConfig).state.status = .succeeded ∧
    ¬ Fresh.Holds (runAutoquant (scriptedWorld ["derive", "allocate", "pack", "pulse_check", "refine", "allocate", "pack", "verify"])
      kneeConfig).state.log .quality := by
  decide +kernel

/-! ## Endings -/

/-- A run returns a state that says how it ended, and its report says the same. -/
def Ending.Proper (ending : Ending α) : Prop :=
  ending.raised = none ∧ (ending.state.status = .succeeded ∨ ending.state.status = .failed) ∧
    ∃ report, ending.report = some report ∧ report.status = ending.state.status ∧
      report.failureReason = ending.state.failureReason

/-- Every exception of a round is one that is named where it arises, and `json` can write what the round records. -/
def Handled (world : Outside α) (config : RunConfig α) (s : Session α) : Prop :=
  (config.timeoutSeconds : α) < world.elapsed s.state.step ∨
    match s.client.nextAction world s.state.step with
    | (_, .error e) => Caught e
    | (client, .ok action) =>
      match executeValidated world config { s.state with spentUsd := client.spentUsd } action with
      | .error e => Caught e ∨ (e.kind = .valueError ∧ (e.text = "unregistered_tool" ∨ action.jsonable))
      | .ok result => action.jsonable ∧ result.jsonable

/-- `json` can write the trace of a state. -/
def HarnessState.traceJsonable (state : HarnessState α) : Bool := state.trace.all fun entry => entry.1.jsonable && entry.2.jsonable

/-- What a state holds it has from its trace. -/
def HarnessState.Traced (state : HarnessState α) : Prop :=
  state.traceJsonable → state.verification.all Value.itemsJsonable ∧ state.quality.all Value.itemsJsonable

theorem traced_start : (HarnessState.start config).Traced := fun _ => ⟨rfl, rfl⟩

/-- The record can be written when it could and the action and result can. -/
theorem traceJsonable_recorded (s : Session α) (client : GratisClient α) (action : Value α) (result : ToolResult α) :
    (s.recorded client action result).traceJsonable = (s.state.traceJsonable && (action.jsonable && result.jsonable)) := by
  simp [HarnessState.traceJsonable, Session.recorded, HarnessState.record]

/-- A recorded round is on the trace. -/
theorem traced_recorded {s : Session α} (h : s.state.Traced) (client : GratisClient α) (action : Value α)
    (result : ToolResult α) : (s.recorded client action result).Traced := by
  intro ht
  rw [traceJsonable_recorded, Bool.and_eq_true, Bool.and_eq_true, ToolResult.jsonable, Bool.and_eq_true] at ht
  obtain ⟨htrace, -, hq, hv⟩ := ht
  obtain ⟨hver, hqual⟩ := h htrace
  constructor
  · show (result.verification.or s.state.verification).all _ = true
    cases hr : result.verification with
    | none => exact hver
    | some v => rwa [hr] at hv
  · show (result.quality.or s.state.quality).all _ = true
    cases hr : result.quality with
    | none => exact hqual
    | some v => rwa [hr] at hq

variable (world config) in
/-- Writing the report ends the run properly exactly when it is written and so is the trace. -/
theorem proper_written_iff (state : HarnessState α) (hstatus : state.status ≠ .running) (ht : state.Traced) :
    (match writeReport world config state with
      | .ok report => (⟨state, some report, none⟩ : Ending α)
      | .error e => ⟨state, none, some e⟩).Proper ↔ world.writeReport = .ok () ∧ state.traceJsonable := by
  have hends : state.status = .succeeded ∨ state.status = .failed := by
    cases h : state.status with
    | running => exact absurd h hstatus
    | succeeded => exact .inl rfl
    | failed => exact .inr rfl
  unfold writeReport
  by_cases hj : state.traceJsonable = true
  · obtain ⟨hver, hqual⟩ := ht hj
    have hreport : (reportOf config state).jsonable = true :=
      Bool.and_eq_true_iff.2 ⟨Bool.and_eq_true_iff.2 ⟨hver, hqual⟩, hj⟩
    rw [if_pos hreport]
    cases hw : world.writeReport with
    | error e => exact iff_of_false (fun h => nomatch h.1) (fun h => nomatch h.1)
    | ok u => exact iff_of_true ⟨rfl, hends, _, rfl, rfl, rfl⟩ ⟨rfl, hj⟩
  · have hreport : (reportOf config state).jsonable ≠ true := fun h => hj (Bool.and_eq_true_iff.1 h).2
    rw [if_neg hreport]
    exact iff_of_false (fun h => nomatch h.1) (fun h => hj h.2)

variable (world config) in
/-- A finished run is properly ended if its report can be written. -/
theorem proper_finish_iff {state : HarnessState α} (ht : state.Traced) (reason : Option String) :
    (finish world config state reason).Proper ↔ world.writeReport = .ok () ∧ state.traceJsonable := by
  unfold finish
  cases reason with
  | some reason =>
    exact proper_written_iff world config (state.fail reason) nofun ht
  | none =>
    simp only
    by_cases h : state.status = .running
    · rw [if_pos h]
      exact proper_written_iff world config (state.fail "incomplete") nofun ht
    · rw [if_neg h]
      exact proper_written_iff world config state h ht

/-- A handled exception ends the run properly exactly when it is caught and the report written. -/
theorem proper_handle_iff {state : HarnessState α} (ht : state.Traced) (e : Exc) :
    (handle world config state e).Proper ↔ Caught e ∧ world.writeReport = .ok () ∧ state.traceJsonable := by
  unfold handle
  split
  · next h => rw [proper_finish_iff world config ht, and_iff_right (show Caught e from .inl h)]
  · next hg =>
    split
    · next h => rw [proper_finish_iff world config ht, and_iff_right (show Caught e from .inr h)]
    · next hstop => exact iff_of_false (fun h => nomatch h.1) (fun h => h.1.elim hg hstop)

/-- A round is handled exactly when its action and result can be written. -/
theorem handled_of_acts {s : Session α} {client : GratisClient α} {action : Value α} {result : ToolResult α}
    (h : Acts world config s client action result) : Handled world config s ↔ action.jsonable ∧ result.jsonable := by
  cases h with
  | returned ht hn hr =>
    rw [Handled, or_iff_right ht, hn]
    simp only
    rw [hr]
  | @rejected e ht hn he hk hu =>
    have hcaught : ¬ Caught e := by
      rintro (h | h)
      · cases hk.symm.trans h
      · cases hk.symm.trans h
    rw [Handled, or_iff_right ht, hn]
    simp only
    rw [he]
    simp only
    rw [or_iff_right hcaught, and_iff_right hk, or_iff_right hu]
    exact (and_iff_left rfl).symm

/-- **Endings.** From a session on, a run ends properly if and only if its rounds are handled and its report can be written. -/
theorem proper_loop_iff {left : ℕ} {s : Session α} (ht : s.state.Traced) :
    (loop world config left s).Proper ↔ world.writeReport = .ok () ∧ s.state.traceJsonable ∧
      ∀ t, Relation.ReflTransGen (Next world config) s t → t.state.step < s.state.step + left → Handled world config t := by
  induction left generalizing s with
  | zero =>
    rw [loop, proper_finish_iff world config ht]
    refine and_congr_right fun _ => (and_iff_left fun t hst hlt => ?_).symm
    exact absurd hlt (Nat.not_lt.2 (step_le_of_reaches hst))
  | succ left ih =>
    -- unless the round goes on, it is the only one left
    have last : (∀ t, round world config s ≠ .goesOn t) →
        ((∀ t, Relation.ReflTransGen (Next world config) s t → t.state.step < s.state.step + (left + 1) →
          Handled world config t) ↔ Handled world config s) := by
      refine fun hend => ⟨fun h => h s .refl (by omega), fun h t hst _ => ?_⟩
      rcases hst.cases_head with rfl | ⟨u, hu, -⟩
      · exact h
      · exact absurd hu (hend u)
    have hcase := round_cases world config s
    rw [loop]
    generalize hround : round world config s = outcome at hcase last
    cases hcase with
    | timeout h =>
      rw [last fun t ht => by cases ht]
      simp only
      rw [proper_finish_iff world config ht, and_iff_left (show Handled world config s from .inl h)]
    | noAction h hn =>
      rw [last fun t ht => by cases ht]
      simp only
      rw [proper_handle_iff ht, Handled, or_iff_right h, hn]
      exact and_rotate
    | unregistered h hn he hk hu =>
      have hhandled : Handled world config s := by
        rw [Handled, or_iff_right h, hn]
        simp only
        rw [he]
        exact .inr ⟨hk, .inl hu⟩
      rw [last (fun t ht => by cases ht), and_iff_left hhandled]
      exact proper_finish_iff world config (by exact ht) _
    | @escapes client action e h hn he hk =>
      have hhandled : Handled world config s ↔ Caught e := by
        rw [Handled, or_iff_right h, hn]
        simp only
        rw [he]
        exact or_iff_left fun hv => hk hv.1
      rw [last (fun t ht => by cases ht), hhandled]
      refine (proper_handle_iff (by exact ht) e).trans ?_
      exact and_rotate
    | @accepted client action result ha _ =>
      have htrace : (s.recorded client action result).succeed.traceJsonable = _ := traceJsonable_recorded s client action result
      rw [last (fun t ht => by cases ht), handled_of_acts ha]
      refine (proper_finish_iff world config (by exact traced_recorded ht client action result) none).trans ?_
      rw [htrace]
      simp only [Bool.and_eq_true]
    | @goesOn client action result ha _ _ =>
      simp only
      rw [ih (traced_recorded ht _ _ _), traceJsonable_recorded]
      simp only [Bool.and_eq_true]
      rw [step_of_next hround]
      constructor
      · rintro ⟨hw, ⟨hj, hrec⟩, hrest⟩
        refine ⟨hw, hj, fun t hst hlt => ?_⟩
        rcases hst.cases_head with rfl | ⟨u, hu, hut⟩
        · exact (handled_of_acts ha).2 hrec
        · obtain rfl := Round.goesOn.inj (hround.symm.trans hu)
          exact hrest t hut (by omega)
      · rintro ⟨hw, hj, hrest⟩
        refine ⟨hw, ⟨hj, (handled_of_acts ha).1 (hrest s .refl (by omega))⟩, fun t hut hlt => ?_⟩
        exact hrest t (.head hround hut) (by omega)

variable (world config) in
/-- A run returns a finished state and writes its report if and only if the output directory can be made, the report can be
written, and every round the run starts is handled. -/
theorem runAutoquant_proper_iff :
    (runAutoquant world config).Proper ↔
      world.makeDir = .ok () ∧ world.writeReport = .ok () ∧ ∀ s, Visits world config s → Handled world config s := by
  unfold runAutoquant
  cases hdir : world.makeDir with
  | error e => exact iff_of_false (fun h => nomatch h.1) (fun h => nomatch h.1)
  | ok u =>
    refine (proper_loop_iff traced_start).trans ?_
    refine ⟨fun ⟨hw, _, hall⟩ => ⟨rfl, hw, fun s hs => ?_⟩, fun ⟨_, hw, hall⟩ => ⟨hw, rfl, fun s hs hlt => ?_⟩⟩
    · exact hall s hs.1 ((Nat.zero_add config.maxSteps).symm ▸ hs.2)
    · exact hall s ⟨hs, (Nat.zero_add config.maxSteps) ▸ hlt⟩

/-- The run is left as it was, by an exception and without a report. -/
def Ending.Escaped (ending : Ending α) : Prop :=
  ending.raised.isSome = true ∧ ending.report.isNone = true ∧ ending.state.status = .running

instance (ending : Ending α) : Decidable ending.Escaped := inferInstanceAs (Decidable (_ ∧ _ ∧ _))

/-- A packer that raises a `RuntimeError`, a verifier that raises an `OSError` and a tool call that is a text each leave the run
at work and without a report. -/
theorem exceptions_escape :
    (runAutoquant { scriptedWorld ["derive", "allocate", "pack"] with
      packFn := fun _ _ _ => .error ⟨.runtimeError, "no memory"⟩ } kneeConfig).Escaped ∧
    (runAutoquant { scriptedWorld ["verify"] with
      verifyFn := fun _ _ => .error ⟨.osError, "manifest.json"⟩ } kneeConfig).Escaped ∧
    (runAutoquant { scriptedWorld [] with
      post := fun _ => .ok (.dict [("choices", .list [.dict [("message", .dict [("tool_calls", .str "x")])]])]) }
      kneeConfig).Escaped ∧
    ¬ (runAutoquant { scriptedWorld ["verify"] with
      verifyFn := fun _ _ => .error ⟨.osError, "manifest.json"⟩ } kneeConfig).Proper := by
  have hverify : (runAutoquant { scriptedWorld ["verify"] with
      verifyFn := fun _ _ => .error ⟨.osError, "manifest.json"⟩ } kneeConfig).Escaped := by decide +kernel
  refine ⟨by decide +kernel, hverify, by decide +kernel, fun h => ?_⟩
  rw [Ending.Escaped, h.1] at hverify
  exact nomatch hverify.1

end Orka
