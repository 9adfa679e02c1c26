import Orka.Autoquant
import Orka.Lib.Fresh

/-!
# Rounds of the harness

What a round records, the sessions a run starts its rounds in, and how a run ends.
-/

namespace Orka

open Dynamic Fresh

set_option linter.unusedSectionVars false

variable {α : Type} [Zero α] [One α] [Add α] [IntCast α] [Div α] [NatCast α] [BEq α] [LE α] [LT α] [DecidableLE α] [DecidableLT α]
  {world : Outside α} {config : RunConfig α}

/-! ## What a round records -/

/-- The round that starts in a session records an action with a result, the client being as given afterwards. -/
inductive Acts (world : Outside α) (config : RunConfig α) (s : Session α) : GratisClient α → Value α → ToolResult α → Prop where
  | returned {client : GratisClient α} {action : Value α} {result : ToolResult α} :
      ¬ (config.timeoutSeconds : α) < world.elapsed s.state.step →
      s.client.nextAction world s.state.step = (client, .ok action) →
      executeValidated world config { s.state with spentUsd := client.spentUsd } action = .ok result →
      Acts world config s client action result
  | rejected {client : GratisClient α} {action : Value α} {e : Exc} :
      ¬ (config.timeoutSeconds : α) < world.elapsed s.state.step →
      s.client.nextAction world s.state.step = (client, .ok action) →
      executeValidated world config { s.state with spentUsd := client.spentUsd } action = .error e →
      e.kind = .valueError → e.text ≠ "unregistered_tool" →
      Acts world config s client action (.rejected e.text)

/-- The state after a round that records an action with a result. -/
def Session.recorded (s : Session α) (client : GratisClient α) (action : Value α) (result : ToolResult α) : HarnessState α :=
  { s.state with spentUsd := client.spentUsd }.record action result

/-- The exceptions the handlers around the loop name. -/
def Caught (e : Exc) : Prop := e.kind = .custom "GratisError" ∨ e.kind = .stopIteration

/-- What a round can do. -/
inductive RoundCase (world : Outside α) (config : RunConfig α) (s : Session α) : Round α → Prop where
  | timeout : (config.timeoutSeconds : α) < world.elapsed s.state.step →
      RoundCase world config s (.finishes s.state (some "timeout_exceeded"))
  | noAction {client : GratisClient α} {e : Exc} : ¬ (config.timeoutSeconds : α) < world.elapsed s.state.step →
      s.client.nextAction world s.state.step = (client, .error e) → RoundCase world config s (.raises s.state e)
  | unregistered {client : GratisClient α} {action : Value α} {e : Exc} :
      ¬ (config.timeoutSeconds : α) < world.elapsed s.state.step →
      s.client.nextAction world s.state.step = (client, .ok action) →
      executeValidated world config { s.state with spentUsd := client.spentUsd } action = .error e →
      e.kind = .valueError → e.text = "unregistered_tool" →
      RoundCase world config s (.finishes { s.state with spentUsd := client.spentUsd } (some "unregistered_tool"))
  | escapes {client : GratisClient α} {action : Value α} {e : Exc} :
      ¬ (config.timeoutSeconds : α) < world.elapsed s.state.step →
      s.client.nextAction world s.state.step = (client, .ok action) →
      executeValidated world config { s.state with spentUsd := client.spentUsd } action = .error e →
      e.kind ≠ .valueError → RoundCase world config s (.raises { s.state with spentUsd := client.spentUsd } e)
  | goesOn {client : GratisClient α} {action : Value α} {result : ToolResult α} : Acts world config s client action result →
      acceptanceGate (s.recorded client action result) = false → result.accepted = false →
      RoundCase world config s (.goesOn ⟨client, s.recorded client action result⟩)
  | accepted {client : GratisClient α} {action : Value α} {result : ToolResult α} : Acts world config s client action result →
      (acceptanceGate (s.recorded client action result) || result.accepted) = true →
      RoundCase world config s (.finishes (s.recorded client action result).succeed none)

/-- A tool that is run settles the round. -/
theorem roundCase_settle {s : Session α} {client : GratisClient α} {action : Value α} {result : ToolResult α}
    (h : Acts world config s client action result) :
    RoundCase world config s (settle client { s.state with spentUsd := client.spentUsd } action result) := by
  unfold settle
  simp only
  split
  · next hg => exact .accepted h hg
  · next hg =>
    rw [Bool.or_eq_true, not_or, Bool.not_eq_true, Bool.not_eq_true] at hg
    exact .goesOn h hg.1 hg.2

variable (world config) in
/-- **The cases of a round.** -/
theorem round_cases (s : Session α) : RoundCase world config s (round world config s) := by
  unfold round
  simp only
  split
  · next ht => exact .timeout ht
  next ht =>
  split
  · next e hn => exact .noAction ht hn
  next client action hn =>
  split
  · next result hr => exact roundCase_settle (.returned ht hn hr)
  next e he =>
  split
  · next hk =>
    split
    · next hu => exact .unregistered ht hn he hk hu
    · next hu => exact roundCase_settle (.rejected ht hn he hk hu)
  · next hk => exact .escapes ht hn he hk

/-! ## The sessions of a run -/

/-- One round leads from a session to the next. -/
def Next (world : Outside α) (config : RunConfig α) (s t : Session α) : Prop := round world config s = .goesOn t

/-- A run starts a round in a session. -/
def Visits (world : Outside α) (config : RunConfig α) (s : Session α) : Prop :=
  Relation.ReflTransGen (Next world config) (Session.start config) s ∧ s.state.step < config.maxSteps

/-- What a round that goes on has recorded. -/
theorem acts_of_next {s t : Session α} (h : Next world config s t) :
    ∃ client action result, Acts world config s client action result ∧ t = ⟨client, s.recorded client action result⟩ := by
  have hc := round_cases world config s
  rw [show round world config s = .goesOn t from h] at hc
  cases hc with
  | goesOn ha _ _ => exact ⟨_, _, _, ha, rfl⟩

/-- A step of the loop counts one. -/
theorem step_of_next {s t : Session α} (h : Next world config s t) : t.state.step = s.state.step + 1 := by
  obtain ⟨client, action, result, -, rfl⟩ := acts_of_next h
  rfl

/-- The count of steps never falls. -/
theorem step_le_of_reaches {s t : Session α} (h : Relation.ReflTransGen (Next world config) s t) : s.state.step ≤ t.state.step := by
  induction h with
  | refl => exact le_rfl
  | tail _ hn ih =>
    rw [step_of_next hn]
    exact ih.trans (Nat.le_succ _)

/-- Up to its last round a run is at work. -/
theorem running_of_reaches {s : Session α} (h : Relation.ReflTransGen (Next world config) (Session.start config) s) :
    s.state.status = .running := by
  induction h with
  | refl => rfl
  | tail _ hn ih =>
    obtain ⟨client, action, result, -, rfl⟩ := acts_of_next hn
    exact ih

/-- The `while`, one round at a time: the rounds `loop` is given never run out. -/
theorem loop_eq (s : Session α) :
    loop world config (config.maxSteps - s.state.step) s =
      if s.state.step < config.maxSteps then
        match round world config s with
        | .goesOn t => loop world config (config.maxSteps - t.state.step) t
        | .finishes state reason => finish world config state reason
        | .raises state exc => handle world config state exc
      else finish world config s.state (some "step_limit_exceeded") := by
  split
  · next h =>
    obtain ⟨left, hleft⟩ : ∃ left, config.maxSteps - s.state.step = left + 1 := ⟨_, (Nat.succ_pred_eq_of_pos (by omega)).symm⟩
    rw [hleft, loop]
    cases hr : round world config s with
    | goesOn t =>
      have hstep := step_of_next hr
      simp only
      rw [show config.maxSteps - t.state.step = left by omega]
    | finishes state reason => rfl
    | raises state exc => rfl
  · next h => rw [Nat.sub_eq_zero_of_le (Nat.le_of_not_lt h), loop]

/-- The sessions of the next rounds, from a session on. -/
def visited (world : Outside α) (config : RunConfig α) : ℕ → Session α → List (Session α)
  | 0, _ => []
  | left + 1, s =>
    s :: match round world config s with
      | .goesOn t => visited world config left t
      | _ => []

/-- What is reached within the steps left is visited. -/
theorem mem_visited {left : ℕ} {s t : Session α} (h : Relation.ReflTransGen (Next world config) s t)
    (hlt : t.state.step < s.state.step + left) : t ∈ visited world config left s := by
  induction left generalizing s with
  | zero => exact absurd hlt (Nat.not_lt.2 (step_le_of_reaches h))
  | succ left ih =>
    rw [visited]
    rcases h.cases_head with rfl | ⟨u, hu, hut⟩
    · exact List.mem_cons_self
    · rw [show round world config s = .goesOn u from hu]
      refine List.mem_cons_of_mem _ (ih hut ?_)
      rw [step_of_next hu]
      omega

theorem mem_visited_of_visits {s : Session α} (h : Visits world config s) :
    s ∈ visited world config config.maxSteps (Session.start config) :=
  mem_visited h.1 ((Nat.zero_add config.maxSteps).symm ▸ h.2)

/-! ## How a run ends -/

/-- The last thing a run does. -/
inductive LastCase (world : Outside α) (config : RunConfig α) (s : Session α) : Ending α → Prop where
  | limit : LastCase world config s (finish world config s.state (some "step_limit_exceeded"))
  | finishes {state : HarnessState α} {reason : Option String} : s.state.step < config.maxSteps →
      round world config s = .finishes state reason → LastCase world config s (finish world config state reason)
  | raises {state : HarnessState α} {exc : Exc} : s.state.step < config.maxSteps →
      round world config s = .raises state exc → LastCase world config s (handle world config state exc)

variable (world config) in
/-- Every run ends in a last round. -/
theorem exists_lastCase {left : ℕ} {s : Session α} (h : s.state.step + left = config.maxSteps) :
    ∃ t, Relation.ReflTransGen (Next world config) s t ∧ LastCase world config t (loop world config left s) := by
  induction left generalizing s with
  | zero => exact ⟨s, .refl, .limit⟩
  | succ left ih =>
    have hlt : s.state.step < config.maxSteps := by omega
    rw [loop]
    cases hr : round world config s with
    | goesOn t =>
      obtain ⟨u, htu, hu⟩ := ih (s := t) (by rw [step_of_next hr]; omega)
      exact ⟨u, .head hr htu, hu⟩
    | finishes state reason => exact ⟨s, .refl, .finishes hlt hr⟩
    | raises state exc => exact ⟨s, .refl, .raises hlt hr⟩

variable (world config) in
/-- Finishing with a reason fails the state. -/
@[simp] theorem finish_state (state : HarnessState α) (reason : String) :
    (finish world config state (some reason)).state = state.fail reason := by
  unfold finish
  simp only [HarnessState.fail, reduceCtorEq, if_false]
  split <;> rfl

variable (world config) in
/-- Finishing a state that succeeded leaves it so. -/
@[simp] theorem finish_succeed_state (state : HarnessState α) : (finish world config state.succeed none).state = state.succeed := by
  unfold finish
  simp only [HarnessState.succeed, reduceCtorEq, if_false]
  split <;> rfl

/-- A run that succeeds has accepted what its last round recorded. -/
theorem accepted_of_succeeded (h : (runAutoquant world config).state.status = .succeeded) :
    ∃ s client action result, Visits world config s ∧ Acts world config s client action result ∧
      (acceptanceGate (s.recorded client action result) || result.accepted) = true ∧
      (runAutoquant world config).state = (s.recorded client action result).succeed := by
  unfold runAutoquant at h ⊢
  split at h
  · next => cases h
  next hdir =>
  obtain ⟨s, hs, hlast⟩ := exists_lastCase world config (s := Session.start config) (Nat.zero_add _)
  generalize loop world config config.maxSteps (Session.start config) = ending at h hlast ⊢
  cases hlast with
  | limit =>
    rw [finish_state] at h
    cases h
  | finishes hlt hr =>
    have hc := round_cases world config s
    rw [hr] at hc
    cases hc with
    | timeout _ =>
      rw [finish_state] at h
      cases h
    | unregistered _ _ _ _ _ =>
      rw [finish_state] at h
      cases h
    | accepted ha hg =>
      rw [finish_succeed_state]
      exact ⟨s, _, _, _, ⟨hs, hlt⟩, ha, hg, rfl⟩
  | raises hlt hr =>
    have hrun : (s.state).status = .running := running_of_reaches hs
    have hc := round_cases world config s
    rw [hr] at hc
    unfold handle at h
    split at h
    · rw [finish_state] at h
      cases h
    · split at h
      · rw [finish_state] at h
        cases h
      · cases hc with
        | noAction _ _ => exact absurd (hrun.symm.trans h) (by decide)
        | escapes _ _ _ _ => exact absurd (hrun.symm.trans h) (by decide)

/-! ## The evidence of a run -/

/-- What an acceptance rests on. -/
inductive Evidence where
  | verification
  | quality
  deriving DecidableEq

/-- What a result says has been done: a pack produces the artifact, a pulse check and a verification compute on it. -/
def ToolResult.event : ToolResult α → Option (Event Evidence)
  | .packed _ => some .produced
  | .pulsed _ => some (.computed .quality)
  | .verified _ _ _ _ => some (.computed .verification)
  | _ => none

/-- What has been done in a run. -/
def HarnessState.log (state : HarnessState α) : List (Event Evidence) := state.trace.filterMap fun entry => entry.2.event

/-- The evidence a state would be accepted by. -/
def HarnessState.holdsEvidence (state : HarnessState α) : Evidence → Prop
  | .verification => state.verificationPassed
  | .quality => state.objectiveMet

/-- What a round records, if it records anything. -/
def Session.act (world : Outside α) (config : RunConfig α) (s : Session α) : Option (GratisClient α × Value α × ToolResult α) :=
  if (config.timeoutSeconds : α) < world.elapsed s.state.step then none
  else match s.client.nextAction world s.state.step with
    | (_, .error _) => none
    | (client, .ok action) =>
      match executeValidated world config { s.state with spentUsd := client.spentUsd } action with
      | .ok result => some (client, action, result)
      | .error e =>
        if e.kind = .valueError ∧ e.text ≠ "unregistered_tool" then some (client, action, .rejected e.text) else none

/-- What the session acts is its client, action and result. -/
theorem Acts.act_eq {s : Session α} {client : GratisClient α} {action : Value α} {result : ToolResult α}
    (h : Acts world config s client action result) : s.act world config = some (client, action, result) := by
  cases h with
  | returned ht hn hr =>
    rw [Session.act, if_neg ht, hn]
    simp only
    rw [hr]
  | rejected ht hn he hk hu =>
    rw [Session.act, if_neg ht, hn]
    simp only
    rw [he]
    exact if_pos ⟨hk, hu⟩

/-- The round packs, and succeeds in it. -/
def Session.packs (world : Outside α) (config : RunConfig α) (s : Session α) : Bool :=
  match s.act world config with
  | some (_, _, .packed _) => true
  | _ => false

/-- The tools other than `verify` record no verification. -/
theorem verification_eq_none {state : HarnessState α} {name : String} {r : ToolResult α} (hne : name ≠ "verify")
    (h : (name, Except.ok r) ∈ tools world config state) : r.verification = none := by
  simp only [tools, List.mem_cons, Prod.mk.injEq, List.not_mem_nil, or_false] at h
  rcases h with ⟨-, h⟩ | ⟨-, h⟩ | ⟨-, h⟩ | ⟨-, h⟩ | ⟨-, h⟩ | ⟨-, h⟩ | ⟨rfl, -⟩
  · obtain ⟨report, -, rfl⟩ := Steps.map_eq_ok.1 h.symm
    rfl
  · obtain ⟨⟨cfgs, classified⟩, -, h⟩ := Steps.bind_eq_ok.1 h.symm
    obtain ⟨-, -, h⟩ := Steps.bind_eq_ok.1 h
    obtain rfl := Except.ok.inj h
    rfl
  · obtain ⟨cfgs, -, h⟩ := Steps.bind_eq_ok.1 h.symm
    obtain ⟨-, -, h⟩ := Steps.bind_eq_ok.1 h
    obtain ⟨allocation, -, h⟩ := Steps.bind_eq_ok.1 h
    obtain ⟨-, -, h⟩ := Steps.bind_eq_ok.1 h
    obtain rfl := Except.ok.inj h
    rfl
  · unfold packTool at h
    split at h
    · cases h
    · obtain ⟨-, -, h⟩ := Steps.bind_eq_ok.1 h.symm
      obtain ⟨-, -, h⟩ := Steps.bind_eq_ok.1 h
      obtain rfl := Except.ok.inj h
      rfl
  · obtain ⟨quality, -, h⟩ := Steps.bind_eq_ok.1 h.symm
    obtain ⟨_, -, h⟩ := Steps.bind_eq_ok.1 h
    obtain ⟨_, -, h⟩ := Steps.bind_eq_ok.1 h
    obtain ⟨_, -, h⟩ := Steps.bind_eq_ok.1 h
    obtain ⟨_, -, h⟩ := Steps.bind_eq_ok.1 h
    obtain rfl := Except.ok.inj h
    rfl
  · obtain ⟨cfgs, -, h⟩ := Steps.bind_eq_ok.1 h.symm
    obtain ⟨-, -, h⟩ := Steps.bind_eq_ok.1 h
    obtain rfl := Except.ok.inj h
    rfl
  · exact absurd rfl hne

/-- What a verification records: the quality the state held, and whether that and the verification let the run be accepted. -/
theorem verified_of_verifyTool {state : HarnessState α} {ok accepted : Bool} {verification quality : List (String × Value α)}
    (h : verifyTool world state = .ok (.verified ok accepted verification quality)) :
    quality = state.quality.getD [] ∧ verification.lookup "passed" = some (.bool ok) ∧
      accepted = (ok && (getD quality "objective_met" (.bool false)).truth) := by
  unfold verifyTool at h
  split at h
  · cases h
  obtain ⟨v, -, h⟩ := Steps.bind_eq_ok.1 h
  split at h
  · obtain ⟨rfl, rfl, rfl, rfl⟩ := by simpa [pure, Except.pure] using h
    exact ⟨rfl, lookup_setItem _ _ _, rfl⟩
  · cases h

/-- A verified result comes from the verify tool. -/
theorem verifyTool_of_executed {state : HarnessState α} {action : Value α} {ok accepted : Bool}
    {verification quality : List (String × Value α)}
    (h : executeValidated world config state action = .ok (.verified ok accepted verification quality)) :
    verifyTool world state = .ok (.verified ok accepted verification quality) := by
  obtain ⟨⟨name, args⟩, -, h⟩ := Steps.bind_eq_ok.1 h
  simp only at h
  split at h
  · cases h
  next result hl =>
  subst h
  have hmem : (name, Except.ok (ToolResult.verified ok accepted verification quality)) ∈ tools world config state := by
    obtain ⟨pre, post, hsplit, -⟩ := List.lookup_eq_some_iff.1 hl
    rw [hsplit]
    exact List.mem_append_right _ List.mem_cons_self
  by_cases hv : name = "verify"
  · subst hv
    exact (Option.some.inj hl)
  · cases verification_eq_none hv hmem

/-- Recording appends the event of the result, if it has one. -/
theorem log_recorded (s : Session α) (client : GratisClient α) (action : Value α) (result : ToolResult α) :
    (s.recorded client action result).log = s.state.log ++ result.event.toList := by
  simp only [HarnessState.log, Session.recorded, HarnessState.record, List.filterMap_append, List.filterMap_cons,
    List.filterMap_nil]
  cases result.event <;> rfl

/-- What a round's verification leaves of the quality. -/
theorem objectiveMet_of_verified {s : Session α} {client : GratisClient α} {action : Value α} {ok accepted : Bool}
    {verification quality : List (String × Value α)}
    (ha : Acts world config s client action (.verified ok accepted verification quality)) :
    (s.recorded client action (.verified ok accepted verification quality)).objectiveMet = s.state.objectiveMet := by
  cases ha with
  | returned _ _ hr =>
    obtain ⟨rfl, -, -⟩ := verified_of_verifyTool (verifyTool_of_executed hr)
    rfl

/-- The run a verification accepts passes the gate as well. -/
theorem gate_of_accepted {s : Session α} {client : GratisClient α} {action : Value α} {result : ToolResult α}
    (ha : Acts world config s client action result) (h : result.accepted = true) :
    acceptanceGate (s.recorded client action result) = true := by
  cases ha with
  | rejected _ _ _ _ _ => cases h
  | returned _ _ hr =>
    cases result with
    | verified ok accepted verification quality =>
      obtain ⟨-, hpassed, hacc⟩ := verified_of_verifyTool (verifyTool_of_executed hr)
      rw [show accepted = true from h, eq_comm, Bool.and_eq_true] at hacc
      obtain ⟨rfl, hmet⟩ := hacc
      have hver : (s.recorded client action (.verified true accepted verification quality)).verificationPassed = true := by
        simp [HarnessState.verificationPassed, Session.recorded, HarnessState.record, ToolResult.verification, getD, hpassed,
          Value.truth]
      have hobj : (s.recorded client action (.verified true accepted verification quality)).objectiveMet = true := by
        simp only [HarnessState.objectiveMet, Session.recorded, HarnessState.record, ToolResult.quality, Option.some_or,
          Option.getD_some, getD] at hmet ⊢
        cases hl : quality.lookup "objective_met" with
        | none => simp [hl, Value.truth] at hmet
        | some v => simpa [hl] using hmet
      rw [acceptanceGate, hver, hobj]
      rfl
    | _ => cases h

/-- **One round.** A round keeps the evidence of a run fresh, unless it packs while the run holds evidence. -/
theorem sound_recorded {s : Session α} {client : GratisClient α} {action : Value α} {result : ToolResult α}
    (ha : Acts world config s client action result)
    (hpack : s.packs world config = true → s.state.verificationPassed = false ∧ s.state.objectiveMet = false)
    (h : Sound HarnessState.log HarnessState.holdsEvidence s.state) :
    Sound HarnessState.log HarnessState.holdsEvidence (s.recorded client action result) := by
  have hlog := log_recorded s client action result
  cases result with
  | packed path =>
    obtain ⟨hver, hobj⟩ := hpack (by rw [Session.packs, ha.act_eq])
    refine Sound.produced fun i hi => ?_
    cases i with
    | verification => exact Bool.false_ne_true (hver.symm.trans hi)
    | quality => exact Bool.false_ne_true (hobj.symm.trans hi)
  | pulsed quality =>
    refine h.computed hlog fun i hne hi => ?_
    cases i with
    | verification => exact hi
    | quality => exact absurd rfl hne
  | verified ok accepted verification quality =>
    refine h.computed hlog fun i hne hi => ?_
    cases i with
    | verification => exact absurd rfl hne
    | quality =>
      have hmet : (s.recorded client action (.verified ok accepted verification quality)).objectiveMet = true := hi
      exact (objectiveMet_of_verified ha).symm.trans hmet
  | inspected _ _ | derived _ _ | allocated _ _ | refined _ _ | rejected _ =>
    refine h.silent (hlog.trans (List.append_nil _)) fun i hi => ?_
    cases i with
    | verification => exact hi
    | quality => exact hi

end Orka
