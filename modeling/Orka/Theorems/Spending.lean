import Orka.Theorems.Autoquant
import Mathlib.Algebra.Field.Defs

/-!
# What a run has spent

The cost of a response is tested against the budget, added to the client and copied into the state, in this order. A response that
is over the budget or that does not hold one tool call leaves the round before its cost reaches the state.
-/

namespace Orka

open Dynamic

set_option linter.unusedSectionVars false

variable {α : Type} [Field α] [LinearOrder α] {world : Outside α} {config : RunConfig α}

/-! ## The responses of a run -/

/-- The response the round of a session receives, if it receives one. -/
def Session.response (world : Outside α) (config : RunConfig α) (s : Session α) : Option (Value α) :=
  if (config.timeoutSeconds : α) < world.elapsed s.state.step then none else (world.post s.state.step).toOption

/-- The cost of a response; zero if it states none that can be read. -/
def responseCost (world : Outside α) (response : Value α) : α := ((usageCost world response).toOption).getD 0

/-- The sum of the costs of the responses that the rounds of some sessions receive. -/
def totalCost (world : Outside α) (config : RunConfig α) (sessions : List (Session α)) : α :=
  ((sessions.filterMap (Session.response world config)).map (responseCost world)).sum

/-- The response of a round states a cost. -/
def Session.Priced (world : Outside α) (config : RunConfig α) (s : Session α) : Prop :=
  ∀ response, s.response world config = some response → ∃ cost, usageCost world response = .ok cost

/-- The response of a round costs nothing, or it fits into the budget and holds one tool call. -/
def Session.Charged (world : Outside α) (config : RunConfig α) (s : Session α) : Prop :=
  ∀ response, s.response world config = some response → responseCost world response = 0 ∨
    (s.client.spentUsd + responseCost world response ≤ s.client.maxUsd ∧ ∃ call, toolCall response = .ok call)

/-! ## One request -/

/-- What a request leads to. -/
inductive Answer (world : Outside α) (client : GratisClient α) (round : ℕ) : GratisClient α × Except Exc (Value α) → Prop where
  | failed {e : Exc} : world.post round = .error e → Answer world client round (client, .error e)
  | unpriced {response : Value α} {e : Exc} : world.post round = .ok response → usageCost world response = .error e →
      Answer world client round (client, .error e)
  | exhausted {response : Value α} {cost : α} {e : Exc} : world.post round = .ok response → usageCost world response = .ok cost →
      client.maxUsd < client.spentUsd + cost → Answer world client round (client, .error e)
  | answered {response : Value α} {cost : α} : world.post round = .ok response → usageCost world response = .ok cost →
      client.spentUsd + cost ≤ client.maxUsd →
      Answer world client round ({ client with spentUsd := client.spentUsd + cost }, toolCall response)

variable (world) in
/-- What the client answers, in cases. -/
theorem nextAction_cases (client : GratisClient α) (round : ℕ) : Answer world client round (client.nextAction world round) := by
  unfold GratisClient.nextAction
  cases hp : world.post round with
  | error e => exact .failed hp
  | ok response =>
    cases hc : usageCost world response with
    | error e => simpa [Except.bind, Except.map, hc] using Answer.unpriced hp hc
    | ok cost =>
      simp only [Except.bind, hc, Except.map]
      split
      · next hover => exact .exhausted hp hc hover
      · next hfits => exact .answered hp hc (not_lt.1 hfits)

/-- A cost that reads is the response's cost. -/
theorem responseCost_of_ok {response : Value α} {cost : α} (h : usageCost world response = .ok cost) :
    responseCost world response = cost := by
  rw [responseCost, h]
  rfl

/-- A post that returns in time is the response. -/
theorem response_of_post {s : Session α} {response : Value α} (ht : ¬ (config.timeoutSeconds : α) < world.elapsed s.state.step)
    (hp : world.post s.state.step = .ok response) : s.response world config = some response := by
  rw [Session.response, if_neg ht, hp]
  rfl

/-- A round that comes to an action has received a response, and its cost is added. -/
theorem response_of_nextAction {s : Session α} {client : GratisClient α} {action : Value α}
    (ht : ¬ (config.timeoutSeconds : α) < world.elapsed s.state.step)
    (h : s.client.nextAction world s.state.step = (client, .ok action)) :
    ∃ response, s.response world config = some response ∧ toolCall response = .ok action ∧
      client = { s.client with spentUsd := s.client.spentUsd + responseCost world response } ∧
        s.client.spentUsd + responseCost world response ≤ s.client.maxUsd := by
  have hcase := nextAction_cases world s.client s.state.step
  rw [h] at hcase
  generalize hout : (client, (Except.ok action : Except Exc (Value α))) = out at hcase
  cases hcase with
  | failed => cases hout
  | unpriced => cases hout
  | exhausted => cases hout
  | @answered response cost hp hc hfits =>
    obtain ⟨rfl, hcall⟩ := Prod.mk.inj hout
    refine ⟨response, response_of_post ht hp, hcall.symm, ?_, ?_⟩
    · rw [responseCost_of_ok hc]
    · rwa [responseCost_of_ok hc]

/-- A round that comes to no action leaves the cost of its response, if it has received one, out of the state. -/
theorem charged_iff_of_noAction {s : Session α} {client : GratisClient α} {e : Exc}
    (ht : ¬ (config.timeoutSeconds : α) < world.elapsed s.state.step)
    (hn : s.client.nextAction world s.state.step = (client, .error e)) (hpriced : s.Priced world config) :
    s.Charged world config ↔ totalCost world config [s] = 0 := by
  have hcase := nextAction_cases world s.client s.state.step
  rw [hn] at hcase
  generalize hout : (client, (Except.error e : Except Exc (Value α))) = out at hcase
  have htotal {response : Value α} (hr : s.response world config = some response) :
      totalCost world config [s] = responseCost world response := by simp [totalCost, hr]
  -- a response that is not taken is charged only if it costs nothing
  have hfree {response : Value α} (hr : s.response world config = some response)
      (hnot : ¬ (s.client.spentUsd + responseCost world response ≤ s.client.maxUsd ∧ ∃ call, toolCall response = .ok call)) :
      s.Charged world config ↔ totalCost world config [s] = 0 := by
    rw [htotal hr]
    refine ⟨fun h => (h response hr).resolve_right hnot, fun h response' hr' => ?_⟩
    obtain rfl := Option.some.inj (hr.symm.trans hr')
    exact Or.inl h
  cases hcase with
  | @failed e' hp =>
    have hr : s.response world config = none := by
      rw [Session.response, if_neg ht, hp]
      rfl
    refine iff_of_true (fun response h => ?_) (by simp [totalCost, hr])
    rw [hr] at h
    cases h
  | @unpriced response e' hp hc =>
    obtain ⟨cost, hcost⟩ := hpriced response (response_of_post ht hp)
    rw [hc] at hcost
    cases hcost
  | @exhausted response cost e' hp hc hover =>
    refine hfree (response_of_post ht hp) fun h => ?_
    rw [responseCost_of_ok hc] at h
    exact absurd h.1 (not_le.2 hover)
  | @answered response cost hp hc hfits =>
    refine hfree (response_of_post ht hp) ?_
    rintro ⟨-, call, hcall⟩
    rw [hcall] at hout
    cases hout

/-! ## The run -/

/-- The report says what the state spent. -/
theorem spent_of_writeReport {state : HarnessState α} {report : Report α} (h : writeReport world config state = .ok report) :
    report.spentUsd = state.spentUsd := by
  unfold writeReport at h
  split at h
  · obtain ⟨u, -, rfl⟩ := Steps.map_eq_ok.1 h
    rfl
  · cases h

/-- What a finished run reports it has spent. -/
theorem spent_of_finish {state : HarnessState α} {reason : Option String} {report : Report α}
    (h : (finish world config state reason).report = some report) :
    report.spentUsd = state.spentUsd ∧ (finish world config state reason).state.spentUsd = state.spentUsd := by
  unfold finish at h ⊢
  have hkept : ∀ st : HarnessState α, (if st.status = RunStatus.running then st.fail "incomplete" else st).spentUsd = st.spentUsd := by
    intro st
    split <;> rfl
  cases reason with
  | none =>
    simp only at h ⊢
    split at h
    · next written hw =>
      obtain rfl := Option.some.inj h
      exact ⟨(spent_of_writeReport hw).trans (hkept state), hkept state⟩
    · cases h
  | some reason =>
    simp only at h ⊢
    split at h
    · next written hw =>
      obtain rfl := Option.some.inj h
      exact ⟨(spent_of_writeReport hw).trans (hkept (state.fail reason)), hkept (state.fail reason)⟩
    · cases h

/-- The report after an exception says what the state spent. -/
theorem spent_of_handle {state : HarnessState α} {e : Exc} {report : Report α}
    (h : (handle world config state e).report = some report) :
    report.spentUsd = state.spentUsd ∧ (handle world config state e).state.spentUsd = state.spentUsd := by
  unfold handle at h ⊢
  split at h
  · next hg =>
    rw [if_pos hg]
    exact spent_of_finish h
  · next hg =>
    rw [if_neg hg]
    split at h
    · next hstop =>
      rw [if_pos hstop]
      exact spent_of_finish h
    · cases h

/-- The costs of the responses to one round and to the rounds after it. -/
theorem totalCost_cons (s : Session α) (sessions : List (Session α)) :
    totalCost world config (s :: sessions) = totalCost world config [s] + totalCost world config sessions := by
  unfold totalCost
  cases h : s.response world config with
  | none => simp [h]
  | some response => simp [h]

/-- A round that acts has been charged, and adds its cost. -/
theorem spent_of_answered {s : Session α} {client : GratisClient α} {action : Value α}
    (ht : ¬ (config.timeoutSeconds : α) < world.elapsed s.state.step)
    (hn : s.client.nextAction world s.state.step = (client, .ok action)) :
    s.Charged world config ∧ client.spentUsd = s.client.spentUsd + totalCost world config [s] ∧
      client.maxUsd = s.client.maxUsd ∧ client.spentUsd ≤ client.maxUsd := by
  obtain ⟨response, hr, hcall, rfl, hfits⟩ := response_of_nextAction ht hn
  refine ⟨fun response' hr' => ?_, by simp [totalCost, hr], rfl, hfits⟩
  obtain rfl := Option.some.inj (hr.symm.trans hr')
  exact Or.inr ⟨hfits, action, hcall⟩

/-- A session that acts has answered in time. -/
theorem answered_of_acts {s : Session α} {client : GratisClient α} {action : Value α} {result : ToolResult α}
    (h : Acts world config s client action result) : ¬ (config.timeoutSeconds : α) < world.elapsed s.state.step ∧
      s.client.nextAction world s.state.step = (client, .ok action) := by
  cases h with
  | returned ht hn _ => exact ⟨ht, hn⟩
  | rejected ht hn _ _ _ => exact ⟨ht, hn⟩

/-- From a session whose state agrees with its client on, a run that ends in its report has spent the costs of all responses if and
only if its rounds are charged. -/
theorem spent_loop_iff {left : ℕ} {s : Session α} {report : Report α} (hs : s.state.spentUsd = s.client.spentUsd)
    (hpriced : ∀ t ∈ visited world config left s, t.Priced world config)
    (hreport : (loop world config left s).report = some report) :
    (report.spentUsd = s.client.spentUsd + totalCost world config (visited world config left s) ∧
        (loop world config left s).state.spentUsd = s.client.spentUsd + totalCost world config (visited world config left s)) ↔
      ∀ t ∈ visited world config left s, t.Charged world config := by
  induction left generalizing s with
  | zero =>
    obtain ⟨hr, hstate⟩ := spent_of_finish hreport
    refine iff_of_true ?_ (List.forall_mem_nil _)
    rw [loop, hstate, hr, hs, visited]
    simp [totalCost]
  | succ left ih =>
    have hcase := round_cases world config s
    rw [visited] at hpriced ⊢
    rw [loop] at hreport ⊢
    rw [totalCost_cons]
    generalize round world config s = outcome at hcase hreport hpriced ⊢
    -- unless the round goes on, it is the only one left
    have last {state : HarnessState α} {ending : Ending α}
        (h : report.spentUsd = state.spentUsd ∧ ending.state.spentUsd = state.spentUsd)
        (hiff : state.spentUsd = s.client.spentUsd + totalCost world config [s] ↔ s.Charged world config) :
        (report.spentUsd = s.client.spentUsd + (totalCost world config [s] + totalCost world config []) ∧
          ending.state.spentUsd = s.client.spentUsd + (totalCost world config [s] + totalCost world config [])) ↔
        ∀ t ∈ [s], t.Charged world config := by
      rw [List.forall_mem_singleton, ← hiff, h.1, h.2, and_self_iff, show totalCost world config [] = 0 from rfl, add_zero]
    cases hcase with
    | timeout ht =>
      have hr : s.response world config = none := if_pos ht
      refine last (spent_of_finish hreport) (iff_of_true ?_ fun response h => ?_)
      · rw [hs]
        simp [totalCost, hr]
      · rw [hr] at h
        cases h
    | noAction ht hn =>
      refine last (spent_of_handle hreport) ?_
      rw [charged_iff_of_noAction ht hn (hpriced s List.mem_cons_self), hs, left_eq_add]
    | unregistered ht hn _ _ _ =>
      obtain ⟨hcharged, hspent, -, -⟩ := spent_of_answered ht hn
      exact last (spent_of_finish hreport) (iff_of_true hspent hcharged)
    | escapes ht hn _ _ =>
      obtain ⟨hcharged, hspent, -, -⟩ := spent_of_answered ht hn
      exact last (spent_of_handle hreport) (iff_of_true hspent hcharged)
    | accepted ha _ =>
      obtain ⟨ht, hn⟩ := answered_of_acts ha
      obtain ⟨hcharged, hspent, -, -⟩ := spent_of_answered ht hn
      exact last (spent_of_finish hreport) (iff_of_true hspent hcharged)
    | goesOn ha _ _ =>
      obtain ⟨ht, hn⟩ := answered_of_acts ha
      obtain ⟨hcharged, hspent, -, -⟩ := spent_of_answered ht hn
      rw [List.forall_mem_cons, and_iff_right hcharged, ← add_assoc, ← hspent]
      exact ih rfl (fun t ht => hpriced t (List.mem_cons_of_mem _ ht)) hreport

/-- Before each round the sum of the costs is within the budget. -/
theorem totalCost_le {left : ℕ} {s : Session α} (hs : s.client.spentUsd ≤ s.client.maxUsd) {pre post : List (Session α)}
    {t : Session α} (h : visited world config left s = pre ++ t :: post) :
    s.client.spentUsd + totalCost world config pre ≤ s.client.maxUsd := by
  induction left generalizing s pre with
  | zero => exact absurd h (by simp [visited])
  | succ left ih =>
    cases pre with
    | nil => simpa [totalCost] using hs
    | cons u pre =>
      rw [visited, List.cons_append, List.cons.injEq] at h
      obtain ⟨rfl, h⟩ := h
      have hcase := round_cases world config s
      generalize round world config s = outcome at hcase h
      cases hcase with
      | goesOn ha _ _ =>
        obtain ⟨ht, hn⟩ := answered_of_acts ha
        obtain ⟨-, hspent, hmax, hfits⟩ := spent_of_answered ht hn
        rw [totalCost_cons, ← add_assoc, ← hspent, ← hmax]
        exact ih hfits h
      | timeout _ => exact absurd h (by simp)
      | noAction _ _ => exact absurd h (by simp)
      | unregistered _ _ _ _ _ => exact absurd h (by simp)
      | escapes _ _ _ _ => exact absurd h (by simp)
      | accepted _ _ => exact absurd h (by simp)

/-! ## The account of a run -/

/-- The rounds of a run. -/
def rounds (world : Outside α) (config : RunConfig α) : List (Session α) :=
  visited world config config.maxSteps (Session.start config)

/-- What a run reports to have spent, in its state and in its report, is the sum of the costs of the responses it has received; and
no round is started once that sum is over the budget. -/
structure Accounts (world : Outside α) (config : RunConfig α) : Prop where
  report : ∀ report, (runAutoquant world config).report = some report →
    report.spentUsd = totalCost world config (rounds world config)
  state : (runAutoquant world config).report.isSome = true →
    (runAutoquant world config).state.spentUsd = totalCost world config (rounds world config)
  budget : ∀ pre s post, rounds world config = pre ++ s :: post → totalCost world config pre ≤ config.maxUsd

/-- **What a run has spent.** The account of a run that ends in its report is right if and only if each response it receives costs
nothing, or fits into the budget and holds exactly one tool call. -/
theorem accounts_iff {report : Report α} (hpriced : ∀ s ∈ rounds world config, s.Priced world config)
    (hreport : (runAutoquant world config).report = some report) :
    Accounts world config ↔ ∀ s ∈ rounds world config, s.Charged world config := by
  have hloop : runAutoquant world config = loop world config config.maxSteps (Session.start config) := by
    unfold runAutoquant at hreport ⊢
    cases hdir : world.makeDir with
    | error e =>
      rw [hdir] at hreport
      cases hreport
    | ok u => rfl
  have hiff := spent_loop_iff (s := Session.start config) rfl hpriced (hloop ▸ hreport)
  rw [← hloop, show (Session.start config).client.spentUsd = 0 from rfl, zero_add] at hiff
  have hbudget : ∀ pre s post, rounds world config = pre ++ s :: post → totalCost world config pre ≤ config.maxUsd := by
    intro pre s post h
    have := totalCost_le (s := Session.start config) (not_le.1 config.hasBudget).le h
    rwa [show (Session.start config).client.spentUsd = 0 from rfl, zero_add] at this
  rw [rounds, ← hiff]
  constructor
  · intro h
    exact ⟨h.report report hreport, h.state (by rw [hreport]; rfl)⟩
  · rintro ⟨hr, hs⟩
    refine ⟨fun report' h => ?_, fun _ => hs, hbudget⟩
    obtain rfl := Option.some.inj (hreport.symm.trans h)
    exact hr

/-- A planner that answers every request with the same response. -/
def constantWorld (response : Value ℚ) : Outside ℚ := { scriptedWorld [] with post := fun _ => .ok response }

/-- A response of this cost with these tool calls. -/
def pricedResponse (cost : ℚ) (calls : List (Value ℚ)) : Value ℚ :=
  .dict [("usage", .dict [("cost", .float cost)]), ("choices", .list [.dict [("message", .dict [("tool_calls", .list calls)])]])]

/-- A call of a tool that does not exist. -/
def unknownCall : Value ℚ := .dict [("function", .dict [("name", .str "shell"), ("arguments", .str "")])]

/-- Where every response names its cost every session is priced. -/
theorem priced_constantWorld (cost : ℚ) (calls : List (Value ℚ)) :
    ∀ s ∈ rounds (constantWorld (pricedResponse cost calls)) kneeConfig,
      s.Priced (constantWorld (pricedResponse cost calls)) kneeConfig := by
  intro s _ response hr
  unfold Session.response at hr
  split at hr
  · cases hr
  · obtain rfl := Option.some.inj hr
    exact ⟨cost, rfl⟩

/-- A run that ends at an unregistered tool reports what its one response has cost. -/
theorem accounts_iff_unknownCall :
    (∃ report, (runAutoquant (constantWorld (pricedResponse (1 / 100) [unknownCall])) kneeConfig).report = some report ∧
      report.spentUsd = 1 / 100) ∧
    (Accounts (constantWorld (pricedResponse (1 / 100) [unknownCall])) kneeConfig ↔
      ∀ s ∈ rounds (constantWorld (pricedResponse (1 / 100) [unknownCall])) kneeConfig,
        s.Charged (constantWorld (pricedResponse (1 / 100) [unknownCall])) kneeConfig) := by
  have hspent : (runAutoquant (constantWorld (pricedResponse (1 / 100) [unknownCall])) kneeConfig).report.any
      (fun report => report.spentUsd = 1 / 100) = true := by decide +kernel
  obtain ⟨report, hreport, h⟩ := (Option.any_eq_true _ _).1 hspent
  exact ⟨⟨report, hreport, of_decide_eq_true h⟩, accounts_iff (priced_constantWorld _ _) hreport⟩

/-- A response over the budget, and a response without a tool call, are paid for and not in the report. -/
theorem not_accounts_over_budget :
    ((runAutoquant (constantWorld (pricedResponse 1 [unknownCall])) kneeConfig).report.map fun report =>
        (report.failureReason, report.spentUsd)) = some (some "gratis_budget_exhausted", 0) ∧
      totalCost (constantWorld (pricedResponse 1 [unknownCall])) kneeConfig
        (rounds (constantWorld (pricedResponse 1 [unknownCall])) kneeConfig) = 1 ∧
    ((runAutoquant (constantWorld (pricedResponse (1 / 100) [])) kneeConfig).report.map fun report =>
        (report.failureReason, report.spentUsd)) = some (some "gratis_unavailable", 0) ∧
      totalCost (constantWorld (pricedResponse (1 / 100) [])) kneeConfig
        (rounds (constantWorld (pricedResponse (1 / 100) [])) kneeConfig) = 1 / 100 ∧
    ¬ Accounts (constantWorld (pricedResponse 1 [unknownCall])) kneeConfig ∧
      ¬ Accounts (constantWorld (pricedResponse (1 / 100) [])) kneeConfig := by
  have hover : (runAutoquant (constantWorld (pricedResponse 1 [unknownCall])) kneeConfig).report.any
      (fun report => report.spentUsd = 0) = true := by decide +kernel
  have hcalls : (runAutoquant (constantWorld (pricedResponse (1 / 100) [])) kneeConfig).report.any
      (fun report => report.spentUsd = 0) = true := by decide +kernel
  have hone : totalCost (constantWorld (pricedResponse 1 [unknownCall])) kneeConfig
      (rounds (constantWorld (pricedResponse 1 [unknownCall])) kneeConfig) = 1 := by decide +kernel
  have hcent : totalCost (constantWorld (pricedResponse (1 / 100) [])) kneeConfig
      (rounds (constantWorld (pricedResponse (1 / 100) [])) kneeConfig) = 1 / 100 := by decide +kernel
  refine ⟨by decide +kernel, hone, by decide +kernel, hcent, fun h => ?_, fun h => ?_⟩
  · obtain ⟨report, hreport, hzero⟩ := (Option.any_eq_true _ _).1 hover
    have hspent := h.report report hreport
    rw [of_decide_eq_true hzero, hone] at hspent
    exact absurd hspent (by decide)
  · obtain ⟨report, hreport, hzero⟩ := (Option.any_eq_true _ _).1 hcalls
    have hspent := h.report report hreport
    rw [of_decide_eq_true hzero, hcent] at hspent
    exact absurd hspent (by decide +kernel)

end Orka
