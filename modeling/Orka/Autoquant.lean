import Orka.Lib.Dynamic
import Orka.Lib.Steps

/-!
# The autonomous quantization harness

A planner picks one tool at a time, each tool reads and writes the state of the run, and the loop stops when the state passes the
acceptance gate. What lies outside the harness is in `Outside`: every answer may differ from round to round.
-/

namespace Orka

open Dynamic

/-- One tensor's decision. -/
structure TensorConfig (α : Type) where
  method : String
  bits : ℤ
  stages : ℤ
  normalization : String
  keepFp16 : Bool
  source : String
  confidence : α
  rationale : String
  deriving Repr

/-- An RVQ tensor of a packer allocation. -/
structure RvqEntry (α : Type) where
  spec : String
  stages : List ℕ
  bitsPerWeight : α
  normalization : String
  rationale : String
  source : String
  confidence : α
  deriving Repr

/-- A tensor of a packer allocation that stays dense. -/
structure DenseEntry (α : Type) where
  method : String
  keepFp16 : Bool
  rationale : String
  source : String
  confidence : α
  deriving Repr

/-- The packer's allocation schema. -/
structure PackerAllocation (α : Type) where
  source : String
  groupSize : ℤ
  tensors : List (String × RvqEntry α)
  dense : List (String × DenseEntry α)
  deriving Repr

inductive RunStatus where
  | running
  | succeeded
  | failed
  deriving DecidableEq, Repr

/-- The objectives `RunConfig` accepts. -/
inductive Objective where
  | minBits
  | maxQuality
  | knee
  deriving DecidableEq, Repr

/-- A run's limits and aim; the fields at the end are the checks of `__post_init__`. -/
structure RunConfig (α : Type) [Zero α] [LE α] where
  gratisBaseUrl : String
  model : String
  maxUsd : α
  maxSteps : ℕ
  timeoutSeconds : ℕ
  objective : Objective
  target : Option α
  outputDir : String
  artifactPath : Option String := none
  source : String
  groupSize : ℤ := 8
  hasUrl : gratisBaseUrl ≠ ""
  hasModel : model ≠ ""
  hasBudget : ¬ maxUsd ≤ 0
  hasSteps : 1 ≤ maxSteps
  hasTime : 1 ≤ timeoutSeconds

/-- What a tool returns. -/
inductive ToolResult (α : Type) where
  | inspected (roles : List (String × String)) (tensorCount : ℕ)
  | derived (candidate : List (String × TensorConfig α)) (roles : List (String × String))
  | allocated (allocation : PackerAllocation α) (path : String)
  | packed (artifactPath : String)
  | pulsed (quality : List (String × Value α))
  | refined (candidate : List (String × TensorConfig α)) (offenders : List String)
  | verified (ok accepted : Bool) (verification quality : List (String × Value α))
  | rejected (error : String)

namespace ToolResult

variable {α : Type}

/-- `result.get("candidate")`. -/
def candidate : ToolResult α → Option (List (String × TensorConfig α))
  | derived candidate _ | refined candidate _ => some candidate
  | _ => none

/-- `result.get("roles")`. -/
def roles : ToolResult α → Option (List (String × String))
  | inspected roles _ | derived _ roles => some roles
  | _ => none

/-- `result.get("allocation")`. -/
def allocation : ToolResult α → Option (PackerAllocation α)
  | allocated allocation _ => some allocation
  | _ => none

/-- `result.get("quality")`. -/
def quality : ToolResult α → Option (List (String × Value α))
  | pulsed quality | verified _ _ _ quality => some quality
  | _ => none

/-- `result.get("verification")`. -/
def verification : ToolResult α → Option (List (String × Value α))
  | verified _ _ verification _ => some verification
  | _ => none

/-- `result.get("artifact_path")`. -/
def artifactPath : ToolResult α → Option String
  | packed path => some path
  | _ => none

/-- `result.get("accepted")`. -/
def accepted : ToolResult α → Bool
  | verified _ accepted _ _ => accepted
  | _ => false

/-- `json.dumps` can write the result. -/
def jsonable (result : ToolResult α) : Bool :=
  (result.quality.all Value.itemsJsonable) && (result.verification.all Value.itemsJsonable)

end ToolResult

/-- The shared state of a run. -/
structure HarnessState (α : Type) where
  status : RunStatus := .running
  step : ℕ := 0
  spentUsd : α
  trace : List (Value α × ToolResult α) := []
  candidate : Option (List (String × TensorConfig α)) := none
  roles : List (String × String) := []
  allocation : Option (PackerAllocation α) := none
  quality : Option (List (String × Value α)) := none
  verification : Option (List (String × Value α)) := none
  artifactPath : Option String := none
  failureReason : Option String := none

/-- What `pulse_fn` returns: a dictionary, an object with `kl` and `top1`, or one without. -/
inductive Pulse (α : Type) where
  | dict (items : List (String × Value α))
  | record (kl top1 : Value α)
  | other

/-- What the harness takes from outside: `json.loads`, `str` of a value that is no text, `float` of an integer and of a text; by
the round, the seconds since the start, the reply or exception of the client's `_post`, what inspecting and deriving read off the
checkpoint, the writes of files, and the three functions a caller may pass (`pulse_fn` may be missing). -/
structure Outside (α : Type) where
  loads : String → Except Exc (Value α)
  text : Value α → String
  ofInt : ℤ → Except Exc α
  parseFloat : String → Except Exc α
  elapsed : ℕ → α
  post : ℕ → Except Exc (Value α)
  inspectCheckpoint : ℕ → Except Exc (List (String × String) × ℕ)
  deriveConfig : ℕ → Except Exc (List (String × TensorConfig α) × List (String × String))
  writeAllocation : ℕ → Except Exc Unit
  unlink : ℕ → Except Exc Unit
  packFn : ℕ → String → List (String × List ℕ) → Except Exc Unit
  pulseFn : Option (ℕ → HarnessState α → Except Exc (Pulse α))
  artifactExists : ℕ → Bool
  verifyFn : ℕ → String → Except Exc (Value α)
  makeDir : Except Exc Unit
  writeReport : Except Exc Unit

/-! ## Configurations -/

section Configs

variable {α : Type}

def validateConfig (role : String) (cfg : TensorConfig α) : Except Exc Unit :=
  if cfg.method ∉ ["rvq", "int8", "fp16"] then .error ⟨.valueError, "unsupported method: " ++ cfg.method⟩
  else if role = "out-head" ∧ cfg.method = "rvq" then .error ⟨.valueError, "out-head must not use rvq"⟩
  else if role ∈ ["norm", "bias"] ∧ (cfg.method ≠ "fp16" ∨ !cfg.keepFp16) then
    .error ⟨.valueError, role ++ " must remain fp16"⟩
  else if cfg.method = "rvq" ∧ (cfg.bits ∉ [2, 3, 4, 6, 8] ∨ cfg.stages < 1) then
    .error ⟨.valueError, "unsupported rvq configuration"⟩
  else if cfg.method = "fp16" ∧ !cfg.keepFp16 then .error ⟨.valueError, "fp16 method requires keep_fp16"⟩
  else .ok ()

def validateConfigs (cfgs : List (String × TensorConfig α)) (roles : List (String × String)) : Except Exc Unit :=
  cfgs.forM fun c => validateConfig ((roles.lookup c.1).getD "unknown") c.2

/-- One RVQ tensor of `to_packer_allocation`. -/
def rvqEntry [IntCast α] [Div α] (groupSize : ℤ) (c : TensorConfig α) : Except Exc (RvqEntry α) :=
  if c.bits < 0 then .error ⟨.valueError, "negative shift count"⟩
  else if groupSize = 0 then .error ⟨.zeroDivisionError, "division by zero"⟩
  else .ok
    { spec :=
        if c.stages = 1 then "vq-" ++ toString c.bits
        else "rvq-" ++ "-".intercalate (List.replicate c.stages.toNat (toString c.bits))
      stages := List.replicate c.stages.toNat (2 ^ c.bits.toNat)
      bitsPerWeight := ((c.bits * c.stages : ℤ) : α) / (groupSize : α)
      normalization := c.normalization
      rationale := c.rationale
      source := c.source
      confidence := c.confidence }

def toPackerAllocation [IntCast α] [Div α] (cfgs : List (String × TensorConfig α)) (groupSize : ℤ) (source : String) :
    Except Exc (PackerAllocation α) :=
  cfgs.foldlM (fun out (name, c) =>
    if c.method = "rvq" then
      (rvqEntry groupSize c).map fun e => { out with tensors := out.tensors ++ [(name, e)] }
    else
      .ok { out with dense := out.dense ++ [(name, ⟨c.method, c.keepFp16, c.rationale, c.source, c.confidence⟩)] })
    ⟨source, groupSize, [], []⟩

/-- `Signals.sqnr_at`: the curve's value at these bits, else at the nearest bits, of two as near the first. -/
def sqnrAt (curve : List (ℤ × ℕ)) (bits : ℤ) : ℕ :=
  match curve.lookup bits with
  | some s => s
  | none =>
    ((curve.foldl (fun best w =>
      match best with
      | none => some w
      | some b => if (w.1 - bits).natAbs < (b.1 - bits).natAbs then some w else some b) none).map Prod.snd).getD 0

/-- `attribute`: the three RVQ tensors of the lowest SQNR at their bits, for signals that are the same for every tensor. -/
def attributeOffenders (curve : List (ℤ × ℕ)) (cfgs : List (String × TensorConfig α)) : List String :=
  (((cfgs.filter fun c => c.2.method = "rvq").map fun c => (c.1, sqnrAt curve c.2.bits)).insertionSort
    fun x y => x.2 ≤ y.2).map Prod.fst |>.take 3

/-- The curve of the stand-in signals of `refine_tool`. -/
def dummyCurve : List (ℤ × ℕ) := [(2, 8), (3, 12), (4, 20), (6, 28), (8, 35)]

def bitsLadder : List ℤ := [2, 3, 4, 6, 8]

/-- Step the bits up the ladder, then add a stage at the ceiling. -/
def escalateCfg (c : TensorConfig α) : TensorConfig α :=
  if c.method ≠ "rvq" then c
  else match bitsLadder.filter fun b => c.bits < b with
    | b :: _ => { c with bits := b, source := "refine", rationale := c.rationale ++ "; bumped bits->" ++ toString b }
    | [] =>
      { c with
        stages := c.stages + 1
        source := "refine"
        rationale := c.rationale ++ "; +stage->" ++ toString (c.stages + 1) }

end Configs

variable {α : Type} [Zero α] [One α] [Add α] [IntCast α] [Div α] [NatCast α] [BEq α] [LE α] [LT α] [DecidableLE α] [DecidableLT α]

/-- `output_dir / name`. -/
def joinPath (dir name : String) : String :=
  if dir = "." then name else if dir.toList.getLast? = some '/' then dir ++ name else dir ++ "/" ++ name

/-! ## The state of a run -/

namespace HarnessState

/-- `HarnessState.running`. -/
def start (config : RunConfig α) : HarnessState α where
  spentUsd := 0
  artifactPath := some (config.artifactPath.getD (joinPath config.outputDir "out.orka"))

def record (state : HarnessState α) (action : Value α) (result : ToolResult α) : HarnessState α where
  status := state.status
  step := state.step + 1
  spentUsd := state.spentUsd
  trace := state.trace ++ [(action, result)]
  candidate := result.candidate.or state.candidate
  roles := result.roles.getD state.roles
  allocation := result.allocation.or state.allocation
  quality := result.quality.or state.quality
  verification := result.verification.or state.verification
  artifactPath := (result.artifactPath.filter fun path => path ≠ "").or state.artifactPath
  failureReason := state.failureReason

def succeed (state : HarnessState α) : HarnessState α := { state with status := .succeeded, failureReason := none }

def fail (state : HarnessState α) (reason : String) : HarnessState α :=
  { state with status := .failed, failureReason := some reason }

end HarnessState

/-! ## The tools -/

section Tools

variable (world : Outside α) (config : RunConfig α) (state : HarnessState α)

/-- `meets` on a quality; `none` is a missing target. -/
def meets (kl : α) (objective : Objective) (target : Option α) : Bool :=
  match target with
  | none => false
  | some target =>
    match objective with
    | .minBits => kl ≤ target
    | .maxQuality => true
    | .knee => kl ≤ target

/-- The configurations of the candidate; the state holds them as the dictionaries `from_allocation_map` reads back. -/
def candidateCfgs : Except Exc (List (String × TensorConfig α)) :=
  match state.candidate with
  | some (c :: cfgs) => .ok (c :: cfgs)
  | _ => .error ⟨.valueError, "no candidate allocation yet; call derive first"⟩

/-- The file the artifact is packed to and verified in. -/
def artifactOf : String :=
  match state.artifactPath with
  | some path => if path ≠ "" then path else joinPath config.outputDir "out.orka"
  | none => joinPath config.outputDir "out.orka"

def inspectTool : Except Exc (ToolResult α) :=
  (world.inspectCheckpoint state.step).map fun report => .inspected report.1 report.2

def deriveTool : Except Exc (ToolResult α) := do
  let (cfgs, classified) ← world.deriveConfig state.step
  let roles := if state.roles.isEmpty then classified else state.roles
  validateConfigs cfgs roles
  return .derived cfgs roles

def allocateTool : Except Exc (ToolResult α) := do
  let cfgs ← candidateCfgs state
  validateConfigs cfgs state.roles
  let allocation ← toPackerAllocation cfgs config.groupSize config.source
  world.writeAllocation state.step
  return .allocated allocation (joinPath config.outputDir "allocation_map.json")

def packTool : Except Exc (ToolResult α) :=
  match state.allocation with
  | none => .error ⟨.valueError, "no allocation yet; call allocate first"⟩
  | some allocation => do
    let artifact := artifactOf config state
    world.unlink state.step
    world.packFn state.step artifact (allocation.tensors.map fun e => (e.1, e.2.stages))
    return .packed artifact

/-- The quality `pulse_check_tool` starts from; without a `pulse_fn` it is a stand-in. -/
def rawQuality : Except Exc (List (String × Value α)) :=
  match world.pulseFn with
  | some pulse => do
    match ← pulse state.step state with
    | .dict items => return items
    | .record kl top1 => return [("kl", kl), ("top1", top1)]
    | .other => .error ⟨.attributeError, "kl"⟩
  | none =>
    .ok [("kl", .float 0), ("top1", .float 1), ("proxy", .bool true), ("reason", .str "no_lm_eval")]

def pulseCheckTool : Except Exc (ToolResult α) := do
  let quality ← rawQuality world state
  let kl ← (← getItem quality "kl").toFloat world.ofInt world.parseFloat
  let _top1 ← (← getItem quality "top1").toFloat world.ofInt world.parseFloat
  return .pulsed (setItem quality "objective_met" (.bool (meets kl config.objective config.target)))

def refineTool : Except Exc (ToolResult α) := do
  let cfgs ← candidateCfgs state
  let offenders := attributeOffenders dummyCurve cfgs
  let cfgs := cfgs.map fun c => if c.1 ∈ offenders then (c.1, escalateCfg c.2) else c
  validateConfigs cfgs state.roles
  return .refined cfgs offenders

def verifyTool : Except Exc (ToolResult α) :=
  if !world.artifactExists state.step then .error ⟨.valueError, "no artifact to verify; call pack first"⟩
  else do
    match ← world.verifyFn state.step (state.artifactPath.getD "") with
    | Value.dict result =>
      let passed := (getD result "ok" (getD result "passed" (.bool false))).truth
      let quality := state.quality.getD []
      let objectiveMet := (getD quality "objective_met" (.bool false)).truth
      return .verified passed (passed && objectiveMet) (setItem result "passed" (.bool passed)) quality
    | _ => .error ⟨.attributeError, "object has no attribute 'get'"⟩

/-- `TOOLS`; no tool reads its arguments. -/
def tools : List (String × Except Exc (ToolResult α)) :=
  [("inspect", inspectTool world state), ("derive", deriveTool world state), ("allocate", allocateTool world config state),
   ("pack", packTool world config state), ("pulse_check", pulseCheckTool world config state), ("refine", refineTool state),
   ("verify", verifyTool world state)]

end Tools

/-! ## The loop -/

section Loop

variable (world : Outside α) (config : RunConfig α)

/-- `str(v)`. -/
def pyStr : Value α → String
  | .str s => s
  | v => world.text v

/-- `_parse_action`: the name of the tool and its arguments. -/
def parseAction (action : Value α) : Except Exc (String × List (String × Value α)) := do
  let fn ← action.get "function" .none
  let fn : Value α := if fn.truth then fn else .dict []
  let named ← fn.get "name" .none
  let name ← if named.truth then pure named else action.get "name" .none
  let raw ← fn.get "arguments" (← action.get "arguments" (.str "{}"))
  let args ←
    match raw with
    | .str text => if text = "" then pure (.dict []) else world.loads text
    | .dict items => pure (.dict items)
    | _ => .error ⟨.valueError, "tool arguments must be an object"⟩
  match args with
  | .dict items => return (pyStr world name, items)
  | _ => .error ⟨.valueError, "tool arguments must be an object"⟩

def executeValidated (state : HarnessState α) (action : Value α) : Except Exc (ToolResult α) := do
  let (name, _args) ← parseAction world action
  match (tools world config state).lookup name with
  | none => .error ⟨.valueError, "unregistered_tool"⟩
  | some result => result

/-- The verification the state holds has passed. -/
def HarnessState.verificationPassed (state : HarnessState α) : Bool :=
  let verification := state.verification.getD []
  (getD verification "passed" .none).truth || (getD verification "ok" .none).truth

/-- The quality the state holds meets the objective. -/
def HarnessState.objectiveMet (state : HarnessState α) : Bool :=
  (getD (state.quality.getD []) "objective_met" .none).truth

def acceptanceGate (state : HarnessState α) : Bool := state.verificationPassed && state.objectiveMet

/-- The client, as far as its spending goes. -/
structure GratisClient (α : Type) where
  maxUsd : α
  spentUsd : α

def gratisError (text : String) : Exc := ⟨.custom "GratisError", text⟩

/-- The cost a response states. -/
def usageCost (response : Value α) : Except Exc α := do
  let usage ← response.get "usage" (.dict [])
  let cost ← usage.get "cost" (.float 0)
  cost.toFloat world.ofInt world.parseFloat

/-- The one tool call of a response. -/
def toolCall (response : Value α) : Except Exc (Value α) := do
  let choices ← response.get "choices" (.list [])
  let calls ←
    if choices.truth then do
      let message ← (← choices.first).get "message" (.dict [])
      message.get "tool_calls" (.list [])
    else pure (.list [])
  if (← calls.len) ≠ 1 then .error (gratisError "Gratis response must contain exactly one tool action")
  else calls.first

/-- `next_action` in a round: the client afterwards, and what it returns or raises. -/
def GratisClient.nextAction (client : GratisClient α) (round : ℕ) : GratisClient α × Except Exc (Value α) :=
  match (world.post round).bind fun response => (usageCost world response).map fun cost => (response, cost) with
  | .error e => (client, .error e)
  | .ok (response, cost) =>
    if client.maxUsd < client.spentUsd + cost then (client, .error (gratisError "Gratis budget exhausted"))
    else ({ client with spentUsd := client.spentUsd + cost }, toolCall response)

/-- The report of a run. -/
structure Report (α : Type) where
  status : RunStatus
  failureReason : Option String
  steps : ℕ
  spentUsd : α
  objective : Objective
  target : Option α
  artifact : Option String
  verification : Option (List (String × Value α))
  quality : Option (List (String × Value α))
  trace : List (Value α × ToolResult α)

/-- `json.dumps` can write the report. -/
def Report.jsonable (report : Report α) : Bool :=
  report.verification.all Value.itemsJsonable && report.quality.all Value.itemsJsonable &&
    report.trace.all fun entry => entry.1.jsonable && entry.2.jsonable

def reportOf (state : HarnessState α) : Report α where
  status := state.status
  failureReason := state.failureReason
  steps := state.step
  spentUsd := state.spentUsd
  objective := config.objective
  target := config.target
  artifact := state.artifactPath
  verification := state.verification
  quality := state.quality
  trace := state.trace

def writeReport (state : HarnessState α) : Except Exc (Report α) :=
  if (reportOf config state).jsonable then world.writeReport.map fun _ => reportOf config state
  else .error ⟨.typeError, "Object is not JSON serializable"⟩

/-- How a run ends: the state as it is left, the report if one was written, and the exception that leaves the run, if one does. -/
structure Ending (α : Type) where
  state : HarnessState α
  report : Option (Report α)
  raised : Option Exc

/-- `_finish`. -/
def finish (state : HarnessState α) (reason : Option String) : Ending α :=
  let state := match reason with
    | some reason => state.fail reason
    | none => state
  let state := if state.status = .running then state.fail "incomplete" else state
  match writeReport world config state with
  | .ok report => ⟨state, some report, none⟩
  | .error e => ⟨state, none, some e⟩

/-- What the rounds share. -/
structure Session (α : Type) where
  client : GratisClient α
  state : HarnessState α

/-- What a round of the loop leads to: the next round, `return _finish(..)`, or an exception. -/
inductive Round (α : Type) where
  | goesOn (session : Session α)
  | finishes (state : HarnessState α) (reason : Option String)
  | raises (state : HarnessState α) (exc : Exc)

/-- The end of a round: record the result, and stop if the run is accepted. -/
def settle (client : GratisClient α) (state : HarnessState α) (action : Value α) (result : ToolResult α) : Round α :=
  let state := state.record action result
  if acceptanceGate state || result.accepted then .finishes state.succeed none else .goesOn ⟨client, state⟩

/-- The body of the `while` loop. -/
def round (session : Session α) : Round α :=
  let step := session.state.step
  if (config.timeoutSeconds : α) < world.elapsed step then .finishes session.state (some "timeout_exceeded")
  else match session.client.nextAction world step with
    | (_, .error e) => .raises session.state e
    | (client, .ok action) =>
      let state := { session.state with spentUsd := client.spentUsd }
      match executeValidated world config state action with
      | .ok result => settle client state action result
      | .error e =>
        if e.kind = .valueError then
          if e.text = "unregistered_tool" then .finishes state (some "unregistered_tool")
          else settle client state action (.rejected e.text)
        else .raises state e

/-- `needle in text.lower()`, for a needle of ASCII letters. -/
def inLowered (needle text : String) : Bool := needle.toList <:+: text.toList.map Char.toLower

/-- The handlers around the loop. -/
def handle (state : HarnessState α) (exc : Exc) : Ending α :=
  if exc.kind = .custom "GratisError" then
    finish world config state (some (if inLowered "budget" exc.text then "gratis_budget_exhausted" else "gratis_unavailable"))
  else if exc.kind = .stopIteration then finish world config state (some "gratis_unavailable")
  else ⟨state, none, some exc⟩

/-- `while state.step < config.max_steps`, by the rounds left: a round that goes on takes one step. -/
def loop : ℕ → Session α → Ending α
  | 0, session => finish world config session.state (some "step_limit_exceeded")
  | left + 1, session =>
    match round world config session with
    | .goesOn session => loop left session
    | .finishes state reason => finish world config state reason
    | .raises state exc => handle world config state exc

/-- The session a run starts with. -/
def Session.start : Session α := ⟨⟨config.maxUsd, 0⟩, HarnessState.start config⟩

def runAutoquant : Ending α :=
  match world.makeDir with
  | .error e => ⟨HarnessState.start config, none, some e⟩
  | .ok () => loop world config config.maxSteps (Session.start config)

end Loop

end Orka
