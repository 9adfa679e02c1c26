import Orka.Autoquant
import Orka.Format
import Orka.Lib.Extended

/-!
# The verdicts of the autoquant chain

`derive_config`: for each tensor its role, the signals of a probe, the decision of the policy, and, if a trigger fires, the verdict
of the cache or of a language model. What lies outside is the text of the model and the readers of the standard library.
-/

namespace Orka

open Dynamic

/-! ## Roles -/

/-- `name.lower()`, as far as patterns of ASCII letters can tell: two letters outside ASCII have a lower case with an ASCII letter
in it. -/
def lowered (name : String) : List Char :=
  name.toList.flatMap fun c =>
    if c = Char.ofNat 0x212A then ['k'] else if c = Char.ofNat 0x130 then ['i', Char.ofNat 0x307] else [c.toLower]

/-- `marker in n`. -/
def mentions (n : List Char) (marker : String) : Bool := marker.toList <:+: n

/-- `any(m in n for m in markers)`. -/
def mentionsAny (n : List Char) (markers : List String) : Bool := markers.any (mentions n)

/-- `n.endswith(suffix)`. -/
def endsWith (n : List Char) (suffix : String) : Bool := suffix.toList <:+ n

def classifyTensorFamily (name : String) : String :=
  let n := lowered name
  if mentionsAny n ["embed", "embedding", "wte", "wpe", "lm_head", "embed_out"] || n = "output.weight".toList ||
      (endsWith n ".output.weight" && !mentionsAny n ["attn", "attention", "mlp", "layer"]) then "embedding"
  else if mentionsAny n ["shared_expert", "sharedexpert"] then "shared_expert"
  else if mentionsAny n [".experts.", "experts/"] then "expert"
  else if mentionsAny n ["gate_proj", "up_proj", "down_proj", "c_fc", "fc1", "fc2", "fc_in", "fc_out", ".wi", ".wo", ".w1", ".w2",
      ".w3"] then "mlp"
  else if mentionsAny n [".gate", ".router", ".gating"] then "router"
  else if mentionsAny n [".mlp.", "mlp", "gate_proj", "up_proj", "down_proj", "c_fc", "fc1", "fc2", "fc_in", "fc_out", ".wi", ".wo",
      ".w1", ".w2", ".w3"] then "mlp"
  else if mentionsAny n ["attn", "attention", "q_proj", "k_proj", "v_proj", "o_proj", "qkv", "query_key_value", "c_attn", "c_proj",
      "out_proj"] then "attention"
  else "other"

section Policy

variable {α : Type} [Field α] [LinearOrder α]

/-- `_conv_role`: a role and the confidence in it. -/
def convRole (n : List Char) (shape : List ℕ) : Option (String × α) :=
  if shape.length = 3 ∧ shape[1]? = some 1 then some ("conv.depthwise", 9 / 10)
  else if shape.length ≠ 2 then none
  else if !mentionsAny n ["conv", "mixer", "ssm", "short_conv"] then none
  else if mentionsAny n ["in_proj", "up_proj", "x_proj"] then some ("conv.in", 85 / 100)
  else if mentionsAny n ["out_proj", "down_proj"] then some ("conv.out", 85 / 100)
  else some ("conv.in", 1 / 2)

/-- The role of a tensor of the attention family. -/
def attentionRole (n : List Char) : String × α :=
  if mentionsAny n ["q_proj", "query"] then ("attn.q", 9 / 10)
  else if mentionsAny n ["k_proj", "key"] then ("attn.k", 9 / 10)
  else if mentionsAny n ["v_proj", "value"] then ("attn.v", 9 / 10)
  else if mentionsAny n ["o_proj", "out_proj", "c_proj", ".dense"] then ("attn.o", 9 / 10)
  else ("attn.o", 1 / 2)

/-- The role of a tensor of the family of feed-forward layers. -/
def mlpRole (n : List Char) : String × α :=
  if mentionsAny n ["down", "fc2", "fc_out", ".wo", ".w2"] then ("mlp.down", 9 / 10)
  else if mentionsAny n ["gate", ".w1"] then ("mlp.gate", 9 / 10)
  else if mentionsAny n ["up", "fc1", "fc_in", ".wi", "c_fc", ".w3"] then ("mlp.up", 9 / 10)
  else ("mlp.up", 1 / 2)

/-- `classify_role(name, shape)` without a profile. -/
def classifyRole (name : String) (shape : List ℕ) : String × α :=
  let n := lowered name
  if endsWith n ".bias" || endsWith n "_bias" then ("bias", 1)
  else if mentionsAny n ["norm", "ln_"] || endsWith n ".ln.weight" then ("norm", 1)
  else
    let fam := classifyTensorFamily name
    match if fam = "other" ∨ fam = "attention" then convRole n shape else none with
    | some conv => conv
    | none =>
      if fam = "embedding" then
        if mentionsAny n ["lm_head", "embed_out", "output.weight"] then ("out-head", 1)
        else if mentionsAny n ["embed_in", "wte", "embed_tokens", "word_embeddings", "embedding"] then ("in-embed", 1)
        else ("unknown", 3 / 10)
      else if fam = "attention" then attentionRole n
      else if fam = "mlp" then mlpRole n
      else ("unknown", 3 / 10)

/-! ## The probe -/

variable [FloorRing α]

/-- A tensor of the checkpoint. -/
structure Weight (α : Type) where
  name : String
  shape : List ℕ
  values : List (Extended α)
  filled : values.length = shape.prod

/-- The values that `axis=1` runs over, one list for each scale; a vector is one row. -/
def Weight.lanes (w : Weight α) : Except Exc (List (List (Extended α))) :=
  let split (a b c : ℕ) : Except Exc (List (List (Extended α))) :=
    if b = 0 ∧ a * c ≠ 0 then .error ⟨.valueError, "zero-size array to reduction operation maximum which has no identity"⟩
    else .ok ((List.range a).flatMap fun i => (List.range c).map fun k =>
      (List.range b).map fun j => w.values.getD ((i * b + j) * c + k) .nan)
  match w.shape with
  | [] => .error ⟨.valueError, "axis 1 is out of bounds for array of dimension 0"⟩
  | [n] => split 1 n 1
  | a :: b :: rest => split a b rest.prod

/-- `Wq` of one lane. -/
def quantizeLane (qmax : ℕ) (lane : List α) : List α :=
  let s := maxAbs lane / (max qmax 1 : ℕ)
  let s := if s = 0 then 1 else s
  lane.map fun v => (max (-(qmax : ℤ)) (min (Binary16.roundEven (v / s)) qmax) : ℤ) * s

/-- `sig / err` of `_sqnr_db`. A decibel bound is a bound on this ratio: 30 dB is 1000, and 10 dB is 10. -/
def powerRatio (bits : ℕ) (lanes : List (List α)) : α :=
  let qmax := 1 <<< (bits - 1) - 1
  let sig := (lanes.flatten.map fun v => v ^ 2).sum
  let err := (lanes.map fun lane => (List.zipWith (fun v q => (v - q) ^ 2) lane (quantizeLane qmax lane)).sum).sum
  sig / if err = 0 then 1 / 10 ^ 12 else err

/-- `sqnr_curve`, as ratios of powers, with the other signals. -/
structure Signals (α : Type) where
  sqnrCurve : List (ℕ × Extended α)
  rdKneeBits : ℕ
  sensitivity : Extended α

/-- The widths that are probed. -/
def probeWidths : List ℕ := [2, 3, 4, 6, 8]

/-- The ratio at one width; a value that is not finite makes it not a number. -/
def sqnrRatio (lanes : List (List (Extended α))) (bits : ℕ) : Extended α :=
  match lanes.mapM fun lane => lane.mapM Extended.number? with
  | some lanes => .finite (powerRatio bits lanes)
  | none => .nan

/-- The ratio reaches the target of 30 dB. -/
def reachesTarget (ratio : Extended α) : Bool :=
  match ratio with
  | .finite r => 1000 ≤ r
  | _ => false

/-- `float(np.abs(W).mean())`. -/
def meanAbs (values : List (Extended α)) : Extended α :=
  match values.mapM Extended.number? with
  | some xs => if xs.isEmpty then .nan else .finite ((xs.map fun x => |x|).sum / xs.length)
  | none => if values.any fun v => v matches .nan then .nan else .infinite false

def probeTensor (w : Weight α) : Except Exc (Signals α) :=
  w.lanes.map fun lanes =>
    let curve := probeWidths.map fun b => (b, sqnrRatio lanes b)
    { sqnrCurve := curve
      rdKneeBits := ((curve.find? fun c => reachesTarget c.2).map Prod.fst).getD 16
      sensitivity := meanAbs w.values }

/-! ## The policy -/

/-- What the prior of a role says. -/
structure RolePrior (α : Type) where
  method : String
  confidence : α
  extraStage : Bool := false

/-- `ROLE_PRIORS.get(role, ROLE_PRIORS["unknown"])`. -/
def rolePrior (role : String) : RolePrior α :=
  if role = "out-head" then ⟨"int8", 1, false⟩
  else if role = "in-embed" then ⟨"rvq", 8 / 10, false⟩
  else if role ∈ ["norm", "bias"] then ⟨"fp16", 1, false⟩
  else if role ∈ ["attn.q", "attn.k", "attn.o", "mlp.up", "mlp.gate", "conv.in"] then ⟨"rvq", 7 / 10, false⟩
  else if role ∈ ["attn.v", "mlp.down", "conv.out"] then ⟨"rvq", 6 / 10, true⟩
  else if role = "conv.depthwise" then ⟨"fp16", 9 / 10, false⟩
  else ⟨"fp16", 0, false⟩

/-- The five fields of a decision that the cache keeps; a text the model wrote may have any normalization. -/
structure Verdict (α : Type) where
  method : String
  bits : ℤ
  stages : ℤ
  normalization : Value (Extended α)
  keepFp16 : Bool

/-- One tensor's decision. -/
structure DerivedConfig (α : Type) extends Verdict α where
  source : String
  confidence : α
  rationale : Value (Extended α)

/-- `decide`: the policy's decision and the confidence in it. -/
def policyDecide (role : String) (signals : Signals α) : DerivedConfig α × α :=
  let p : RolePrior α := rolePrior role
  if p.method = "fp16" then
    (⟨⟨"fp16", 16, 0, .str "none", true⟩, "policy", p.confidence, .str (role ++ ": fp16 prior")⟩, p.confidence)
  else if p.method = "int8" then
    (⟨⟨"int8", 8, 0, .str "block-max", false⟩, "policy", p.confidence, .str (role ++ ": int8 prior (RVQ-fragile)")⟩, p.confidence)
  else
    let bits : ℤ := signals.rdKneeBits
    let stages : ℤ := 2 + if p.extraStage then 1 else 0
    (⟨⟨"rvq", bits, stages, .str "block-max", false⟩, "policy", p.confidence,
      .str (role ++ ": rvq " ++ toString bits ++ "b/" ++ toString stages ++ "st at SQNR knee")⟩, p.confidence)

/-! ## Escalation -/

/-- `CONF_THRESHOLD`. -/
def confThreshold : α := 6 / 10

/-- `_conflict`. -/
def conflict (s : Signals α) : Bool :=
  s.rdKneeBits ≤ 3 && s.sqnrCurve.any fun c =>
    match c.2 with
    | .finite r => r < 10
    | _ => false

def shouldEscalate (roleConf : α) (signals : Signals α) (policyConf : α) (regressed : Bool) : Bool :=
  roleConf < confThreshold || policyConf < confThreshold || conflict signals || regressed

/-- `_bucket`. -/
def bucket (x : Extended α) : ℕ :=
  ([5 / 1000, 2 / 100, 5 / 100, 1 / 10] : List α).countP fun e =>
    match x with
    | .finite x => e < x
    | .infinite negative => !negative
    | .nan => false

/-- `str(tuple(shape))`. -/
def tupleText : List ℕ → String
  | [n] => "(" ++ toString n ++ ",)"
  | shape => "(" ++ ", ".intercalate (shape.map toString) ++ ")"

/-- The text that `signature` hashes. -/
def signatureKey (role : String) (shape : List ℕ) (s : Signals α) (objective : String) : String :=
  role ++ "|" ++ tupleText shape ++ "|knee" ++ toString s.rdKneeBits ++ "|sens" ++ toString (bucket s.sensitivity) ++ "|" ++ objective

/-- What a run is given: `hashlib.sha1(..).hexdigest()`, `json.loads` and `int` of a text, and, by the tensor, the text the language
model returns if it is asked. -/
structure DeriveArgs (α : Type) where
  objective : String
  useLlm : Bool
  llmFn : Option (String → String)
  sha1 : String → String
  loads : String → Except Exc (Value (Extended α))
  parseInt : String → Except Exc ℤ

/-- The verdicts a run finds and leaves, by signature. -/
abbrev Cache (α : Type) := String → Option (Verdict α)

variable (args : DeriveArgs α)

def signature (role : String) (shape : List ℕ) (s : Signals α) : String :=
  String.ofList ((args.sha1 (signatureKey role shape s args.objective)).toList.take 16)

/-! ## The text of a language model -/

/-- The text from the first opening to the last closing brace, if there are both. -/
def braceSpan (text : String) : Option String :=
  let chars := text.toList
  if Char.ofNat 123 ∈ chars ∧ Char.ofNat 125 ∈ chars then
    some (String.ofList ((chars.take (chars.length - chars.reverse.idxOf (Char.ofNat 125))).drop (chars.idxOf (Char.ofNat 123))))
  else none

/-- `int(v)`. -/
def toInt (v : Value (Extended α)) : Except Exc ℤ :=
  match v with
  | .bool b => .ok (if b then 1 else 0)
  | .int n => .ok n
  | .float (.finite x) => .ok (if x < 0 then -⌊-x⌋ else ⌊x⌋)
  | .float (.infinite _) => .error ⟨.overflowError, "cannot convert float infinity to integer"⟩
  | .float .nan => .error ⟨.valueError, "cannot convert float NaN to integer"⟩
  | .str s => args.parseInt s
  | _ => .error ⟨.typeError, "int() argument must be a string, a bytes-like object or a real number"⟩

/-- `method not in _VALID_METHODS`; a set is searched by hash. -/
def validMethod (method : Value (Extended α)) : Except Exc String :=
  match method with
  | .str s => if s ∈ ["rvq", "int8", "fp16"] then .ok s else .error ⟨.valueError, "invalid method"⟩
  | .list _ => .error ⟨.typeError, "unhashable type: 'list'"⟩
  | .dict _ => .error ⟨.typeError, "unhashable type: 'dict'"⟩
  | _ => .error ⟨.valueError, "invalid method"⟩

/-- `_parse`: the object in a text, and its method. -/
def parseText (text : String) : Except Exc (List (String × Value (Extended α)) × String) :=
  match braceSpan text with
  | none => .error ⟨.valueError, "LLM did not return JSON"⟩
  | some span =>
    match args.loads span with
    | .error e => if e.kind = .valueError then .error ⟨.valueError, "LLM did not return JSON"⟩ else .error e
    | .ok (.dict d) => (validMethod (getD d "method" .none)).map fun method => (d, method)
    | .ok _ => .error ⟨.attributeError, "object has no attribute 'get'"⟩

/-- `decide_with_llm`, on the text the model returned. -/
def decideWithLlm (text : String) : Except Exc (DerivedConfig α) :=
  (parseText args text).bind fun (d, method) => (toInt args (getD d "bits" (.int 8))).bind fun bits =>
    (toInt args (getD d "stages" (.int 0))).map fun stages =>
      ⟨⟨method, bits, stages, getD d "normalization" (.str "block-max"), (getD d "keep_fp16" (.bool false)).truth⟩, "llm", 75 / 100,
        getD d "rationale" (.str "llm")⟩

/-! ## The chain -/

/-- One tensor: its decision, and the cache afterwards. -/
def deriveTensor (cache : Cache α) (w : Weight α) : Except Exc (DerivedConfig α × Cache α) :=
  (probeTensor w).bind fun signals =>
    let (role, roleConf) := classifyRole w.name w.shape
    let (cfg, policyConf) := policyDecide role signals
    if args.useLlm && shouldEscalate roleConf signals policyConf false then
      let sig := signature args role w.shape signals
      match cache sig, args.llmFn with
      | some cached, _ => .ok (⟨cached, "cache", 75 / 100, .str "cached"⟩, cache)
      | none, some llmFn =>
        match decideWithLlm args (llmFn w.name) with
        | .ok cfg => .ok (cfg, Function.update cache sig (some cfg.toVerdict))
        | .error e => if e.kind = .valueError then .ok (cfg, cache) else .error e
      | none, none => .ok (cfg, cache)
    else .ok (cfg, cache)

/-- `derive_config`: the decision for each tensor, and the cache afterwards. -/
def deriveConfig : Cache α → List (Weight α) → Except Exc (List (Weight α × DerivedConfig α) × Cache α)
  | cache, [] => .ok ([], cache)
  | cache, w :: weights =>
    (deriveTensor args cache w).bind fun (cfg, cache) =>
      (deriveConfig cache weights).map fun (out, cache) => ((w, cfg) :: out, cache)

/-- What `validate_config` reads of a decision. -/
def DerivedConfig.railed (cfg : DerivedConfig α) : TensorConfig α :=
  ⟨cfg.method, cfg.bits, cfg.stages, "", cfg.keepFp16, cfg.source, cfg.confidence, ""⟩

end Policy

end Orka
