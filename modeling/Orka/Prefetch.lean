import Orka.Runtime

/-!
# Which tensors a pack takes

The loop of `_prefetch_worker` sorts the tensors of a source into those that are packed, those that pass through and those that
are left out, and `pack_checkpoint` makes a manifest entry of each tensor that is packed. What packing one tensor does is a
parameter here.
-/

namespace Orka

/-- A tensor of a source checkpoint. -/
structure SourceTensor (τ : Type) where
  name : String
  shape : List ℕ
  value : τ
  deriving DecidableEq

/-- `NON_CANDIDATE_MARKERS`. -/
def nonCandidateMarkers : List String := [".bias", ".norm", ".layernorm", "rotary_emb", "attention.bias"]

/-- `is_quant_candidate(name, shape)`. -/
def isQuantCandidate (name : String) (shape : List ℕ) : Bool :=
  2 ≤ shape.length ∧ ¬ ∃ m ∈ nonCandidateMarkers, m.toList <:+: name.toLower.toList

/-- `name.replace(".weight", "")`. -/
def baseName (name : String) : String := name.replace ".weight" ""

/-- `codebook_mode`. -/
inductive CodebookMode where
  | perTensor
  | global
  | family
  deriving DecidableEq, Repr

/-- The arguments of a pack that decide which tensors it takes. A partition is its count and its index, `skippedTensors` the
layers of the sensitivity map above the threshold and the head that is kept. -/
structure SelectArgs where
  onlyTensors : Option (List String) := none
  onlyTensorsPassthrough : Bool := true
  skippedTensors : List String := []
  maxTensors : Option ℤ := none
  partition : Option (ℕ × ℕ) := none
  deriving DecidableEq

/-- The tests of the loop that do not depend on its variables. -/
def SelectArgs.listed (args : SelectArgs) (name : String) : Bool :=
  match args.onlyTensors with
  | none => true
  | some only => name ∈ only ∨ baseName name ∈ only

def SelectArgs.skipped (args : SelectArgs) (name : String) : Bool :=
  baseName name ∈ args.skippedTensors ∨ name ∈ args.skippedTensors

/-- `max_tensors is not None and tensors_emitted >= max_tensors`. -/
def SelectArgs.full (args : SelectArgs) (tensorsEmitted : ℕ) : Bool :=
  match args.maxTensors with
  | none => false
  | some m => m ≤ tensorsEmitted

/-- Whether the candidate of a number falls into the slot of this pack. -/
def SelectArgs.ownSlot (args : SelectArgs) (candidateCount : ℕ) : Bool :=
  match args.partition with
  | none => true
  | some (count, index) => candidateCount % count = index

section Loop

variable {τ : Type}

/-- The variables of the loop: the candidates put on the queue, the passthrough tensors and `candidate_count`. The names of a
source are distinct, so the dictionary of passthrough tensors is a list. -/
structure Selection (τ : Type) where
  emitted : List (SourceTensor τ) := []
  passthrough : List (SourceTensor τ) := []
  candidateCount : ℕ := 0
  deriving DecidableEq

/-- The loop of `_prefetch_worker`. -/
def selectLoop (args : SelectArgs) : List (SourceTensor τ) → Selection τ → Selection τ
  | [], st => st
  | t :: ts, st =>
    if ¬ isQuantCandidate t.name t.shape then selectLoop args ts { st with passthrough := st.passthrough ++ [t] }
    else if ¬ args.listed t.name then
      selectLoop args ts (if args.onlyTensorsPassthrough then { st with passthrough := st.passthrough ++ [t] } else st)
    else if args.full st.emitted.length then st
    else if args.skipped t.name then selectLoop args ts { st with passthrough := st.passthrough ++ [t] }
    else if args.ownSlot st.candidateCount then
      selectLoop args ts { st with emitted := st.emitted ++ [t], candidateCount := st.candidateCount + 1 }
    else selectLoop args ts { st with candidateCount := st.candidateCount + 1 }

def select (args : SelectArgs) (source : List (SourceTensor τ)) : Selection τ := selectLoop args source {}

/-- The manifest entries a pack leaves, each under its tensor's name, and its passthrough tensors. -/
structure Packed (τ ε : Type) where
  tensors : List (String × ε)
  passthrough : List (SourceTensor τ)

def noCandidates : PyErr :=
  .runtimeError ("prefetch worker produced 0 candidates - no quantizable tensors found " ++
    "(check model path, tensor shapes, and device errors above)")

/-- The candidates that become entries: with shared codebooks the tensors to skip are left out once more. -/
def candidatesOf (mode : CodebookMode) (args : SelectArgs) (emitted : List (SourceTensor τ)) : List (SourceTensor τ) :=
  match mode with
  | .perTensor => emitted
  | .global | .family => emitted.filter fun t => ¬ args.skipped t.name

/-- `pack_checkpoint`. `finish` makes the entry of one tensor; with shared codebooks it depends on all candidates. -/
def packCheckpoint {ε : Type} (mode : CodebookMode) (args : SelectArgs)
    (finish : List (SourceTensor τ) → SourceTensor τ → Except PyErr ε) (source : List (SourceTensor τ)) :
    Except PyErr (Packed τ ε) :=
  let sel := select args source
  if sel.emitted = [] ∧ sel.passthrough = [] ∧ args.partition = none then .error noCandidates
  else if sel.emitted = [] ∧ args.partition ≠ none ∧ sel.candidateCount = 0 then .error noCandidates
  else ((candidatesOf mode args sel.emitted).mapM fun t => (finish sel.emitted t).map fun e => (t.name, e)).map fun entries =>
    ⟨entries, sel.passthrough⟩

end Loop

end Orka
