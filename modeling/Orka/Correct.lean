import Orka.Decode
import Orka.Names

/-!
# Low-rank correction

`correct_artifact`: the residual of each tensor is factored, the factors are written beside its files, and the manifest that tells of
them is written at the very end. What the world does at each tensor (the factors found, files that cannot be written or removed) is
part of the run.
-/

namespace Orka

open Flat

/-- An entry of the manifest with the error it records. -/
structure MetricEntry (α : Type) where
  entry : TensorMeta
  mse : α
  deriving DecidableEq

/-- The factors of `torch.svd_lowrank`. -/
structure Factors (α : Type) where
  u : ℕ → ℕ → α
  s : ℕ → α
  v : ℕ → ℕ → α

/-- What becomes of a file that is written: it holds what was meant for it, or the write raises and leaves something else. -/
inductive Written (α : Type) where
  | ok
  | failed (left : Option (File α)) (e : PyErr)

/-- A turn of the loop: a tensor of the source, flat, and what the world does to it. -/
structure CorrectTurn (α : Type) where
  name : String
  tensor : List α
  svdLowrank : List α → ℕ → Except PyErr (Factors α)
  writeA : Written α
  writeB : Written α
  unlinkA : Option PyErr
  unlinkB : Option PyErr

/-- What `_correct_tensor` reports of a tensor. -/
inductive Corrected where
  | skipped
  | notImproved
  | improved
  deriving DecidableEq

/-- `tensor_dir / f"{safe}.lowrank.a"`. -/
def lowrankA (name : String) : String := "tensors/" ++ (safeTensorName name ++ ".lowrank.a")

/-- `tensor_dir / f"{safe}.lowrank.b"`. -/
def lowrankB (name : String) : String := "tensors/" ++ (safeTensorName name ++ ".lowrank.b")

section Correct

variable {α : Type} [Field α] [LinearOrder α] [IsStrictOrderedRing α] [FloorRing α] (num : Numerics α) (half : α → α)

/-- `quality_metrics_from_flat(source, reconstructed)["mse"]`. -/
def qualityMse (source reconstructed : List α) : Except PyErr α :=
  if source.length ≠ reconstructed.length then .error (.valueError "source and reconstructed values must have the same length")
  else
    let sse := (List.zipWith (fun s r => (s - r) * (s - r)) source reconstructed).sum
    .ok (if source.length = 0 then 0 else sse / source.length)

/-- `a16`: the scaled left factors at half precision, row by row. -/
def Factors.a16 (f : Factors α) (rows rank : ℕ) : List α :=
  tabulate (rows * rank) fun i => half (f.u (i / rank) (i % rank) * f.s (i % rank))

/-- `b16`: the right factors at half precision. -/
def Factors.b16 (f : Factors α) (cols rank : ℕ) : List α := tabulate (cols * rank) fun i => half (f.v (i / rank) (i % rank))

/-- The part of `_correct_tensor` before anything is written: the decoded values without a correction, their error and the factors of
the residual. -/
def measureResidual (store : Store α) (tm : TensorMeta) (turn : CorrectTurn α) (target : List α) (rows cols rank : ℕ) :
    Except PyErr (List α × α × Factors α) :=
  (decodeTensor num store tm).bind fun decoded =>
    (qualityMse target decoded).bind fun before =>
      (reshape rows cols (List.zipWith (· - ·) target decoded)).bind fun residual =>
        (turn.svdLowrank residual.flatten (min (rank + 4) (min rows cols))).map fun factors => (decoded, before, factors)

/-- The part after both sidecars are written: they are kept with a new entry, or removed again. -/
def settleCorrection (store : Store α) (e : MetricEntry α) (turn : CorrectTurn α) (target decoded : List α) (before : α)
    (rows cols rank : ℕ) (a16 b16 : List α) : Store α × MetricEntry α × Except PyErr Corrected :=
  match qualityMse target (List.zipWith (· + ·) decoded (matmulT rows rank cols a16 b16)) with
  | .error err => (store, e, .error err)
  | .ok after =>
    if before ≤ after then
      match turn.unlinkA with
      | some err => (store, e, .error err)
      | none =>
        let store := Function.update store (lowrankA turn.name) none
        match turn.unlinkB with
        | some err => (store, e, .error err)
        | none => (Function.update store (lowrankB turn.name) none, e, .ok .notImproved)
    else
      let lowrank : LowrankMeta := ⟨rank, some .float16, lowrankA turn.name, lowrankB turn.name⟩
      (store, { entry := { e.entry with lowrank := some lowrank }, mse := after }, .ok .improved)

/-- `_correct_tensor(out_dir, tm, source_tensor, rank, device)`: the files and the entry after it. -/
def correctTensor (rank : ℕ) (store : Store α) (e : MetricEntry α) (turn : CorrectTurn α) :
    Store α × MetricEntry α × Except PyErr Corrected :=
  match rowsCols e.entry.shape with
  | .error err => (store, e, .error err)
  | .ok (rows, cols) =>
    if e.entry.packedValues ≠ rows * cols then (store, e, .ok .skipped)
    else
      let effectiveRank := min rank (min rows cols)
      let target := turn.tensor.take e.entry.packedValues
      let popped : MetricEntry α := { e with entry := { e.entry with lowrank := none } }
      match measureResidual num store popped.entry turn target rows cols effectiveRank with
      | .error err => (store, popped, .error err)
      | .ok (decoded, before, factors) =>
        let a16 := factors.a16 half rows effectiveRank
        let b16 := factors.b16 half cols effectiveRank
        match turn.writeA with
        | .failed left err => (Function.update store (lowrankA turn.name) left, popped, .error err)
        | .ok =>
          let store := Function.update store (lowrankA turn.name) (some (.floats .float16 a16))
          match turn.writeB with
          | .failed left err => (Function.update store (lowrankB turn.name) left, popped, .error err)
          | .ok =>
            let store := Function.update store (lowrankB turn.name) (some (.floats .float16 b16))
            settleCorrection store popped turn target decoded before rows cols effectiveRank a16 b16

/-- `packed_meta[name]`: the last entry of the name. -/
def packedMeta (entries : List (MetricEntry α)) (name : String) : Option (MetricEntry α) :=
  entries.reverse.find? fun e => e.entry.name = name

/-- The last entry of a name, changed in place. -/
def setPacked (name : String) (new : MetricEntry α) : List (MetricEntry α) → List (MetricEntry α)
  | [] => []
  | e :: es =>
    if name ∈ es.map (fun e => e.entry.name) then e :: setPacked name new es
    else if e.entry.name = name then new :: es else e :: es

/-- The loop of `correct_artifact` over the source, which may itself fail in the end. -/
def correctLoop (rank : ℕ) (maxTensors : Option ℕ) (sourceErr : Option PyErr) :
    List (CorrectTurn α) → ℕ → Store α → List (MetricEntry α) → Store α × Except PyErr (List (MetricEntry α))
  | [], _, store, entries => (store, match sourceErr with | some err => .error err | none => .ok entries)
  | turn :: turns, done, store, entries =>
    match packedMeta entries turn.name with
    | none => correctLoop rank maxTensors sourceErr turns done store entries
    | some e =>
      if maxTensors.any (· ≤ done) then (store, .ok entries)
      else match correctTensor num half rank store e turn with
        | (store, _, .error err) => (store, .error err)
        | (store, e, .ok _) => correctLoop rank maxTensors sourceErr turns (done + 1) store (setPacked turn.name e entries)

/-- `correct_artifact(artifact_dir, rank, device, max_tensors)`: the files after it, and the entries of the manifest it writes in the
end. `disk` is the manifest as it stands, if there is one. -/
def correctArtifact (rank : ℕ) (maxTensors : Option ℕ) (source : List (CorrectTurn α)) (sourceErr : Option PyErr)
    (store : Store α) (disk : Option (List (MetricEntry α))) : Store α × Except PyErr (List (MetricEntry α)) :=
  if rank < 1 then (store, .error (.valueError "rank must be >= 1"))
  else match disk with
    | none => (store, .error (.fileNotFoundError "missing Orka manifest: manifest.json"))
    | some entries => correctLoop num half rank maxTensors sourceErr source 0 store entries

end Correct

end Orka
