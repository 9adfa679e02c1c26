import Orka.EmAq

/-!
# Giant candidates

`_stage_decode_accumulate_blocked` of `pack_pipeline.py`, the close-out of a stage in blocks of rows and in place. The tensors of a
candidate are the buffers of a memory: two entries of the candidate can be the same tensor, and what a new tensor holds is arbitrary.
Offsets are exact integers, and arithmetic is exact.
-/

namespace Orka

open Flat

variable {α : Type} [Field α] {g : ℕ}

/-- The entries of a candidate that the stages share, as buffers of `memory`. -/
structure GiantCandidate (α : Type) (g : ℕ) where
  memory : List (List (Fin g → α))
  vectorsOrig : ℕ
  decodedSum : Option ℕ
  vectorsResidual : Option ℕ
  deriving DecidableEq

/-- A tensor of a memory. -/
def tensorAt (memory : List (List (Fin g → α))) (b : ℕ) : List (Fin g → α) := memory.getD b []

/-- `dblk`: the rows `i` to `j` of what the stage decodes to. -/
def decodeBlock (sd : StageData α g) (i j : ℕ) : Except PyErr (List (Fin g → α)) :=
  match sd with
  | ⟨.vector, cb, indices, _⟩ => gatherRows cb (slice indices i j)
  | ⟨.scalar, cb, indices, _⟩ => (gatherRows cb (slice indices (i * g) (j * g))).bind (stageUnview .scalar (j - i))

/-- `t[i:j] = block`. -/
def writeRows (memory : List (List (Fin g → α))) (b i j : ℕ) (block : List (Fin g → α)) : Except PyErr (List (List (Fin g → α))) :=
  (setSlice (tensorAt memory b) i j block).map fun t => memory.set b t

/-- The body of the loop: `ds[i:j] += dblk` and then `res[i:j] = vo[i:j] - ds[i:j]`. -/
def closeBlock (sd : StageData α g) (chunkRows nRows vo ds res : ℕ) (memory : List (List (Fin g → α))) (i : ℕ) :
    Except PyErr (List (List (Fin g → α))) :=
  let j := min (i + chunkRows) nRows
  (decodeBlock sd i j).bind fun dblk =>
    (writeRows memory ds i j (addRows (slice (tensorAt memory ds) i j) dblk)).bind fun memory =>
      writeRows memory res i j (vectorsSubtract (slice (tensorAt memory vo) i j) (slice (tensorAt memory ds) i j))

/-- `ds`, allocated when the candidate has no sum. -/
def sumBuffer (nRows : ℕ) (decodedSum : Option ℕ) (memory : List (List (Fin g → α))) : ℕ × List (List (Fin g → α)) :=
  match decodedSum with
  | some ds => (ds, memory)
  | none => (memory.length, memory ++ [List.replicate nRows 0])

/-- `res`, allocated when the residual is missing, has another shape, or is `vo` or `ds`. `empty` is what a new tensor holds. -/
def residualBuffer (empty : ℕ → Fin g → α) (nRows vo ds : ℕ) (vectorsResidual : Option ℕ) (memory : List (List (Fin g → α))) :
    ℕ × List (List (Fin g → α)) :=
  match vectorsResidual.filter fun res => (tensorAt memory res).length = nRows ∧ res ≠ vo ∧ res ≠ ds with
  | some res => (res, memory)
  | none => (memory.length, memory ++ [tabulate nRows empty])

/-- `_stage_decode_accumulate_blocked(c, cb, indices, is_scalar_stage, chunk_rows)`. -/
def stageDecodeAccumulateBlocked (empty : ℕ → Fin g → α) (c : GiantCandidate α g) (chunkRows : ℕ) (sd : StageData α g) :
    Except PyErr (GiantCandidate α g) :=
  let vo := c.vectorsOrig
  let nRows := (tensorAt c.memory vo).length
  let (ds, memory) := sumBuffer nRows c.decodedSum c.memory
  let (res, memory) := residualBuffer empty nRows vo ds c.vectorsResidual memory
  (pyRange nRows chunkRows).bind fun starts =>
    (starts.foldlM (closeBlock sd chunkRows nRows vo ds res) memory).map fun memory => ⟨memory, vo, some ds, some res⟩

/-- The close-out of the other candidates: what `decoded_sum` and `vectors_residual` become. -/
def closeStage (vectorsOrig : List (Fin g → α)) (decodedSum : Option (List (Fin g → α))) (sd : StageData α g) :
    Except PyErr (List (Fin g → α) × List (Fin g → α)) :=
  (decodeStage vectorsOrig.length sd).map fun decoded =>
    (accumulate decodedSum decoded, vectorsSubtract vectorsOrig (accumulate decodedSum decoded))

/-- The vectors, the sum and the residual a candidate holds. -/
abbrev Held (α : Type) (g : ℕ) := List (Fin g → α) × Option (List (Fin g → α)) × Option (List (Fin g → α))

def GiantCandidate.held (c : GiantCandidate α g) : Held α g :=
  (tensorAt c.memory c.vectorsOrig, c.decodedSum.map (tensorAt c.memory), c.vectorsResidual.map (tensorAt c.memory))

/-- What the close-out of the other candidates makes of them. -/
def closeHeld (held : Held α g) (sd : StageData α g) : Except PyErr (Held α g) :=
  (closeStage held.1 held.2.1 sd).map fun (decodedSum, residual) => (held.1, some decodedSum, some residual)

end Orka
