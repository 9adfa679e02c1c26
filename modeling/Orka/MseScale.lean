import Orka.Normalize
import Orka.Manifest
import Orka.Writers

/-!
# Least-squares block scales

`_refine_scales_ls` of the post-assignment strategies: the block scales of a tensor are fitted anew to the reconstruction that is on
disk, by least squares over the weights that no sidecar overrides. `none` is a `return False`.
-/

namespace Orka

open Flat

/-- What the function reads of a candidate. -/
structure ScaleCandidate (α : Type) where
  rotation : Rotation
  normalization : Normalization
  rowScales : Option (List α)
  mseV : Option (List α)
  stagesMeta : List StageMeta
  blockScaleSize : Option ℕ
  salientIndices : Option (List ℤ)
  outlierPositions : Option (List ℤ)
  deriving DecidableEq

section MseScale

variable {α : Type} [Field α] [LinearOrder α] [FloorRing α]

/-- `LS_SCALE_DENOM_FLOOR`. -/
def lsScaleDenomFloor : α := 1 / 10 ^ 8

/-- `LS_SCALE_MIN_MAGNITUDE`. -/
def lsScaleMinMagnitude : α := 1 / 10 ^ 12

/-- The normalized reconstruction `r`: the sum of the stages, read from their files. -/
def lsReconstruction (num : Numerics α) (store : Store α) (stages : List StageMeta) (total : ℕ) : Option (List α) :=
  stages.foldlM (fun r sm =>
    let g := sm.groupSize.getD 8
    if g = 0 ∨ total % g ≠ 0 then none
    else (readCodebook num store sm.codebook g (sm.codebookDtype.getD .float16)).toOption.bind fun cb =>
      (readIndices num store sm.indices sm.indexBits (total / g) (sm.packed.getD false) (sm.encoding.getD .raw)).toOption.bind fun idx =>
        (takeRows cb idx).toOption.bind fun rows =>
          if rows.flatten.length ≠ total then none else (addInto r rows.flatten).toOption)
    (List.replicate total 0)

/-- `mask[positions[(positions >= 0) & (positions < total)]] = 0.0`. -/
def clearMask (mask : List α) (positions : List ℤ) : List α :=
  scatter mask ((positions.filter fun p : ℤ => 0 ≤ p ∧ p < mask.length).map fun p => (p.toNat, 0))

namespace ScaleCandidate

variable (c : ScaleCandidate α)

/-- The mask of the fit: zero where the salient or the outlier sidecar overrides the weight. -/
def lsMask (total nb bs : ℕ) : List α :=
  let mask := List.replicate total 1
  let mask := match c.salientIndices with
    | none => mask
    | some sal => if sal.length = nb then clearMask mask (tabulate nb fun b => (b * bs : ℕ) + cell sal b) else mask
  match c.outlierPositions with
  | none => mask
  | some op => clearMask mask op

/-- The blocks that hold an outlier. -/
def skipBlock (total nb bs : ℕ) : List Bool :=
  let op := (c.outlierPositions.getD []).filter fun p : ℤ => 0 ≤ p ∧ p < total
  scatter (List.replicate nb false) (op.map fun p => (min (p.toNat / bs) (nb - 1), true))

/-- The new scale of a block: its scale, the sum `<v, r>`, the sum `<r, r>` and whether it is skipped. -/
def newScale (scale num den : α) (skip : Bool) : α :=
  let factor := if lsScaleDenomFloor < den then num / den else 1
  let s := if skip then scale else scale * factor
  if lsScaleMinMagnitude < |s| then s else scale

/-- The scales before they are rounded to their storage. -/
def newScales (sc v r : List α) (nb bs : ℕ) : List α :=
  let mask := c.lsMask v.length nb bs
  let skip := c.skipBlock v.length nb bs
  let vb := List.zipWith (· * ·) v mask
  let rb := List.zipWith (· * ·) r mask
  tabulate nb fun b =>
    newScale (cell sc b) (∑ j ∈ Finset.range bs, cell vb (b * bs + j) * cell rb (b * bs + j))
      (∑ j ∈ Finset.range bs, cell rb (b * bs + j) * cell rb (b * bs + j)) (skip.getD b false)

/-- The block size, with the default of the run. -/
def lsBlockSize (blockScaleSize : ℕ) : ℕ :=
  match c.blockScaleSize with
  | some n => if n ≠ 0 then n else blockScaleSize
  | none => blockScaleSize

/-- The body, once the gates on the mode have passed. -/
def refinedScales (num : Numerics α) (store : Store α) (blockScaleSize : ℕ) : Option (List α) :=
  match c.rowScales, c.mseV with
  | some sc, some v =>
    let bs := c.lsBlockSize blockScaleSize
    if c.stagesMeta.isEmpty then none
    else if bs = 0 ∨ v.length % bs ≠ 0 ∨ sc.length ≠ v.length / bs then none
    else (lsReconstruction num store c.stagesMeta v.length).map fun r =>
      fp16StorageRoundtrip (c.newScales sc v r (v.length / bs) bs)
  | _, _ => none

/-- `_refine_scales_ls(c, mse_scale, block_scale_size, out_dir)`: what it returns, and the candidate it leaves. -/
def refineScalesLs (num : Numerics α) (store : Store α) (mseScale : Bool) (blockScaleSize : ℕ) : Bool × ScaleCandidate α :=
  if !mseScale then (false, c)
  else
    let popped := { c with mseV := none }
    if c.rotation ≠ .none then (false, popped)
    else if !storesBlockScales c.normalization then (false, popped)
    else match c.refinedScales num store blockScaleSize with
      | none => (false, popped)
      | some scales => (true, { popped with rowScales := some scales })

end ScaleCandidate

end MseScale

end Orka
