import Orka.Decode
import Orka.Lib.Buffer

/-!
# The C kernel

`kernel/orka_vq.c`: one tensor decoded from a struct of counts and arrays. Where the struct has 32-bit integers, so has the model;
the arithmetic on them is in 64 bits, which sizes of arrays in memory do not leave. A pointer is an array that may be missing.
-/

namespace Orka

open Flat Steps Buffer

/-- `int32_t`. -/
abbrev CInt := { x : ℤ // -2 ^ 31 ≤ x ∧ x < 2 ^ 31 }

/-- `orka_vq_stage`; the kernel does not read the number of codewords. -/
structure KernelStage (α : Type) where
  groupSize : CInt
  codebook : Option (List α)
  indices : Option (List CInt)

/-- `orka_vq_tensor`. -/
structure KernelTensor (α : Type) where
  packedValues : ℤ
  paddedValues : ℤ
  rows : CInt
  cols : CInt
  nStages : CInt
  stages : Option (List (KernelStage α))
  blockScaleSize : CInt
  scaleCount : CInt
  scales : Option (List α)
  outlierCount : CInt
  outlierPos : Option (List ℤ)
  outlierVal : Option (List α)
  salientCount : CInt
  salientIdx : Option (List CInt)
  salientVal : Option (List α)
  lowrankRank : CInt
  lowrankA : Option (List α)
  lowrankB : Option (List α)

/-- `ceil_div(a, b)`; division in C truncates. -/
def ceilDivC (a b : ℤ) : ℤ := Int.tdiv (a + b - 1) b

/-- `buf_len`, with the group size of the first stage. -/
def bufLen (paddedValues groupSize : ℤ) : ℤ := ceilDivC paddedValues groupSize * groupSize

section Kernel

variable {α : Type} [CommRing α]

/-- One row: `dst[j] += row[j]` for `dst = acc + v * g` and `row = codebook + idx * g`. -/
def addRow (g : ℤ) (codebook : List α) (indices : List CInt) (v : ℤ) (acc : List α) : Except Exit (List α) :=
  (peek indices v).bind fun idx =>
    Buffer.loop g (fun j acc => (peek acc (v * g + j)).bind fun a => (peek codebook (idx * g + j)).bind fun c =>
      poke acc (v * g + j) (a + c)) acc

/-- One round of the loop over the stages. -/
def addStage (paddedValues : ℤ) (st : KernelStage α) (acc : List α) : Except Exit (List α) :=
  if (st.groupSize : ℤ) ≤ 0 then .error (.returned (-4))
  else match st.codebook, st.indices with
    | some codebook, some indices =>
      Buffer.loop (ceilDivC paddedValues st.groupSize) (addRow st.groupSize codebook indices) acc
    | _, _ => .error (.returned (-4))

variable (t : KernelTensor α)

/-- The outlier escape. -/
def putOutliers (out : List α) : Except Exit (List α) :=
  match t.outlierPos, t.outlierVal with
  | some pos, some val =>
    Buffer.loop t.outlierCount (fun o out => (peek pos o).bind fun p =>
      if 0 ≤ p ∧ p < t.packedValues then (peek val o).bind fun v => poke out p v else .ok out) out
  | _, _ => .ok out

/-- The block scales. -/
def scaleBlocks (out : List α) : Except Exit (List α) :=
  match t.scales with
  | none => .ok out
  | some scales =>
    if 0 < (t.blockScaleSize : ℤ) ∧ 0 < (t.scaleCount : ℤ) then
      Buffer.loop t.packedValues (fun i out =>
        let b := Int.tdiv i t.blockScaleSize
        (if b < t.scaleCount then peek scales b else .ok 1).bind fun scale =>
          (peek out i).bind fun x => poke out i (x * scale)) out
    else .ok out

/-- The salient escape. -/
def putSalient (out : List α) : Except Exit (List α) :=
  match t.salientIdx, t.salientVal with
  | some idx, some val =>
    let bs : ℤ := if 0 < (t.blockScaleSize : ℤ) then t.blockScaleSize else 32
    Buffer.loop t.salientCount (fun b out => (peek idx b).bind fun j =>
      let flat := b * bs + j
      if 0 ≤ flat ∧ flat < t.packedValues then (peek val b).bind fun v => poke out flat v else .ok out) out
  | _, _ => .ok out

/-- `a_row[kk] * b_row[kk]` summed. -/
def dotC (r : ℤ) (a b : List α) (i jc : ℤ) : Except Exit α :=
  Buffer.loop r (fun kk dot => (peek a (i * r + kk)).bind fun x => (peek b (jc * r + kk)).map fun y => dot + x * y) 0

/-- The low-rank correction. -/
def addLowrank (out : List α) : Except Exit (List α) :=
  match t.lowrankA, t.lowrankB with
  | some a, some b =>
    if 0 < (t.lowrankRank : ℤ) ∧ (t.rows : ℤ) * t.cols ≤ t.packedValues then
      Buffer.loop t.rows (fun i out => Buffer.loop t.cols (fun jc out => (dotC t.lowrankRank a b i jc).bind fun dot =>
        (peek out (i * t.cols + jc)).bind fun x => poke out (i * t.cols + jc) (x + dot)) out) out
    else .ok out
  | _, _ => .ok out

/-- `orka_vq_dequantize(t, out)`: what `out` holds on return 0, or the code of another return. `calloc` says which lengths there
is memory for. -/
def orkaVqDequantize (calloc : ℤ → Bool) (out : List α) : Except Exit (List α) :=
  match t.stages with
  | none => .error (.returned (-1))
  | some stages =>
    if (t.nStages : ℤ) ≤ 0 then .error (.returned (-1))
    else
      (peek stages 0).bind fun first =>
        if (first.groupSize : ℤ) ≤ 0 then .error (.returned (-2))
        else
          let len := bufLen t.paddedValues first.groupSize
          if calloc len = false then .error (.returned (-3))
          else
            (Buffer.loop t.nStages (fun s acc => (peek stages s).bind fun st => addStage t.paddedValues st acc)
              (List.replicate len.toNat 0)).bind fun acc =>
              (Buffer.loop t.packedValues (fun i out => (peek acc i).bind fun a => poke out i a) out).bind fun out =>
                (putOutliers t out).bind fun out => (scaleBlocks t out).bind fun out =>
                  (putSalient t out).bind fun out => addLowrank t out

/-- The length of `acc`. -/
def accLen : ℤ :=
  match t.stages with
  | some (first :: _) => bufLen t.paddedValues first.groupSize
  | _ => 0

/-- The offsets of `acc` that the loop over the stages reads and writes and the copy reads. -/
def accOffsets : List ℤ :=
  ((t.stages.getD []).flatMap fun st => (List.range (ceilDivC t.paddedValues st.groupSize).toNat).flatMap fun (v : ℕ) =>
    (List.range (st.groupSize : ℤ).toNat).map fun (j : ℕ) => v * (st.groupSize : ℤ) + j) ++
  (List.range t.packedValues.toNat).map fun (i : ℕ) => (i : ℤ)

end Kernel

/-! ## The inputs -/

section Inputs

variable {α : Type} [Field α] [LinearOrder α] [IsStrictOrderedRing α] [FloorRing α]
variable (num : Numerics α) (store : Store α) (tm : TensorMeta)

/-- A stage of the struct holds what the decoder reads for the stage. -/
def SameStage (stage : StageMeta) (st : KernelStage α) : Prop :=
  ∃ cb idxs indices, readStageArrays num store stage tm.groupSize tm.paddedValues = .ok (cb, idxs) ∧
    (st.groupSize : ℤ) = (stage.groupSize.getD tm.groupSize : ℕ) ∧ st.codebook = some cb.flatten ∧ st.indices = some indices ∧
      indices.map Subtype.val = idxs

/-- The scales of the struct are those the entry's normalization asks for; without scales the fields are zero. -/
def SameScales (t : KernelTensor α) : Prop :=
  if storesBlockScales tm.normalizationMode then
    ∃ scales, readScales num store tm = .ok scales ∧ t.scales = some scales ∧ (t.scaleCount : ℤ) = scales.length ∧
      (t.blockScaleSize : ℤ) = tm.blockSize
  else t.scales = none ∧ (t.blockScaleSize : ℤ) = 0

/-- The outliers of the struct are the entry's. -/
def SameOutliers (t : KernelTensor α) : Prop :=
  match tm.outliers with
  | none => t.outlierPos = none
  | some m => ∃ pos val, readOutliersOf num store m = .ok (pos, val) ∧ t.outlierPos = some pos ∧ t.outlierVal = some val ∧
      (t.outlierCount : ℤ) = pos.length

/-- The salient values of the struct are the entry's. -/
def SameSalient (t : KernelTensor α) : Prop :=
  match tm.salient with
  | none => t.salientIdx = none
  | some m => ∃ sIdx idx val, readSalientOf num store m = .ok (sIdx, val) ∧ t.salientIdx = some idx ∧ idx.map Subtype.val = sIdx ∧
      t.salientVal = some val ∧ (t.salientCount : ℤ) = sIdx.length

/-- The low-rank factors of the struct are the entry's. -/
def SameLowrank (t : KernelTensor α) : Prop :=
  match tm.lowrank with
  | none => t.lowrankA = none
  | some lr => ∃ a b, readLowrank num store lr = .ok (a, b) ∧ (t.lowrankRank : ℤ) = lr.rank ∧ t.lowrankA = some a.flatten ∧
      t.lowrankB = some b.flatten

/-- **The struct holds the inputs of the decoder.** -/
structure SameInputs (t : KernelTensor α) : Prop where
  packed : t.packedValues = tm.packedValues
  padded : t.paddedValues = tm.paddedValues
  shape : ∃ rows cols, rowsCols tm.shape = .ok (rows, cols) ∧ (t.rows : ℤ) = (rows : ℕ) ∧ (t.cols : ℤ) = (cols : ℕ)
  stages : ∃ stages, t.stages = some stages ∧ (t.nStages : ℤ) = stages.length ∧
    List.Forall₂ (SameStage num store tm) (resolveStages tm) stages
  scales : SameScales num store tm t
  outliers : SameOutliers num store tm t
  salient : SameSalient num store tm t
  lowrank : SameLowrank num store tm t

/-- What `pack_checkpoint` writes of a tensor without rotation and without column scales, and `correct_artifact` adds to it:
vector stages of the group size and scalar stages, with codewords of that width, padding to whole groups, no pillars, no negative
index or position, and low-rank factors with a row for each row and each column. -/
structure KernelEntry : Prop where
  rotation : tm.rotationMode = .none
  normalization : tm.normalizationMode = .none ∨ tm.normalizationMode = .blockMax ∨ tm.normalizationMode = .channelBlockMax ∨
    tm.normalizationMode = .slrqBlock
  blockScaleSize : tm.normalizationMode = .none → tm.blockScaleSize = none
  pillars : tm.pillars = none
  group_pos : 0 < tm.groupSize
  group_dvd : tm.groupSize ∣ tm.paddedValues
  packed_le : tm.packedValues ≤ tm.paddedValues
  packed_le_shape : tm.packedValues ≤ tm.shape.prod
  widths : ∀ stage ∈ resolveStages tm, stage.groupSize.getD tm.groupSize = tm.groupSize ∨ stage.groupSize.getD tm.groupSize = 1
  stages : ∀ stage ∈ resolveStages tm, ∀ cb idxs, readStageArrays num store stage tm.groupSize tm.paddedValues = .ok (cb, idxs) →
    (∀ row ∈ cb, row.length = stage.groupSize.getD tm.groupSize) ∧ ∀ i ∈ idxs, 0 ≤ i
  outliers : ∀ m, tm.outliers = some m → ∀ pos val, readOutliersOf num store m = .ok (pos, val) → ∀ p ∈ pos, 0 ≤ p
  salient : ∀ m, tm.salient = some m → ∀ idx val, readSalientOf num store m = .ok (idx, val) → ∀ j ∈ idx, 0 ≤ j
  lowrank : ∀ lr, tm.lowrank = some lr → ∀ a b, readLowrank num store lr = .ok (a, b) →
    rowsCols tm.shape = .ok (a.length, b.length)

end Inputs

end Orka
