import Orka.Decode

/-!
# What an entry holds

The abstract layer under every reader of an artifact: the arrays of one packed matrix, each with the sizes and ranges that make
its decoding total, and the matrix they stand for. `Holds` says that the files of an entry are such arrays.
-/

namespace Orka

open Flat

/-- One stage in memory: a codebook whose rows are `width` wide, and indices into it. -/
structure StageContents (α : Type) where
  width : ℕ
  codebook : List (List α)
  indices : List ℕ
  width_pos : 0 < width
  row_width : ∀ row ∈ codebook, row.length = width
  index_lt : ∀ i ∈ indices, i < codebook.length

/-- The values a stage adds: the rows its indices name, joined. -/
def StageContents.values {α : Type} (s : StageContents α) : List α := (s.indices.map fun i => s.codebook.getD i []).flatten

/-- The arrays of one packed matrix of `rows` rows and `cols` columns. -/
structure TensorContents (α : Type) where
  rows : ℕ
  cols : ℕ
  padded : ℕ
  stages : List (StageContents α)
  outliers : List (ℕ × α)
  pillars : List (ℕ × α)
  rotation : Rotation
  seed : ℕ
  blockSize : ℕ
  blockScales : Option (List α)
  colScales : Option (List α)
  salient : Option (List ℕ × List α)
  lowrank : Option (ℕ × List (List α) × List (List α))
  packed_le : rows * cols ≤ padded
  stage_count : ∀ s ∈ stages, s.indices.length * s.width = padded
  outlier_lt : ∀ w ∈ outliers, w.1 < rows * cols
  pillar_lt : ∀ w ∈ pillars, w.1 < rows * cols
  hadamard_block : rotation = .hadamard → 0 < cols ∧ ∃ b, hadamardBlockSize cols hadamardMinBlock = .ok b
  blockSize_pos : 0 < blockSize
  blockScales_length : ∀ ss, blockScales = some ss → ss.length = ceilDiv (rows * cols) blockSize
  colScales_length : ∀ ss, colScales = some ss → ss.length = cols
  salient_spec : ∀ idx vals, salient = some (idx, vals) →
    vals.length = idx.length ∧ idx.length = ceilDiv (rows * cols) blockSize ∧ ∀ j ∈ idx, j < blockSize
  lowrank_length : ∀ rank a b, lowrank = some (rank, a, b) → 0 < rows ∧ a.length = rows ∧ b.length = cols

/-- The salient writes that fall inside a stream of `n` values. -/
def salientWrites {α : Type} [Zero α] (n blockSize : ℕ) (idx : List ℕ) (vals : List α) : List (ℕ × α) :=
  ((List.range idx.length).map fun b => (b * blockSize + cell idx b, cell vals b)).filter fun w => w.1 < n

/-- The Hadamard block of a width that admits one. -/
def hadamardBlock (cols : ℕ) : ℕ := if cols &&& (cols - 1) = 0 then cols else largestPow2Divisor cols

namespace TensorContents

variable {α : Type} [Field α]

/-- The number of values of the matrix. -/
def count (c : TensorContents α) : ℕ := c.rows * c.cols

/-- The sum of the stages. -/
def sum (c : TensorContents α) : List α :=
  c.stages.foldl (fun acc s => List.zipWith (· + ·) acc s.values) (List.replicate c.padded 0)

/-- The matrix quantized, before any rotation or scale is undone. -/
def injected (c : TensorContents α) : List α := scatter (scatter (c.sum.take c.count) c.outliers) c.pillars

/-- The rotation undone. -/
def unrotated (num : Numerics α) (c : TensorContents α) (x : List α) : List α :=
  match c.rotation with
  | .none => x
  | .hadamard => ((rowsOf (c.rows * (c.cols / hadamardBlock c.cols)) (hadamardBlock c.cols) x).map fun y =>
      (fwhtLoop (hadamardBlock c.cols) (hadamardBlock c.cols) 1 y).map (· / num.sqrt (hadamardBlock c.cols))).flatten
  | .orthogonal => matmulT c.rows c.cols c.cols x (num.orthogonal c.cols c.seed)

/-- The block scales multiplied. -/
def blockScaled (c : TensorContents α) (x : List α) : List α :=
  match c.blockScales with
  | none => x
  | some ss => (scaleRows c.blockSize (x ++ List.replicate (padding c.count c.blockSize) 0) ss).take c.count

/-- The column scales multiplied. -/
def colScaled (c : TensorContents α) (x : List α) : List α :=
  match c.colScales with
  | none => x
  | some ss => tabulate c.count fun i => cell x i * cell ss (i % c.cols)

/-- The scales undone: blocks, then columns. -/
def scaled (c : TensorContents α) (x : List α) : List α := c.colScaled (c.blockScaled x)

/-- The scale factor of a position. -/
def scaleOf (c : TensorContents α) (p : ℕ) : α :=
  match c.blockScales with
  | none => 1
  | some ss => cell ss (p / c.blockSize)

/-- The salient writes of the matrix. -/
def salientOf (c : TensorContents α) : List (ℕ × α) :=
  match c.salient with
  | none => []
  | some (idx, vals) => salientWrites c.count c.blockSize idx vals

/-- The salient values written over. -/
def reinjected (c : TensorContents α) (x : List α) : List α :=
  match c.salient with
  | none => x
  | some (idx, vals) => scatter x (salientWrites c.count c.blockSize idx vals)

/-- The low-rank correction added. -/
def corrected (c : TensorContents α) (x : List α) : List α :=
  match c.lowrank with
  | none => x
  | some (rank, a, b) => List.zipWith (· + ·) x (matmulT c.rows rank c.cols a.flatten b.flatten)

/-- The matrix the arrays stand for. -/
def reconstruct (num : Numerics α) (c : TensorContents α) : List α :=
  c.corrected (c.reinjected (c.scaled (c.unrotated num c.injected)))

/-- The low-rank correction adds nothing: every row of the first factor is orthogonal to every row of the second. -/
def Uncorrected (c : TensorContents α) : Prop :=
  ∀ rank a b, c.lowrank = some (rank, a, b) → ∀ i < c.rows, ∀ j < c.cols,
    ((List.range rank).map fun k => cell a.flatten (i * rank + k) * cell b.flatten (j * rank + k)).sum = 0

/-- The matrix has a column, or no row, or no step that counts columns. -/
def Shaped (c : TensorContents α) : Prop := c.cols = 0 → c.rows = 0 ∨ (c.rotation = .none ∧ c.colScales = none)

/-- The only steps the matrix needs are the stages, the outliers, the block scales and the salient values. -/
structure Plain (c : TensorContents α) : Prop where
  rotation : c.rotation = .none
  colScales : c.colScales = none
  pillars : c.pillars = []
  lowrank : c.Uncorrected

end TensorContents

/-! ## Files that hold contents -/

section Holds

variable {α : Type} [Ring α] (num : Numerics α) (store : Store α)

/-- The files of a stage hold its codebook and its indices. -/
def HoldsStage (groupSize paddedValues : ℕ) (stage : StageMeta) (s : StageContents α) : Prop :=
  stage.groupSize.getD groupSize = s.width ∧
    readStageArrays num store stage groupSize paddedValues = .ok (s.codebook, ints s.indices)

/-- The scale files of an entry hold the factors its normalization asks for. -/
def HoldsScales (tm : TensorMeta) (blockScales colScales : Option (List α)) : Prop :=
  match tm.normalizationMode with
  | .none => blockScales = none ∧ colScales = none
  | .awq => blockScales = none ∧ ∃ ss, colScales = some ss ∧ readScales num store tm = .ok ss
  | .blockMax | .channelBlockMax | .slrqBlock =>
    colScales = none ∧ ∃ ss, blockScales = some ss ∧ readScales num store tm = .ok ss
  | .awqBlockMax => (∃ ss, blockScales = some ss ∧ readScales num store tm = .ok ss) ∧
    match tm.awqColScales with
    | none => colScales = none
    | some awqMeta => ∃ ss, colScales = some ss ∧ readAwqColScales num store awqMeta = .ok ss

/-- An escape file pair holds a list of positions and values; no field means none. -/
def HoldsEscapes (read : Option (Except PyErr (List ℤ × List α))) (ws : List (ℕ × α)) : Prop :=
  match read with
  | none => ws = []
  | some r => r = .ok (ints (ws.map Prod.fst), ws.map Prod.snd)

/-- The salient files hold block indices and weights; no field means none. -/
def HoldsSalient (tm : TensorMeta) (salient : Option (List ℕ × List α)) : Prop :=
  match tm.salient with
  | none => salient = none
  | some m => ∃ idx vals, salient = some (idx, vals) ∧ readSalientOf num store m = .ok (ints idx, vals)

/-- The low-rank files hold the two factors; no field means none. -/
def HoldsLowrank (tm : TensorMeta) (lowrank : Option (ℕ × List (List α) × List (List α))) : Prop :=
  match tm.lowrank with
  | none => lowrank = none
  | some lr => ∃ a b, lowrank = some (lr.rank, a, b) ∧ readLowrank num store lr = .ok (a, b)

/-- The entry and its files hold these contents, with as many packed values as the shape has. -/
structure Holds (tm : TensorMeta) (c : TensorContents α) : Prop where
  shape : rowsCols tm.shape = .ok (c.rows, c.cols)
  packed : tm.packedValues = c.rows * c.cols
  padded : tm.paddedValues = c.padded
  group_pos : 0 < tm.groupSize
  group_dvd : tm.groupSize ∣ c.padded
  stages : List.Forall₂ (HoldsStage num store tm.groupSize tm.paddedValues) (resolveStages tm) c.stages
  outliers : HoldsEscapes (tm.outliers.map (readOutliersOf num store)) c.outliers
  pillars : HoldsEscapes (tm.pillars.map (readPillarsOf num store)) c.pillars
  rotation : tm.rotationMode = c.rotation
  seed : tm.seed = c.seed
  blockSize : tm.blockSize = c.blockSize
  scales : HoldsScales num store tm c.blockScales c.colScales
  salient : HoldsSalient num store tm c.salient
  lowrank : HoldsLowrank num store tm c.lowrank

end Holds

end Orka
