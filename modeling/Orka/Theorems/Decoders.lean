import Orka.Lemmas.Decode

/-!
# The decoders agree

The numpy and the torch decoder dispatch on the manifest in different ways; on an entry whose files hold a matrix both return
that matrix.
-/

namespace Orka

open Flat DecodeAux

/-- **The torch decoder returns what the numpy decoder returns.** For every entry whose files hold contents, with as many
packed values as its shape has and no escape position twice: any list of vector and scalar stages, either rotation, every
normalization, salient values and a low-rank correction. -/
theorem decodeTensorTorch_eq_decodeTensor {α : Type} [Field α] [LinearOrder α] [IsStrictOrderedRing α] [FloorRing α]
    (num : Numerics α) (store : Store α) (tm : TensorMeta) (c : TensorContents α) (h : Holds num store tm c)
    (hout : (c.outliers.map Prod.fst).Nodup) (hpil : (c.pillars.map Prod.fst).Nodup) :
    ∃ v, decodeTensor num store tm = .ok v ∧ decodeTensorTorch num store tm = .ok v :=
  ⟨c.reconstruct num, decodeTensor_eq h, decodeTensorTorch_eq h hout hpil⟩

/-! ## An entry with every step -/

/-- A row of four values: a stage of two vectors and a scalar stage, an outlier, a Hadamard rotation, slrq scales with a
salient value and a low-rank correction of rank one. -/
def fullEntry : TensorMeta where
  name := "w"
  shape := [1, 4]
  packedValues := 4
  paddedValues := 4
  groupSize := 2
  stages := [
    { codebook := "s0.cb", codebookSize := 2, codebookDtype := some .float16, indexBits := 1, packed := some true,
      encoding := some .raw, indices := "s0.idx", groupSize := some 2 },
    { codebook := "s1.cb", codebookSize := 2, codebookDtype := some .int8, indexBits := 1, packed := some true,
      encoding := some .raw, indices := "s1.idx", groupSize := some 1 }]
  codebook := "s0.cb"
  codebookSize := 2
  indexBits := 1
  indices := "s0.idx"
  normalization := some .slrqBlock
  scales := some "scale"
  scaleCount := 1
  scaleDtype := some .float16
  blockScaleSize := some 4
  outliers := some { count := 1, positions := "out.idx", values := "out.val", positionsDtype := some .uint8,
                     valuesDtype := some .float16 }
  salient := some { count := 1, indices := "sal.idx", weights := "sal.val", indicesBits := 2, weightsDtype := some .float16 }
  rotationSeed := some 0
  rotation := some .hadamard
  lowrank := some { rank := 1, dtype := some .float16, a := "lr.a", b := "lr.b" }

/-- The files of the entry. -/
def fullStore : Store ℚ := fun path =>
  match path with
  | "s0.cb" => some (.floats .float16 [1, 2, -1, 3])
  | "s0.idx" => some (.stream .raw [64])
  | "s1.cb" => some (.int8 [1 / 2] [1, -1])
  | "s1.idx" => some (.stream .raw [160])
  | "scale" => some (.floats .float16 [2])
  | "out.idx" => some (.unsigned .uint8 [2])
  | "out.val" => some (.floats .float16 [5])
  | "sal.idx" => some (.unsigned .uint8 [192])
  | "sal.val" => some (.floats .float16 [7])
  | "lr.a" => some (.floats .float16 [1])
  | "lr.b" => some (.floats .float16 [1, 0, -1, 2])
  | _ => none

/-- What the entry holds. -/
def fullContents : TensorContents ℚ where
  rows := 1
  cols := 4
  padded := 4
  stages := [
    { width := 2, codebook := [[1, 2], [-1, 3]], indices := [0, 1], width_pos := by decide, row_width := by decide,
      index_lt := by decide },
    { width := 1, codebook := [[1 / 2], [-(1 / 2)]], indices := [1, 0, 1, 0], width_pos := by decide, row_width := by decide,
      index_lt := by decide }]
  outliers := [(2, 5)]
  pillars := []
  rotation := .hadamard
  seed := 0
  blockSize := 4
  blockScales := some [2]
  colScales := none
  salient := some ([3], [7])
  lowrank := some (1, [[1]], [[1], [0], [-1], [2]])
  packed_le := by decide
  stage_count := by decide
  outlier_lt := by decide
  pillar_lt := by decide
  hadamard_block := fun _ => ⟨by decide, 4, rfl⟩
  blockSize_pos := by decide
  blockScales_length := by
    intro ss hs
    cases hs
    rfl
  colScales_length := by
    intro ss hs
    cases hs
  salient_spec := by
    intro idx vals hs
    cases hs
    decide
  lowrank_length := by
    intro rank a b hl
    cases hl
    decide

/-- The example's store holds the example's contents. -/
theorem fullEntry_holds : Holds rationalNumerics fullStore fullEntry fullContents where
  shape := rfl
  packed := rfl
  padded := rfl
  group_pos := by decide
  group_dvd := by decide
  stages := .cons ⟨rfl, by decide +kernel⟩ (.cons ⟨rfl, by decide +kernel⟩ .nil)
  outliers := show readOutliersOf rationalNumerics fullStore _ = .ok ([2], [5]) by decide +kernel
  pillars := rfl
  rotation := rfl
  seed := rfl
  blockSize := rfl
  scales := ⟨rfl, [2], rfl, rfl⟩
  salient := ⟨[3], [7], rfl, by decide +kernel⟩
  lowrank := ⟨[[1]], [[1], [0], [-1], [2]], rfl, rfl⟩

/-- A tensor with every sidecar, decoded both ways. -/
theorem decodeTensorTorch_eq_decodeTensor_full :
    ∃ v, decodeTensor rationalNumerics fullStore fullEntry = .ok v ∧
      decodeTensorTorch rationalNumerics fullStore fullEntry = .ok v :=
  decodeTensorTorch_eq_decodeTensor rationalNumerics fullStore fullEntry fullContents fullEntry_holds (by decide) (by decide)

end Orka
