import Orka.Decode

/-!
# Decoding reads the files of the entry

Two stores that agree on the paths an entry records, as far as the decoder opens them, decode the entry alike.
-/

namespace Orka

/-- The sidecar paths of an entry. -/
def TensorMeta.sidecarPaths (tm : TensorMeta) : List String :=
  tm.scales.toList ++ tm.awqColScales.toList.map VectorMeta.path ++
    tm.outliers.toList.flatMap (fun o => [o.positions, o.values]) ++
    tm.pillars.toList.flatMap (fun p => [p.positions, p.values]) ++
    tm.salient.toList.flatMap (fun s => [s.indices, s.weights]) ++ tm.lowrank.toList.flatMap fun l => [l.a, l.b]

/-- The paths a decoder opens. -/
def TensorMeta.reads (tm : TensorMeta) : List String :=
  (resolveStages tm).flatMap (fun s => [s.codebook, s.indices]) ++ tm.sidecarPaths

namespace FrameAux

variable {α : Type} (num : Numerics α) {store store' : Store α} {path val : String}

/-- Opening depends on the file alone. -/
theorem openFile_congr (h : store path = store' path) : openFile store path = openFile store' path := by
  rw [openFile, openFile, h]

/-- Reading floats depends on the file alone. -/
theorem readFloats_congr (h : store path = store' path) (dtype : FloatDtype) :
    readFloats num store path dtype = readFloats num store' path dtype := by
  rw [readFloats, readFloats, openFile_congr h]

/-- Reading indices depends on the file alone. -/
theorem readUnsigned_congr (h : store path = store' path) (dtype : UnsignedDtype) :
    readUnsigned num store path dtype = readUnsigned num store' path dtype := by
  rw [readUnsigned, readUnsigned, openFile_congr h]

/-- A codebook depends on its file alone. -/
theorem readCodebook_congr [Ring α] (h : store path = store' path) (groupSize : ℕ) (dtype : CodebookDtype) :
    readCodebook num store path groupSize dtype = readCodebook num store' path groupSize dtype := by
  cases dtype with
  | float16 => simp only [readCodebook, readFloats_congr num h]
  | float32 => simp only [readCodebook, readFloats_congr num h]
  | int8 => simp only [readCodebook, readInt8, openFile_congr h]

/-- A vector depends on its file alone. -/
theorem readFloatVector_congr (h : store path = store' path) (count : ℕ) (dtype : FloatDtype) :
    readFloatVector num store path count dtype = readFloatVector num store' path count dtype := by
  rw [readFloatVector, readFloatVector, readFloats_congr num h]

/-- Packed indices depend on their file alone. -/
theorem readIndices_congr (h : store path = store' path) (indexBits count : ℕ) (packed : Bool) (encoding : Encoding) :
    readIndices num store path indexBits count packed encoding =
      readIndices num store' path indexBits count packed encoding := by
  rw [readIndices, readIndices, openFile_congr h]

/-- A stage depends on its two files alone. -/
theorem readStageArrays_congr [Ring α] {stage : StageMeta} (hc : store stage.codebook = store' stage.codebook)
    (hi : store stage.indices = store' stage.indices) (groupSize paddedValues : ℕ) :
    readStageArrays num store stage groupSize paddedValues = readStageArrays num store' stage groupSize paddedValues := by
  simp only [readStageArrays, readCodebook_congr num hc, readIndices_congr num hi]

/-- The outliers depend on their two files alone. -/
theorem readOutliersOf_congr {o : OutlierMeta} (hp : store o.positions = store' o.positions)
    (hv : store o.values = store' o.values) : readOutliersOf num store o = readOutliersOf num store' o := by
  simp only [readOutliersOf, readOutliers, readUnsigned_congr num hp, readFloatVector_congr num hv]

/-- The pillars depend on their two files alone. -/
theorem readPillarsOf_congr {p : PillarMeta} (hp : store p.positions = store' p.positions)
    (hv : store p.values = store' p.values) : readPillarsOf num store p = readPillarsOf num store' p := by
  simp only [readPillarsOf, readPillars, readUnsigned_congr num hp, readFloats_congr num hv]

/-- The salient values depend on their two files alone. -/
theorem readSalientOf_congr {s : SalientMeta} (hi : store s.indices = store' s.indices)
    (hw : store s.weights = store' s.weights) : readSalientOf num store s = readSalientOf num store' s := by
  simp only [readSalientOf, readSalient, readUnsigned_congr num hi, readFloatVector_congr num hw]

/-- A correction depends on its two files alone. -/
theorem readLowrank_congr {l : LowrankMeta} (ha : store l.a = store' l.a) (hb : store l.b = store' l.b) :
    readLowrank num store l = readLowrank num store' l := by
  simp only [readLowrank, readFloats_congr num ha, readFloats_congr num hb]

end FrameAux

section Decode

open FrameAux Steps

variable {α : Type} [Field α] (num : Numerics α) {store store' : Store α} {tm : TensorMeta}

/-- **The frame of the decoder**: it depends on the files the entry names and on no other. -/
theorem decodeTensor_congr (h : ∀ p ∈ tm.reads, store p = store' p) :
    decodeTensor num store tm = decodeTensor num store' tm := by
  have side : ∀ p ∈ tm.sidecarPaths, store p = store' p := fun p hp => h p (List.mem_append_right _ hp)
  simp only [TensorMeta.sidecarPaths, List.mem_append, or_imp, forall_and] at side
  obtain ⟨⟨⟨⟨⟨hscales, hawq⟩, houtl⟩, hpill⟩, hsal⟩, hlow⟩ := side
  have stages : decodeStages num store tm = decodeStages num store' tm := by
    have hstage : ∀ s ∈ resolveStages tm, store s.codebook = store' s.codebook ∧ store s.indices = store' s.indices :=
      fun s hs => ⟨h _ (List.mem_append_left _ (List.mem_flatMap.2 ⟨s, hs, by simp⟩)),
        h _ (List.mem_append_left _ (List.mem_flatMap.2 ⟨s, hs, by simp⟩))⟩
    simp only [decodeStages]
    split
    · rfl
    · refine foldlM_congr (fun s hs acc => ?_) _
      rw [readStageArrays_congr num (hstage s hs).1 (hstage s hs).2]
  have outl : ∀ x, decodeOutliers num store tm x = decodeOutliers num store' tm x := by
    intro x
    cases ho : tm.outliers with
    | none => simp only [decodeOutliers, ho]
    | some o => simp only [decodeOutliers, ho, readOutliersOf_congr num (houtl o.positions (by simp [ho]))
        (houtl o.values (by simp [ho]))]
  have pill : ∀ x, decodePillars num store tm x = decodePillars num store' tm x := by
    intro x
    cases hp : tm.pillars with
    | none => simp only [decodePillars, hp]
    | some p => simp only [decodePillars, hp, readPillarsOf_congr num (hpill p.positions (by simp [hp]))
        (hpill p.values (by simp [hp]))]
  have rs : readScales num store tm = readScales num store' tm := by
    cases hs : tm.scales with
    | none => simp only [readScales, hs]
    | some p => simp only [readScales, hs, readFloatVector_congr num (hscales p (by simp [hs]))]
  have scales : ∀ x, decodeScales num store tm x = decodeScales num store' tm x := by
    intro x
    cases ha : tm.awqColScales with
    | none => simp only [decodeScales, rs, ha]
    | some a => simp only [decodeScales, rs, ha, readAwqColScales, readFloatVector_congr num (hawq a.path (by simp [ha]))]
  have sal : ∀ x, decodeSalient num store tm x = decodeSalient num store' tm x := by
    intro x
    cases hs : tm.salient with
    | none => simp only [decodeSalient, hs]
    | some s => simp only [decodeSalient, hs, readSalientOf_congr num (hsal s.indices (by simp [hs]))
        (hsal s.weights (by simp [hs]))]
  have low : ∀ x, decodeLowrank num store tm x = decodeLowrank num store' tm x := by
    intro x
    cases hl : tm.lowrank with
    | none => simp only [decodeLowrank, hl]
    | some l => simp only [decodeLowrank, hl, readLowrank_congr num (hlow l.a (by simp [hl])) (hlow l.b (by simp [hl]))]
  simp only [decodeTensor, stages, outl, pill, scales, sal, low]

end Decode

end Orka
