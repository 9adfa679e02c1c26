import Orka.Artifact
import Orka.Lemmas.Verify

/-!
# What the gate lets through

The gate reads the codebooks, the index streams and the scales. An artifact that passes it can be decoded exactly if the rest of its
files are intact, the index values among them.
-/

namespace Orka

open Flat Steps

namespace Readers

variable {α : Type} (r : Readers α)

/-- Without a limit every tensor is checked. -/
theorem scan_none (tensors : List TensorMeta) (checked : ℕ) (problems : List GateProblem) :
    (r.scan none tensors checked problems).2 = problems ++ tensors.flatMap fun tm => r.stageProblems tm ++ r.scaleProblems tm := by
  induction tensors generalizing checked problems with
  | nil => simp [scan]
  | cons tm tensors ih =>
    rw [scan, List.flatMap_cons]
    simp only [Option.any_none, Bool.false_eq_true, if_false]
    rw [ih, List.append_assoc, List.append_assoc, List.append_assoc]

/-- A tensor's stages have no problem exactly when they read. -/
theorem stageProblems_eq_nil {tm : TensorMeta} :
    r.stageProblems tm = [] ↔ ∀ stage ∈ resolveStages tm, ∃ w, r.stageArrays stage tm.groupSize (gatePadded tm) = .ok w := by
  unfold stageProblems
  rw [List.filterMap_eq_nil_iff]
  refine forall₂_congr fun stage _ => ?_
  cases r.stageArrays stage tm.groupSize (gatePadded tm) with
  | ok w => exact ⟨fun _ => ⟨w, rfl⟩, fun _ => rfl⟩
  | error exc => exact ⟨nofun, nofun⟩

/-- Scales without a problem read. -/
theorem scales_of_scaleProblems {tm : TensorMeta} (h : r.scaleProblems tm = []) {path : String} (hpath : tm.scales = some path)
    (hne : path ≠ "") : ∃ scales, r.scales tm = .ok scales := by
  unfold scaleProblems at h
  unfold scales
  simp only [hpath, if_neg hne] at h ⊢
  split at h
  · next scales hread => exact ⟨scales, hread⟩
  · cases h

/-- The gate's padded count is the entry's where it covers the values. -/
theorem gatePadded_eq {tm : TensorMeta} (h : tm.packedValues ≤ tm.paddedValues) : gatePadded tm = tm.paddedValues := by
  unfold gatePadded
  split <;> omega

end Readers

/-! ## What is written -/

section Written

variable {α : Type} [Field α] [LinearOrder α] [FloorRing α] {cfg : PackConfig} {t : PackedTensor α}

/-- The sizes of a tensor that has been grouped and quantized. -/
structure PackedTensor.Fits (t : PackedTensor α) : Prop where
  group_pos : 0 < t.groupSize
  group_dvd : t.groupSize ∣ t.paddedValues
  packed_le : t.packedValues ≤ t.paddedValues
  shape : t.shape ≠ []
  packed_le_shape : t.packedValues ≤ t.shape.prod
  widths : ∀ stage ∈ t.stages, stage.groupSize = t.groupSize ∨ stage.groupSize = 1
  hadamard : t.rotation = .hadamard →
    0 < t.shape.tail.prod ∧ ∃ b, hadamardBlockSize t.shape.tail.prod hadamardMinBlock = .ok b

/-- A normalized tensor has a file of scales. -/
theorem persistScales_path {side : List (String × File α) × Option String × ℕ × Option FloatDtype}
    (h : persistScales cfg t = .ok side) (hn : t.normalization ≠ .none) : ∃ path, side.2.1 = some path ∧ path ≠ "" := by
  have hfile : ∃ file, scaleFile t.normalization = some file := by
    revert hn
    cases t.normalization <;> simp [scaleFile, storesBlockScales]
  obtain ⟨file, hfile⟩ := hfile
  unfold persistScales at h
  simp only [hfile] at h
  split at h
  · cases h
  · obtain rfl := Except.ok.inj h
    refine ⟨_, rfl, fun hempty => ?_⟩
    have hlength := congrArg String.length hempty
    simp [PackedTensor.path, tensorPath, String.length_append] at hlength

/-- The entries that are written are such entries. -/
theorem writtenEntry_of_finalize {compress : List ℕ → List ℕ} {f : Finalized α} (ht : t.Fits)
    (h : finalizeTensorManifestEntry cfg t compress = .ok f) : WrittenEntry f.entry := by
  obtain ⟨side, hside, h⟩ := bind_eq_ok.1 h
  obtain ⟨entry, hentry, rfl⟩ := map_eq_ok.1 h
  obtain ⟨scales, hscales, hside⟩ := bind_eq_ok.1 hside
  obtain ⟨salient, -, rfl⟩ := map_eq_ok.1 hside
  unfold buildTensorManifestEntry at hentry
  split at hentry
  · cases hentry
  · next first rest hstages =>
    obtain rfl := Except.ok.inj hentry
    refine ⟨ht.group_pos, ht.group_dvd, ht.packed_le, ht.shape, ht.packed_le_shape, fun stage hs => ?_, rfl,
      fun hn => persistScales_path hscales hn, ht.hadamard⟩
    change stage ∈ first :: rest at hs
    rw [← hstages] at hs
    obtain ⟨⟨result, i⟩, hresult, rfl⟩ := List.mem_map.1 hs
    exact ht.widths result (List.mem_of_mem_take (List.fst_mem_of_mem_zipIdx hresult))

end Written

/-! ## What passes -/

section Gate

variable {α : Type} [Field α] [LinearOrder α] [IsStrictOrderedRing α] [FloorRing α]
variable {codec : Codec α} {artifact : RawArtifact} {tensors : List TensorMeta}

omit [LinearOrder α] [IsStrictOrderedRing α] [FloorRing α] in
/-- An artifact that passes has no problem with any tensor. -/
theorem problems_of_ok (hmanifest : artifact.manifest = some tensors) (hok : (verifyArtifact codec artifact none).ok = true)
    {tm : TensorMeta} (htm : tm ∈ tensors) :
    (fileReaders codec artifact.files).stageProblems tm = [] ∧ (fileReaders codec artifact.files).scaleProblems tm = [] := by
  unfold verifyArtifact at hok
  simp only [hmanifest, List.isEmpty_iff, List.append_eq_nil_iff, Readers.scan_none, List.nil_append,
    List.flatMap_eq_nil_iff] at hok
  exact hok.1 tm htm

/-- **The gate.** An artifact that passes is decoded, every entry of it, exactly if the files are intact: the index values name
rows, the outlier, salient and low-rank files have the sizes and ranges of their entries, and the values and scales fill the
shape. -/
theorem verified_decodes_iff (num : Numerics α) (hmanifest : artifact.manifest = some tensors)
    (hwritten : ∀ tm ∈ tensors, WrittenEntry tm) (hok : (verifyArtifact codec artifact none).ok = true) :
    (∀ tm ∈ tensors, ∃ values, (fileReaders codec artifact.files).decodeTensor num tm = .ok values) ↔
      ∀ tm ∈ tensors, Intact codec artifact.files tm := by
  refine forall₂_congr fun tm htm => ?_
  have hw := hwritten tm htm
  obtain ⟨hstages, hscales⟩ := problems_of_ok hmanifest hok htm
  rw [Readers.stageProblems_eq_nil, Readers.gatePadded_eq hw.packed_le] at hstages
  refine exists_decodeTensor_iff hw hstages fun hn => ?_
  obtain ⟨path, hpath, hne⟩ := hw.scales hn
  exact Readers.scales_of_scaleProblems _ hscales hpath hne

end Gate

/-- The floats of bytes that are zero. -/
def zeroFloats : Codec ℚ where
  decompress _ := .error (.valueError "incorrect header check")
  float _ _ := 0

/-- A tensor of one value on a codebook of one row. -/
def oneValue : PackedTensor ℚ :=
  { name := "w", shape := [1, 1], sourceFlat := [0], packedValues := 1, paddedValues := 1, vectors := [[0]],
    rowScales := none, awqColScales := none, salientWeights := none, salientIndices := none, normalization := .none,
    blockScaleSize := none, rotationSeed := none, rotation := .none, groupSize := 1, family := "other",
    stages := [⟨.floats .float32 [0], 1, .float32, 8, [0], 1⟩], refinement := .none, outliers := [] }

/-- Its entry. -/
def oneValueEntry : TensorMeta :=
  { name := "w", shape := [1, 1], packedValues := 1, paddedValues := 1, groupSize := 1
    stages := [{ codebook := "tensors/w.codebook.f32", codebookSize := 1, codebookDtype := some .float32, indexBits := 8
                 packed := some false, encoding := some .raw, indices := "tensors/w.indices", groupSize := some 1 }]
    codebook := "tensors/w.codebook.f32", codebookSize := 1, indexBits := 8, indices := "tensors/w.indices"
    normalization := some .none, rotation := some .none }

/-- Its artifact with this byte for its index. -/
def oneValueArtifact (index : ℕ) : RawArtifact where
  manifest := some [oneValueEntry]
  files path := if path = "tensors/w.codebook.f32" then some [0, 0, 0, 0]
    else if path = "tensors/w.indices" then some [index] else none

/-- The floats of bytes as their first bytes. -/
def firstByte : Codec ℚ where
  decompress _ := .error (.valueError "incorrect header check")
  float _ bytes := (bytes.headD 0 : ℚ)

/-- An entry of three values on a codebook of two rows, with an outlier. -/
def spikeEntry : TensorMeta :=
  { name := "w", shape := [1, 3], packedValues := 3, paddedValues := 3, groupSize := 1
    stages := [{ codebook := "tensors/w.codebook.f32", codebookSize := 2, codebookDtype := some .float32, indexBits := 8
                 packed := some false, encoding := some .raw, indices := "tensors/w.indices", groupSize := some 1 }]
    codebook := "tensors/w.codebook.f32", codebookSize := 2, indexBits := 8, indices := "tensors/w.indices"
    normalization := some .none, rotation := some .none
    outliers := some ⟨1, "tensors/w.outlier_positions", "tensors/w.outlier_values", some .uint8, some .float32⟩ }

def spikeArtifact : RawArtifact where
  manifest := some [spikeEntry]
  files path := if path = "tensors/w.codebook.f32" then some [5, 0, 0, 0, 6, 0, 0, 0]
    else if path = "tensors/w.indices" then some [0, 1, 0]
    else if path = "tensors/w.outlier_positions" then some [0, 2]
    else if path = "tensors/w.outlier_values" then some [0, 9, 0, 0, 0] else none

/-- It passes and is decoded, so its files are intact. -/
theorem verified_decodes_iff_spike :
    (fileReaders firstByte spikeArtifact.files).decodeTensor rationalNumerics spikeEntry = .ok [5, 6, 9] ∧
      Intact firstByte spikeArtifact.files spikeEntry := by
  have hdecoded : (fileReaders firstByte spikeArtifact.files).decodeTensor rationalNumerics spikeEntry = .ok [5, 6, 9] := by
    decide +kernel
  have hwritten : WrittenEntry spikeEntry :=
    ⟨by decide, by decide, by decide, by decide, by decide, by decide, rfl, fun h => absurd rfl h, nofun⟩
  have hok : (verifyArtifact firstByte spikeArtifact none).ok = true := by decide +kernel
  have hintact := (verified_decodes_iff rationalNumerics rfl (List.forall_mem_singleton.2 hwritten) hok).1
    (List.forall_mem_singleton.2 ⟨_, hdecoded⟩)
  exact ⟨hdecoded, List.forall_mem_singleton.1 hintact⟩

/-- With a `5` in place of its index byte the artifact still passes, and the gather fails. -/
theorem verified_not_decoded :
    (finalizeTensorManifestEntry ⟨.perTensor, 1, 32⟩ oneValue id).map Finalized.entry = .ok oneValueEntry ∧
      (verifyArtifact zeroFloats (oneValueArtifact 5) none).ok = true ∧
        (fileReaders zeroFloats (oneValueArtifact 5).files).decodeTensor rationalNumerics oneValueEntry = .error .indexError := by
  refine ⟨?_, ?_, ?_⟩
  · decide +kernel
  · decide +kernel
  · decide +kernel

end Orka
