import Orka.Lemmas.IndexStream
import Orka.Theorems.Verify

/-!
# Index files of another length

What the reader of an index stream says of a file that is not as long as its stage implies. A byte-aligned stream is compared with
the count; of a bit-packed one only the bytes of the count are sliced, so a longer file is read like one that has the right length.
-/

namespace Orka

open Flat Steps BitStream IndexStreamAux

/-! ## Bit-packed streams -/

/-- A chunk has its bits exactly if the bytes up to its last bit are there. -/
theorem chunk_bits_iff {raw : List ℕ} {bits i j : ℕ} (h8 : 8 ∣ i) (hij : i < j) :
    ((unpackBytes (slice raw (i * bits / 8) ((j * bits + 7) / 8))).take ((j - i) * bits)).length = (j - i) * bits ↔
      ceilDiv (j * bits) 8 ≤ raw.length := by
  obtain ⟨q, rfl⟩ := h8
  have hlo : 8 * q * bits / 8 = q * bits := by rw [Nat.mul_assoc, Nat.mul_div_cancel_left _ (by decide)]
  have hsub : (j - 8 * q) * bits = j * bits - 8 * (q * bits) := by rw [Nat.sub_mul, Nat.mul_assoc]
  have hle : 8 * (q * bits) ≤ j * bits := by
    rw [← Nat.mul_assoc]
    exact Nat.mul_le_mul_right bits hij.le
  have hsome : 0 < j * bits → 8 * (q * bits) < j * bits := fun h => by
    rw [← Nat.mul_assoc]
    exact Nat.mul_lt_mul_of_pos_right hij (Nat.pos_of_mul_pos_left h)
  rw [hlo, hsub, List.length_take, length_unpackBytes, slice, List.length_take, List.length_drop]
  unfold ceilDiv
  omega

/-- The unpacking loop, from chunk `k` on, returns exactly if the chunks that are left have their bits. -/
theorem exists_unpackLoop_iff {raw : List ℕ} {bits count c : ℕ} (hc : 0 < c) (h8 : 8 ∣ c) (m : ℕ) :
    ∀ (k : ℕ) (out : List ℤ), k + m = ceilDiv count c → out.length = count →
      ((∃ r, unpackLoop raw bits count c ((List.range' k m).map (· * c)) out = .ok r) ↔
        ∀ k' ∈ List.range' k m, ceilDiv (min (k' * c + c) count * bits) 8 ≤ raw.length) := by
  induction m with
  | zero => exact fun k out _ _ => ⟨fun _ => List.forall_mem_nil _, fun _ => ⟨out, rfl⟩⟩
  | succ m ih =>
    intro k out hk hlen
    have hkc : k * c < count := mul_lt_of_lt_ceilDiv hc (by omega)
    have hbits := @chunk_bits_iff raw bits _ _ (Dvd.dvd.mul_left h8 k) (show k * c < min (k * c + c) count by omega)
    rw [List.range'_succ, List.map_cons, unpackLoop, List.forall_mem_cons, ← hbits]
    by_cases hfull : ((unpackBytes (slice raw (k * c * bits / 8) ((min (k * c + c) count * bits + 7) / 8))).take
        ((min (k * c + c) count - k * c) * bits)).length = (min (k * c + c) count - k * c) * bits
    · rw [reshape_ok hfull, ok_bind, setSlice_ok (by omega) (by rw [List.length_map, length_rowsOf]) (by omega), ok_bind,
        ih (k + 1) _ (by omega)]
      · exact ⟨fun h => ⟨hfull, h⟩, And.right⟩
      · rw [List.length_append, List.length_append, List.length_take, List.length_drop, List.length_map, length_rowsOf]
        omega
    · rw [reshape, if_neg hfull]
      exact ⟨fun h => h.elim (fun r hr => by cases hr), fun h => absurd h.1 hfull⟩

/-- `_unpack_indices` returns exactly if the bytes of so many indices are there; further bytes are not looked at. -/
theorem exists_unpackIndices_iff {raw : List ℕ} {bits count c : ℕ} (hc : 0 < c) (h8 : 8 ∣ c) :
    (∃ r, unpackIndices raw bits count c = .ok r) ↔ ceilDiv (count * bits) 8 ≤ raw.length := by
  unfold unpackIndices
  by_cases hn : count = 0
  · subst hn
    rw [if_pos rfl, Nat.zero_mul]
    exact ⟨fun _ => Nat.zero_le _, fun _ => ⟨[], rfl⟩⟩
  · have hloop := @exists_unpackLoop_iff raw bits count c hc h8 (ceilDiv count c) 0 (List.replicate count 0) (by omega)
      List.length_replicate
    rw [← List.range_eq_range'] at hloop
    rw [if_neg hn, pyRange_ok hc, ok_bind, hloop]
    constructor
    · intro h
      -- the last chunk ends at the count
      have hlast : count ≤ (ceilDiv count c - 1) * c + c := by
        have hpos : 0 < ceilDiv count c := Nat.div_pos (by omega) hc
        have hcover := le_ceilDiv_mul (n := count) hc
        rw [← Nat.succ_mul, Nat.succ_eq_add_one, Nat.sub_add_cancel hpos]
        exact hcover
      have hmem : ceilDiv count c - 1 ∈ List.range (ceilDiv count c) :=
        List.mem_range.2 (Nat.sub_lt (Nat.div_pos (by omega) hc) (by decide))
      have := h _ hmem
      rwa [Nat.min_eq_right hlast] at this
    · intro h k _
      refine le_trans ?_ h
      exact Nat.div_le_div_right (Nat.add_le_add_right (Nat.mul_le_mul_right bits (Nat.min_le_right _ _)) _)

/-! ## The files of a stage -/

section Stage

variable {α : Type} (codec : Codec α) (files : RawFiles)

/-- The bytes of an index stream, once decompressed. -/
def indexStream (stage : StageMeta) : Except PyErr (List ℕ) :=
  (readBytes files stage.indices).bind fun data =>
    match stage.encoding.getD .raw with
    | .raw => .ok data
    | .zlib => codec.decompress data

/-- The bytes that the width and the packed flag of a stage imply for so many indices. -/
def StageMeta.streamLength (stage : StageMeta) (count : ℕ) : Except PyErr ℕ :=
  if stage.packed.getD false then .ok (ceilDiv (count * stage.indexBits) 8)
  else (indexBitSpec stage.indexBits).map fun k => count * k

/-- The indices that the padded values of a tensor imply for a stage. -/
def TensorMeta.stageCount (tm : TensorMeta) (stage : StageMeta) : ℕ :=
  ceilDiv (Readers.gatePadded tm) (stage.groupSize.getD tm.groupSize)

/-- `_read_indices` on the files of a stage. -/
def readStageIndices (stage : StageMeta) (count : ℕ) : Except PyErr (List ℤ) :=
  rawIndices codec files stage.indices stage.indexBits count (stage.packed.getD false) (stage.encoding.getD .raw)

variable {codec files}

/-- A codebook of some bits has a row. -/
theorem indexBitSpec_pos {bits k : ℕ} (h : indexBitSpec bits = .ok k) : 0 < k := by
  unfold indexBitSpec at h
  split at h
  · cases h; decide
  split at h
  · cases h; decide
  split at h
  · cases h; decide
  split at h
  · cases h; decide
  · cases h

/-- The reader over the stream. -/
theorem readStageIndices_eq (stage : StageMeta) (count : ℕ) :
    readStageIndices codec files stage count = (indexStream codec files stage).bind fun data =>
      if stage.packed.getD false then unpackIndices data stage.indexBits count packChunkIndices
      else (indexBitSpec stage.indexBits).bind fun k => (wholeBuffer k (Nat.ofDigits 256) data).bind fun arr =>
        if arr.length ≠ count then
          .error (.valueError s!"index count mismatch for {stage.indices}: expected {count}, got {arr.length}")
        else .ok (arr.map toInt64) := by
  unfold readStageIndices rawIndices indexStream
  cases readBytes files stage.indices with
  | error exc => rfl
  | ok data => cases stage.encoding.getD .raw <;> rfl

/-- Once the stream is there, the reader returns exactly if the length is the implied one, or the stream is packed and longer. -/
theorem exists_readStageIndices_iff {stage : StageMeta} {count : ℕ} {data : List ℕ}
    (hdata : indexStream codec files stage = .ok data) :
    (∃ idxs, readStageIndices codec files stage count = .ok idxs) ↔
      stage.streamLength count = .ok data.length ∨
        stage.packed.getD false = true ∧ ceilDiv (count * stage.indexBits) 8 < data.length := by
  unfold StageMeta.streamLength
  rw [readStageIndices_eq, hdata, ok_bind]
  cases stage.packed.getD false with
  | true =>
    rw [if_pos rfl, if_pos rfl, exists_unpackIndices_iff (by decide) (by decide), Except.ok.injEq, le_iff_eq_or_lt]
    exact or_congr_right ⟨fun h => ⟨rfl, h⟩, And.right⟩
  | false =>
    rw [if_neg Bool.false_ne_true, if_neg Bool.false_ne_true]
    cases hk : indexBitSpec stage.indexBits with
    | error exc => exact ⟨nofun, fun h => h.elim nofun nofun⟩
    | ok k =>
      rw [ok_bind, ok_map, Except.ok.injEq]
      have hwhole := @wholeBuffer_count ℕ k count (Nat.ofDigits 256) data (indexBitSpec_pos hk)
      refine Iff.trans ?_ (hwhole.trans ⟨fun h => Or.inl h.symm, fun h => h.elim Eq.symm nofun⟩)
      constructor
      · rintro ⟨idxs, h⟩
        obtain ⟨arr, harr, h⟩ := bind_eq_ok.1 h
        split at h
        · cases h
        · next hlen => exact ⟨arr, harr, not_not.1 hlen⟩
      · rintro ⟨arr, harr, hlen⟩
        exact ⟨_, by rw [harr, ok_bind, if_neg (not_not.2 hlen)]⟩

end Stage

/-! ## The gate -/

section Gate

variable {α : Type} [Ring α] {codec : Codec α} {artifact : RawArtifact} {tensors : List TensorMeta}

/-- Without a limit every problem of a stage is among the problems. -/
theorem mem_problems {tm : TensorMeta} {p : GateProblem} (hmanifest : artifact.manifest = some tensors) (htm : tm ∈ tensors)
    (hp : p ∈ (fileReaders codec artifact.files).stageProblems tm) : p ∈ (verifyArtifact codec artifact none).problems := by
  unfold verifyArtifact
  simp only [hmanifest, Readers.scan_none, List.nil_append]
  exact List.mem_append_left _ (List.mem_flatMap.2 ⟨tm, htm, List.mem_append_left _ hp⟩)

/-- A problem found fails the artifact. -/
theorem not_ok_of_mem {p : GateProblem} (hp : p ∈ (verifyArtifact codec artifact none).problems) :
    (verifyArtifact codec artifact none).ok = false := by
  cases hm : artifact.manifest with
  | none => simp only [verifyArtifact, hm]
  | some tensors =>
    simp only [verifyArtifact, hm] at hp ⊢
    exact List.isEmpty_eq_false_iff.2 (List.ne_nil_of_mem hp)

/-- A stage whose indices cannot be read is a problem. -/
theorem stageProblem_of_readIndices_error {tm : TensorMeta} {stage : StageMeta} (hstage : stage ∈ resolveStages tm)
    (h : ∃ exc, readStageIndices codec artifact.files stage (tm.stageCount stage) = .error exc) :
    ∃ exc, ⟨tm.name, .stage stage, .raised exc⟩ ∈ (fileReaders codec artifact.files).stageProblems tm := by
  obtain ⟨exc, herror⟩ := h
  obtain ⟨exc', hread⟩ : ∃ exc', (fileReaders codec artifact.files).stageArrays stage tm.groupSize (Readers.gatePadded tm) =
      .error exc' := by
    unfold Readers.stageArrays
    simp only
    split
    · exact ⟨_, rfl⟩
    · cases (fileReaders codec artifact.files).readCodebook stage.codebook (stage.groupSize.getD tm.groupSize)
          (stage.codebookDtype.getD .float32) with
      | error e => exact ⟨e, rfl⟩
      | ok cb =>
        have hindices : (fileReaders codec artifact.files).readIndices stage.indices stage.indexBits
            (ceilDiv (Readers.gatePadded tm) (stage.groupSize.getD tm.groupSize)) (stage.packed.getD false)
            (stage.encoding.getD .raw) = .error exc := herror
        rw [ok_bind, hindices]
        exact ⟨exc, rfl⟩
  exact ⟨exc', List.mem_filterMap.2 ⟨stage, hstage, by rw [hread]⟩⟩

/-- The reader raises on the files of a stage, and the gate names the stage instead of letting the artifact pass. -/
def StageRefused (codec : Codec α) (artifact : RawArtifact) (tm : TensorMeta) (stage : StageMeta) : Prop :=
  (∃ exc, readStageIndices codec artifact.files stage (tm.stageCount stage) = .error exc) ∧
    (∃ exc, ⟨tm.name, .stage stage, .raised exc⟩ ∈ (verifyArtifact codec artifact none).problems) ∧
      (verifyArtifact codec artifact none).ok = false

/-- **Index files of another length.** A stage whose index file is not as long as its width, its packed flag and the padded values
imply is refused, except if it is bit-packed and its file is longer. -/
theorem stageRefused_iff (hmanifest : artifact.manifest = some tensors) {tm : TensorMeta} (htm : tm ∈ tensors) {stage : StageMeta}
    (hstage : stage ∈ resolveStages tm) {data : List ℕ} (hdata : indexStream codec artifact.files stage = .ok data)
    (hlen : stage.streamLength (tm.stageCount stage) ≠ .ok data.length) :
    StageRefused codec artifact tm stage ↔
      ¬(stage.packed.getD false = true ∧ ceilDiv (tm.stageCount stage * stage.indexBits) 8 < data.length) := by
  have hread : _ ↔ _ ∨ _ ∧ ceilDiv (tm.stageCount stage * stage.indexBits) 8 < data.length := exists_readStageIndices_iff hdata
  constructor
  · rintro ⟨⟨exc, herror⟩, -, -⟩ hlonger
    obtain ⟨idxs, hok⟩ := hread.2 (Or.inr hlonger)
    rw [herror] at hok
    cases hok
  · intro hnot
    have herror : ∃ exc, readStageIndices codec artifact.files stage (tm.stageCount stage) = .error exc := by
      cases hr : readStageIndices codec artifact.files stage (tm.stageCount stage) with
      | error exc => exact ⟨exc, rfl⟩
      | ok idxs => exact ((hread.1 ⟨idxs, hr⟩).elim hlen hnot).elim
    obtain ⟨exc, hp⟩ := stageProblem_of_readIndices_error hstage herror
    have hmem := mem_problems hmanifest htm hp
    exact ⟨herror, ⟨exc, hmem⟩, not_ok_of_mem hmem⟩

end Gate

/-- A tensor of two groups on a codebook of two rows, its indices packed at one bit. -/
def twoGroups : PackedTensor ℚ :=
  { oneValue with
    shape := [2, 1], sourceFlat := [0, 0], packedValues := 2, paddedValues := 2, vectors := [[0], [0]]
    stages := [⟨.floats .float32 [0, 0], 2, .float32, 1, [0, 1], 1⟩] }

/-- Its stage. -/
def twoGroupsStage : StageMeta :=
  { codebook := "tensors/w.codebook.f32", codebookSize := 2, codebookDtype := some .float32, indexBits := 1
    packed := some true, encoding := some .raw, indices := "tensors/w.indices", groupSize := some 1 }

/-- Its entry. -/
def twoGroupsEntry : TensorMeta :=
  { oneValueEntry with
    shape := [2, 1], packedValues := 2, paddedValues := 2, stages := [twoGroupsStage], codebookSize := 2, indexBits := 1 }

/-- Its artifact with these bytes for its index file. -/
def twoGroupsArtifact (indices : List ℕ) : RawArtifact where
  manifest := some [twoGroupsEntry]
  files path := if path = "tensors/w.codebook.f32" then some [0, 0, 0, 0, 0, 0, 0, 0]
    else if path = "tensors/w.indices" then some indices else none

/-- Two groups and an empty index file. -/
theorem stageRefused_iff_twoGroups :
    StageRefused zeroFloats (twoGroupsArtifact []) twoGroupsEntry twoGroupsStage ↔
      ¬(twoGroupsStage.packed.getD false = true ∧
        ceilDiv (twoGroupsEntry.stageCount twoGroupsStage * twoGroupsStage.indexBits) 8 < ([] : List ℕ).length) :=
  stageRefused_iff (show (twoGroupsArtifact []).manifest = some [twoGroupsEntry] from rfl) (by decide) (by decide)
    (by decide +kernel) (by decide +kernel)

/-- One byte holds both indices. With a second byte behind it the file has another length than its stage implies; it is read like
the one byte, and the artifact passes. -/
theorem longer_stream_passes :
    (finalizeTensorManifestEntry ⟨.perTensor, 1, 32⟩ twoGroups id).map Finalized.entry = .ok twoGroupsEntry ∧
      twoGroupsStage.streamLength (twoGroupsEntry.stageCount twoGroupsStage) = .ok 1 ∧
        indexStream zeroFloats (twoGroupsArtifact [64, 255]).files twoGroupsStage = .ok [64, 255] ∧
          readStageIndices zeroFloats (twoGroupsArtifact [64, 255]).files twoGroupsStage
              (twoGroupsEntry.stageCount twoGroupsStage) = .ok [0, 1] ∧
            (verifyArtifact zeroFloats (twoGroupsArtifact [64, 255]) none).ok = true := by
  refine ⟨?_, ?_, ?_, ?_, ?_⟩
  · decide +kernel
  · decide +kernel
  · decide +kernel
  · decide +kernel
  · decide +kernel

end Orka
