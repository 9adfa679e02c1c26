import Orka.Lemmas.Readers
import Orka.Lemmas.Rotate
import Orka.Verify

/-!
# When the decoder returns

Each step of the decoder over files of bytes: what it returns has the length of the values, and it returns exactly if the files it
reads are intact.
-/

namespace Orka

open Flat Steps

/-! ## Whole buffers -/

/-- A float value takes at least one byte. -/
theorem FloatDtype.size_pos (d : FloatDtype) : 0 < d.size := by cases d <;> decide

/-- An index takes at least one byte. -/
theorem UnsignedDtype.size_pos (d : UnsignedDtype) : 0 < d.size := by cases d <;> decide

/-- `fromfile` reads as many values as fit whole. -/
theorem length_fromFile {β : Type} (size : ℕ) (value : List ℕ → β) (data : List ℕ) :
    (fromFile size value data).length = data.length / size := by
  rw [fromFile, List.length_map, length_rowsOf]

/-- `frombuffer` reads a buffer of whole values and no other. -/
theorem wholeBuffer_eq_ok {β : Type} {size : ℕ} {value : List ℕ → β} {data : List ℕ} {arr : List β} :
    wholeBuffer size value data = .ok arr ↔ size ∣ data.length ∧ arr = fromFile size value data := by
  unfold wholeBuffer
  rw [Nat.dvd_iff_mod_eq_zero]
  split
  · next h => exact ⟨nofun, fun hok => absurd hok.1 h⟩
  · next h => exact ⟨fun hok => ⟨not_not.1 h, (Except.ok.inj hok).symm⟩, fun hok => by rw [hok.2]⟩

/-- A whole buffer of so many values. -/
theorem wholeBuffer_count {β : Type} {size count : ℕ} {value : List ℕ → β} {data : List ℕ} (hsize : 0 < size) :
    (∃ arr, wholeBuffer size value data = .ok arr ∧ arr.length = count) ↔ data.length = count * size := by
  constructor
  · rintro ⟨arr, harr, rfl⟩
    obtain ⟨hdvd, rfl⟩ := wholeBuffer_eq_ok.1 harr
    rw [length_fromFile, Nat.div_mul_cancel hdvd]
  · intro h
    refine ⟨_, wholeBuffer_eq_ok.2 ⟨⟨count, by rw [h, Nat.mul_comm]⟩, rfl⟩, ?_⟩
    rw [length_fromFile, h, Nat.mul_div_cancel _ hsize]

/-! ## The readers -/

section Readers

variable {α : Type} {codec : Codec α} {files : RawFiles}

/-- What `_read_raw_float_vector` returns has the length asked for. -/
theorem length_of_rawFloatVector {path : String} {count : ℕ} {dtype : FloatDtype} {arr : List α}
    (h : rawFloatVector codec files path count dtype = .ok arr) : arr.length = count := by
  obtain ⟨raw, -, h⟩ := bind_eq_ok.1 h
  obtain ⟨arr', -, h⟩ := bind_eq_ok.1 h
  split at h
  · cases h
  · next hlen =>
    obtain rfl := Except.ok.inj h
    exact not_not.1 hlen

/-- A float sidecar is read exactly when its file is there and holds enough bytes. -/
theorem exists_rawFloatVector_iff {path : String} {count : ℕ} {dtype : FloatDtype} :
    (∃ arr, rawFloatVector codec files path count dtype = .ok arr) ↔ FloatSidecar codec files path count dtype := by
  constructor
  · rintro ⟨arr, h⟩
    have hcount := length_of_rawFloatVector h
    obtain ⟨raw, hraw, h⟩ := bind_eq_ok.1 h
    obtain ⟨arr', harr, h⟩ := bind_eq_ok.1 h
    split at h
    · cases h
    · obtain rfl := Except.ok.inj h
      exact ⟨raw, hraw, (wholeBuffer_count dtype.size_pos).1 ⟨_, harr, hcount⟩⟩
  · rintro ⟨raw, hraw, hlen⟩
    obtain ⟨arr, harr, hcount⟩ : ∃ arr, wholeBuffer dtype.size (codec.float dtype) raw = .ok arr ∧ arr.length = count :=
      (wholeBuffer_count dtype.size_pos).2 hlen
    exact ⟨arr, by rw [rawFloatVector, hraw, ok_bind, harr, ok_bind, if_neg (not_not.2 hcount)]⟩

/-- What the outlier reader returns. -/
theorem rawOutliers_eq_ok {idxPath valPath : String} {count : ℕ} {positionDtype : UnsignedDtype} {valueDtype : FloatDtype}
    {positions : List ℤ} {values : List α} :
    rawOutliers codec files idxPath valPath count positionDtype valueDtype = .ok (positions, values) ↔
      ∃ raw, readBlob codec files idxPath = .ok raw ∧ raw.length = count * positionDtype.size ∧
        positions = outlierPositions positionDtype raw ∧ rawFloatVector codec files valPath count valueDtype = .ok values := by
  constructor
  · intro h
    obtain ⟨raw, hraw, h⟩ := bind_eq_ok.1 h
    obtain ⟨delta, hdelta, h⟩ := bind_eq_ok.1 h
    obtain ⟨values', hvalues, h⟩ := bind_eq_ok.1 h
    split at h
    · cases h
    · next hlen =>
      obtain ⟨rfl, rfl⟩ := Prod.mk.inj (Except.ok.inj h)
      have hcount : delta.length = count := (not_not.1 hlen).trans (length_of_rawFloatVector hvalues)
      refine ⟨raw, hraw, (wholeBuffer_count positionDtype.size_pos).1 ⟨delta, hdelta, hcount⟩, ?_, hvalues⟩
      rw [(wholeBuffer_eq_ok.1 hdelta).2]
      rfl
  · rintro ⟨raw, hraw, hlen, rfl, hvalues⟩
    obtain ⟨delta, hdelta, hcount⟩ : ∃ delta, wholeBuffer positionDtype.size (Nat.ofDigits 256) raw = .ok delta ∧
        delta.length = count := (wholeBuffer_count positionDtype.size_pos).2 hlen
    rw [rawOutliers, hraw, ok_bind, hdelta, ok_bind, hvalues, ok_bind, if_neg]
    · rw [(wholeBuffer_eq_ok.1 hdelta).2]
      rfl
    · rw [hcount, length_of_rawFloatVector hvalues]
      exact not_not.2 rfl

/-- Positions and values of the outliers come in equal number. -/
theorem length_of_rawOutliers {idxPath valPath : String} {count : ℕ} {positionDtype : UnsignedDtype} {valueDtype : FloatDtype}
    {positions : List ℤ} {values : List α}
    (h : rawOutliers codec files idxPath valPath count positionDtype valueDtype = .ok (positions, values)) :
    positions.length = values.length := by
  obtain ⟨raw, -, hlen, rfl, hvalues⟩ := rawOutliers_eq_ok.1 h
  rw [length_of_rawFloatVector hvalues, outlierPositions, List.length_map, cumsum, length_tabulate, length_fromFile, hlen,
    Nat.mul_div_cancel _ positionDtype.size_pos]

/-- As many indices are read as are asked for. -/
theorem length_of_rawIndices {path : String} {indexBits expectedCount : ℕ} {packed : Bool} {encoding : Encoding} {idxs : List ℤ}
    (h : rawIndices codec files path indexBits expectedCount packed encoding = .ok idxs) : idxs.length = expectedCount := by
  unfold rawIndices at h
  obtain ⟨data, -, h⟩ := bind_eq_ok.1 h
  obtain ⟨stream, -, h⟩ := bind_eq_ok.1 h
  cases packed with
  | true =>
    rw [if_pos rfl] at h
    exact length_of_unpackIndices h
  | false =>
    rw [if_neg Bool.false_ne_true] at h
    obtain ⟨k, -, h⟩ := bind_eq_ok.1 h
    obtain ⟨arr, -, h⟩ := bind_eq_ok.1 h
    split at h
    · cases h
    · next hlen =>
      obtain rfl := Except.ok.inj h
      rw [List.length_map]
      exact not_not.1 hlen

/-- The rows of a codebook have the width asked for. -/
theorem width_of_rawCodebook [Ring α] {path : String} {groupSize : ℕ} {dtype : CodebookDtype} {cb : List (List α)}
    (h : rawCodebook codec files path groupSize dtype = .ok cb) : ∀ row ∈ cb, row.length = groupSize := by
  obtain ⟨raw, -, h⟩ := bind_eq_ok.1 h
  cases dtype with
  | float16 => exact (reshapeAuto_inv h).2.2
  | float32 => exact (reshapeAuto_inv h).2.2
  | int8 =>
    obtain ⟨scales, hscales, h⟩ := bind_eq_ok.1 h
    obtain ⟨q, hq, h⟩ := bind_eq_ok.1 h
    obtain ⟨width, hwidth, rfl⟩ := map_eq_ok.1 h
    obtain ⟨hpos, hrows, -⟩ := reshapeAuto_inv hq
    intro row hrow
    obtain ⟨row', hrow', rfl⟩ := List.mem_map.1 hrow
    rw [length_tabulate]
    unfold broadcastDim at hwidth
    split at hwidth
    · exact (Except.ok.inj hwidth).symm
    split at hwidth
    · -- no scales at all: then the file has no rows
      next hne hone =>
      exfalso
      have hscale : scales.length = (raw.take (groupSize * 2)).length / 2 := by
        rw [(wholeBuffer_eq_ok.1 hscales).2, length_fromFile]
      have hmany : q.length * groupSize = raw.length - groupSize * 2 := by rw [hrows, List.length_map, List.length_drop]
      have hsome : 0 < q.length := List.length_pos_of_mem hrow'
      subst hone
      rw [List.length_take] at hscale
      omega
    · split at hwidth
      · exact (Except.ok.inj hwidth).symm
      · cases hwidth

end Readers

/-! ## The steps of the decoder -/

section Decode

set_option linter.unusedSectionVars false

variable {α : Type} [Field α] [LinearOrder α] [IsStrictOrderedRing α] [FloorRing α]
variable {codec : Codec α} {files : RawFiles} {tm : TensorMeta} {num : Numerics α} {x y : List α}

/-- What a stage reads: rows of the stage's width and one index for every group. -/
theorem stageArrays_sizes {stage : StageMeta} {groupSize paddedValues : ℕ} {cb : List (List α)} {idxs : List ℤ}
    (h : (fileReaders codec files).stageArrays stage groupSize paddedValues = .ok (cb, idxs)) :
    (∀ row ∈ cb, row.length = stage.groupSize.getD groupSize) ∧
      idxs.length = ceilDiv paddedValues (stage.groupSize.getD groupSize) := by
  unfold Readers.stageArrays at h
  simp only at h
  split at h
  · cases h
  · obtain ⟨cb', hcb, h⟩ := bind_eq_ok.1 h
    obtain ⟨idxs', hidxs, h⟩ := map_eq_ok.1 h
    obtain ⟨rfl, rfl⟩ := Prod.mk.inj h
    exact ⟨width_of_rawCodebook hcb, length_of_rawIndices hidxs⟩

/-- A stage whose files can be read is added exactly if its indices name rows. -/
theorem exists_addStage_iff (hw : WrittenEntry tm) {stage : StageMeta} (hs : stage ∈ resolveStages tm)
    (hread : ∃ w, (fileReaders codec files).stageArrays stage tm.groupSize tm.paddedValues = .ok w)
    (hx : x.length = tm.paddedValues) :
    (∃ y, (fileReaders codec files).addStage tm x stage = .ok y) ↔
      ∀ cb idxs, (fileReaders codec files).stageArrays stage tm.groupSize tm.paddedValues = .ok (cb, idxs) →
        ∀ i ∈ idxs, -(cb.length : ℤ) ≤ i ∧ i < cb.length := by
  obtain ⟨⟨cb, idxs⟩, hcb⟩ := hread
  obtain ⟨hwidth, hcount⟩ := stageArrays_sizes hcb
  have hsum : idxs.length * stage.groupSize.getD tm.groupSize = tm.paddedValues := by
    rw [hcount]
    rcases hw.widths stage hs with h | h
    · rw [h, ceilDiv_of_dvd hw.group_pos hw.group_dvd, Nat.div_mul_cancel hw.group_dvd]
    · rw [h, ceilDiv_one, Nat.mul_one]
  constructor
  · rintro ⟨y, h⟩ cb' idxs' hcb'
    obtain ⟨rfl, rfl⟩ := Prod.mk.inj (Except.ok.inj (hcb.symm.trans hcb'))
    unfold Readers.addStage at h
    rw [hcb, ok_bind] at h
    obtain ⟨rows, hrows, -⟩ := bind_eq_ok.1 h
    exact exists_takeRows_iff.1 ⟨rows, hrows⟩
  · intro hrange
    obtain ⟨rows, hrows⟩ := exists_takeRows_iff.2 (hrange cb idxs hcb)
    refine ⟨List.zipWith (· + ·) x rows.flatten, ?_⟩
    unfold Readers.addStage
    rw [hcb, ok_bind]
    simp only [hrows, ok_bind]
    unfold addInto
    rw [if_pos (by rw [length_of_takeRows hwidth hrows, hsum, hx])]

/-- Adding a stage keeps the length. -/
theorem length_of_addStage {stage : StageMeta} (h : (fileReaders codec files).addStage tm x stage = .ok y) :
    y.length = x.length := by
  obtain ⟨⟨cb, idxs⟩, -, h⟩ := bind_eq_ok.1 h
  obtain ⟨rows, -, h⟩ := bind_eq_ok.1 h
  exact length_of_addInto h

/-- The zeros the stages are added to cover the padded values. -/
theorem length_zeros (hw : WrittenEntry tm) :
    (List.replicate (ceilDiv tm.paddedValues tm.groupSize * tm.groupSize) (0 : α)).length = tm.paddedValues := by
  rw [List.length_replicate, ceilDiv_of_dvd hw.group_pos hw.group_dvd, Nat.div_mul_cancel hw.group_dvd]

/-- Stages that read add up exactly when every index names a row of its codebook. -/
theorem exists_sumStages_iff (hw : WrittenEntry tm) (hread : ∀ stage ∈ resolveStages tm,
    ∃ w, (fileReaders codec files).stageArrays stage tm.groupSize tm.paddedValues = .ok w) :
    (∃ y, (fileReaders codec files).sumStages tm = .ok y) ↔ IndicesInRange codec files tm := by
  unfold Readers.sumStages IndicesInRange
  rw [if_neg hw.group_pos.ne']
  refine exists_foldlM_iff (P := fun x : List α => x.length = tm.paddedValues) (fun stage hs a ha => ?_)
    (fun stage _ a b ha hb => (length_of_addStage hb).trans ha) (length_zeros hw)
  exact exists_addStage_iff hw hs (hread stage hs) ha

/-- The sum of the stages covers the padded values. -/
theorem length_of_sumStages (hw : WrittenEntry tm) (h : (fileReaders codec files).sumStages tm = .ok y) :
    y.length = tm.paddedValues := by
  unfold Readers.sumStages at h
  rw [if_neg hw.group_pos.ne'] at h
  exact foldlM_keeps (P := fun x : List α => x.length = tm.paddedValues)
    (fun stage _ a b ha hb => (length_of_addStage hb).trans ha) (length_zeros hw) h

/-- Values put at positions, if there are any. -/
theorem exists_put_iff {positions : List ℤ} {values : List α} (hlen : positions.length = values.length) :
    (∃ y, (if positions.isEmpty then .ok x else assignAt x positions values) = Except.ok y) ↔
      ∀ p ∈ positions, -(x.length : ℤ) ≤ p ∧ p < x.length := by
  cases positions with
  | nil => exact ⟨fun _ => List.forall_mem_nil _, fun _ => ⟨x, rfl⟩⟩
  | cons p ps => exact exists_assignAt_iff hlen

/-- A masked assignment keeps the length. -/
theorem length_of_put {positions : List ℤ} {values : List α}
    (h : (if positions.isEmpty then .ok x else assignAt x positions values) = Except.ok y) : y.length = x.length := by
  split at h
  · obtain rfl := Except.ok.inj h
    rfl
  · exact length_of_assignAt h

/-- The outliers go in exactly when their files read and their positions lie inside the tensor. -/
theorem exists_putOutliers_iff (hx : x.length = tm.packedValues) :
    (∃ y, (fileReaders codec files).putOutliers tm x = .ok y) ↔ OutliersIntact codec files tm := by
  unfold Readers.putOutliers OutliersIntact
  cases hm : tm.outliers with
  | none => exact ⟨fun _ _ => nofun, fun _ => ⟨x, rfl⟩⟩
  | some m =>
    constructor
    · rintro ⟨y, h⟩ m' hm'
      obtain rfl := Option.some.inj hm'
      obtain ⟨⟨positions, values⟩, hread, h⟩ := bind_eq_ok.1 h
      have hrange := (exists_put_iff (length_of_rawOutliers hread)).1 ⟨y, h⟩
      obtain ⟨raw, hraw, hlen, rfl, hvalues⟩ := rawOutliers_eq_ok.1 hread
      exact ⟨exists_rawFloatVector_iff.1 ⟨values, hvalues⟩, raw, hraw, hlen, hx ▸ hrange⟩
    · intro h
      obtain ⟨hvalues, raw, hraw, hlen, hrange⟩ := h m rfl
      obtain ⟨values, hvalues⟩ := exists_rawFloatVector_iff.2 hvalues
      have hread := rawOutliers_eq_ok.2 ⟨raw, hraw, hlen, rfl, hvalues⟩
      obtain ⟨y, hy⟩ := (exists_put_iff (x := x) (length_of_rawOutliers hread)).2 (hx ▸ hrange)
      refine ⟨y, ?_⟩
      change (rawOutliers _ _ _ _ _ _ _).bind _ = _
      rw [hread, ok_bind]
      exact hy

/-- Outliers replace values and add none. -/
theorem length_of_putOutliers (h : (fileReaders codec files).putOutliers tm x = .ok y) : y.length = x.length := by
  unfold Readers.putOutliers at h
  split at h
  · obtain rfl := Except.ok.inj h
    rfl
  · obtain ⟨⟨positions, values⟩, -, h⟩ := bind_eq_ok.1 h
    exact length_of_put h

/-! ### Rotation -/

/-- On a tensor that fills its shape every rotation can be undone. -/
theorem exists_unrotate (num : Numerics α) (hw : WrittenEntry tm) {rows : ℕ} {rest : List ℕ} (hshape : tm.shape = rows :: rest)
    (hx : x.length = rows * rest.prod) :
    ∃ y, unrotate num .numpy tm.rotationMode rows rest.prod tm.seed x = .ok y ∧ y.length = rows * rest.prod := by
  cases hr : tm.rotationMode with
  | none => exact ⟨_, rfl, length_tabulate _ _⟩
  | orthogonal => exact ⟨_, rfl, length_tabulate _ _⟩
  | hadamard =>
    obtain ⟨hpos, b, hb⟩ := hw.hadamard hr
    rw [hshape, List.tail_cons] at hpos hb
    obtain ⟨m, rfl, hdvd⟩ := RotateAux.hadamardBlockSize_spec hpos hb
    have hroom : rows * (rest.prod / 2 ^ m) * 2 ^ m ≤ x.length := by rw [RotateAux.length_blocks hdvd, hx]
    have hwidth := length_of_mem_rowsOf hroom
    refine ⟨_, by rw [unrotate, unrotateHadamard, hb]; exact RotateAux.blockFwht_ok num .numpy hdvd x, ?_⟩
    rw [length_flatten_of_width (RotateAux.width_fwht hwidth), List.length_map, length_rowsOf, RotateAux.length_blocks hdvd]

/-- A rotation is undone exactly on a tensor that fills its shape. -/
theorem exists_decodeRotation_iff (num : Numerics α) (hw : WrittenEntry tm) (hx : x.length = tm.packedValues) :
    (∃ y, decodeRotation num tm x = .ok y) ↔ (tm.rotationMode ≠ .none → tm.packedValues = tm.shape.prod) := by
  obtain ⟨rows, rest, hshape⟩ := List.exists_cons_of_ne_nil hw.shape
  have hprod : tm.shape.prod = rows * rest.prod := by rw [hshape, List.prod_cons]
  have hle : tm.packedValues ≤ rows * rest.prod := hprod ▸ hw.packed_le_shape
  have hunrotate : (∃ y, unrotateFlat num x tm.shape tm.rotationMode tm.seed = .ok y) ↔ tm.packedValues = tm.shape.prod := by
    unfold unrotateFlat
    rw [hshape, rowsCols, ok_bind, ← hshape, hprod]
    simp only [List.length_take, hx]
    constructor
    · rintro ⟨y, h⟩
      split at h
      · cases h
      · omega
    · intro hfull
      rw [if_neg (by omega)]
      obtain ⟨y, hy, -⟩ := exists_unrotate num (x := x.take (rows * rest.prod)) hw hshape
        (by rw [List.length_take, hx, hfull, Nat.min_self])
      exact ⟨y, hy⟩
  unfold decodeRotation
  split
  · next h => exact ⟨fun _ hne => absurd h hne, fun _ => ⟨x, rfl⟩⟩
  · next h => exact hunrotate.trans ⟨fun hfull _ => hfull, fun hfull => hfull h⟩

/-- Undoing the rotation keeps the length. -/
theorem length_of_decodeRotation (hw : WrittenEntry tm) (hx : x.length = tm.packedValues) (h : decodeRotation num tm x = .ok y) :
    y.length = tm.packedValues := by
  have hfull := (exists_decodeRotation_iff num hw hx).1 ⟨y, h⟩
  obtain ⟨rows, rest, hshape⟩ := List.exists_cons_of_ne_nil hw.shape
  unfold decodeRotation at h
  split at h
  · obtain rfl := Except.ok.inj h
    exact hx
  · next hr =>
    have hprod : tm.packedValues = rows * rest.prod := by rw [hfull hr, hshape, List.prod_cons]
    unfold unrotateFlat at h
    rw [hshape, rowsCols, ok_bind] at h
    simp only at h
    split at h
    · cases h
    · obtain ⟨z, hz, hlen⟩ := exists_unrotate num (x := x.take (rows * rest.prod)) hw hshape
        (by rw [List.length_take, hx, hprod, Nat.min_self])
      obtain rfl := Except.ok.inj (hz.symm.trans h)
      rw [hlen, hprod]

/-! ### Scales -/

/-- Column scales apply exactly when there is one for each column. -/
theorem exists_applyColScales_iff (hw : WrittenEntry tm) {scales : List α} (hx : x.length = tm.packedValues) :
    (∃ y, applyColScales .numpy x tm.shape scales = .ok y) ↔ ColumnsFit tm scales.length := by
  obtain ⟨rows, rest, hshape⟩ := List.exists_cons_of_ne_nil hw.shape
  have hle := hw.packed_le_shape
  unfold applyColScales applyColL2ScalesNumpy ColumnsFit
  rw [hshape, List.prod_cons] at hle ⊢
  simp only [rowsCols, ok_bind, List.length_take, hx, List.tail_cons]
  constructor
  · rintro ⟨y, h⟩
    split at h
    · cases h
    split at h
    · cases h
    · omega
  · rintro ⟨hfull, hcols⟩
    exact ⟨_, by rw [if_neg (by omega), if_neg (not_not.2 hcols)]⟩

/-- Column scales keep the length. -/
theorem length_of_applyColScales (hw : WrittenEntry tm) {scales : List α} (hx : x.length = tm.packedValues)
    (h : applyColScales .numpy x tm.shape scales = .ok y) : y.length = tm.packedValues := by
  obtain ⟨hfull, -⟩ := (exists_applyColScales_iff hw hx).1 ⟨y, h⟩
  obtain ⟨rows, rest, hshape⟩ := List.exists_cons_of_ne_nil hw.shape
  unfold applyColScales applyColL2ScalesNumpy at h
  rw [hshape, List.prod_cons] at hfull
  rw [hshape] at h
  simp only [rowsCols, ok_bind] at h
  split at h
  · cases h
  split at h
  · cases h
  · obtain rfl := Except.ok.inj h
    rw [scaleCols, length_tabulate, List.length_take, hx, hfull, Nat.min_self]

/-- Block scales apply exactly when there is one for each block. -/
theorem exists_applyBlockScales_iff {scales : List α} {blockSize : ℕ} (hb : 0 < blockSize) :
    (∃ y, applyBlockScales .numpy x scales blockSize = .ok y) ↔ scales.length = ceilDiv x.length blockSize := by
  have hblocks : (x ++ List.replicate (padding x.length blockSize) (0 : α)).length / blockSize = ceilDiv x.length blockSize := by
    rw [List.length_append, List.length_replicate, ← ceilDiv_mul hb, Nat.mul_div_cancel _ hb]
  unfold applyBlockScales applyBlockMaxScalesNumpy
  simp only [hblocks, if_neg hb.ne']
  constructor
  · rintro ⟨y, h⟩
    split at h
    · cases h
    · next hlen => exact not_not.1 hlen
  · intro hlen
    exact ⟨_, by rw [if_neg (not_not.2 hlen)]⟩

/-- Block scales keep the length. -/
theorem length_of_applyBlockScales {scales : List α} {blockSize : ℕ} (hb : 0 < blockSize)
    (h : applyBlockScales .numpy x scales blockSize = .ok y) : y.length = x.length := by
  have hcount := (exists_applyBlockScales_iff hb).1 ⟨y, h⟩
  unfold applyBlockScales applyBlockMaxScalesNumpy at h
  simp only [if_neg hb.ne'] at h
  split at h
  · cases h
  · obtain rfl := Except.ok.inj h
    have hpadded : scales.length * blockSize = (x ++ List.replicate (padding x.length blockSize) (0 : α)).length := by
      rw [hcount, ceilDiv_mul hb, List.length_append, List.length_replicate]
    rw [List.length_take, length_scaleRows hpadded.le, hpadded, List.length_append]
    omega

/-- The scales read are as many as the entry counts. -/
theorem length_of_scales {scales : List α} (h : (fileReaders codec files).scales tm = .ok scales) :
    scales.length = tm.scaleCount := by
  unfold Readers.scales at h
  split at h
  · cases h
  · exact length_of_rawFloatVector h

/-- The column scales that stand beside block scales. -/
theorem exists_awqColScales_iff (hw : WrittenEntry tm) (hx : x.length = tm.packedValues) :
    (∃ y, (match tm.awqColScales with
      | none => .ok x
      | some m => ((fileReaders codec files).readFloatVector m.path m.count (m.dtype.getD .float32)).bind fun scales =>
        applyColScales .numpy x tm.shape scales) = Except.ok y) ↔
      ∀ m, tm.awqColScales = some m →
        FloatSidecar codec files m.path m.count (m.dtype.getD .float32) ∧ ColumnsFit tm m.count := by
  cases hm : tm.awqColScales with
  | none => exact ⟨fun _ _ => nofun, fun _ => ⟨x, rfl⟩⟩
  | some m =>
    have hboth := exists_bind_iff (x := rawFloatVector codec files m.path m.count (m.dtype.getD .float32))
      (f := fun scales => applyColScales .numpy x tm.shape scales) (P := fun scales => scales.length = m.count)
      (fun scales hscales => length_of_rawFloatVector hscales)
      (fun scales hlen => hlen ▸ exists_applyColScales_iff hw hx)
    rw [exists_rawFloatVector_iff] at hboth
    refine hboth.trans ⟨fun h m' hm' => ?_, fun h => h m rfl⟩
    obtain rfl := Option.some.inj hm'
    exact h

/-- With scales that read, applying them succeeds exactly when they fit the shape. -/
theorem exists_applyScales_iff (hw : WrittenEntry tm)
    (hread : tm.normalizationMode ≠ .none → ∃ scales, (fileReaders codec files).scales tm = .ok scales)
    (hx : x.length = tm.packedValues) :
    (∃ y, (fileReaders codec files).applyScales tm x = .ok y) ↔ ScalesFit codec files tm := by
  have hpos := tm.blockSize_pos
  unfold Readers.applyScales ScalesFit
  cases hn : tm.normalizationMode with
  | none => exact ⟨fun _ => trivial, fun _ => ⟨x, rfl⟩⟩
  | awq =>
    obtain ⟨scales, hscales⟩ := hread (by rw [hn]; nofun)
    simp only [hscales, ok_bind]
    rw [exists_applyColScales_iff hw hx, length_of_scales hscales]
  | blockMax | channelBlockMax | slrqBlock =>
    obtain ⟨scales, hscales⟩ := hread (by rw [hn]; nofun)
    simp only [hscales, ok_bind]
    rw [exists_applyBlockScales_iff hpos, length_of_scales hscales, hx]
  | awqBlockMax =>
    obtain ⟨scales, hscales⟩ := hread (by rw [hn]; nofun)
    simp only [hscales, ok_bind]
    rw [← hx, ← length_of_scales hscales, ← exists_applyBlockScales_iff hpos]
    exact exists_bind_iff (P := fun y => y.length = tm.packedValues)
      (fun y hy => (length_of_applyBlockScales hpos hy).trans hx) fun y hy => exists_awqColScales_iff hw hy

/-- Applying the scales keeps the length. -/
theorem length_of_applyScales (hw : WrittenEntry tm) (hx : x.length = tm.packedValues)
    (h : (fileReaders codec files).applyScales tm x = .ok y) : y.length = tm.packedValues := by
  have hpos := tm.blockSize_pos
  unfold Readers.applyScales at h
  split at h
  · obtain rfl := Except.ok.inj h
    exact hx
  · obtain ⟨scales, -, h⟩ := bind_eq_ok.1 h
    exact length_of_applyColScales hw hx h
  any_goals
    obtain ⟨scales, -, h⟩ := bind_eq_ok.1 h
    exact (length_of_applyBlockScales hpos h).trans hx
  · obtain ⟨scales, -, h⟩ := bind_eq_ok.1 h
    obtain ⟨z, hz, h⟩ := bind_eq_ok.1 h
    have hz := (length_of_applyBlockScales hpos hz).trans hx
    split at h
    · obtain rfl := Except.ok.inj h
      exact hz
    · obtain ⟨cols, -, h⟩ := bind_eq_ok.1 h
      exact length_of_applyColScales hw hz h

/-! ### Salient values -/

/-- The salient sidecar read step by step. -/
theorem rawSalient_eq_ok {idxPath valPath : String} {count bits : ℕ} {dtype : FloatDtype} {sIdx : List ℤ} {sVal : List α} :
    rawSalient codec files idxPath valPath count bits dtype = .ok (sIdx, sVal) ↔
      ∃ raw, readBlob codec files idxPath = .ok raw ∧ unpackIndices raw bits count packChunkIndices = .ok sIdx ∧
        rawFloatVector codec files valPath count dtype = .ok sVal := by
  constructor
  · intro h
    obtain ⟨raw, hraw, h⟩ := bind_eq_ok.1 h
    obtain ⟨sIdx', hidx, h⟩ := bind_eq_ok.1 h
    obtain ⟨sVal', hval, h⟩ := map_eq_ok.1 h
    obtain ⟨rfl, rfl⟩ := Prod.mk.inj h
    exact ⟨raw, hraw, hidx, hval⟩
  · rintro ⟨raw, hraw, hidx, hval⟩
    rw [rawSalient, hraw, ok_bind, hidx, ok_bind, hval, ok_map]

/-- Positions past the end are left out, so only those before the start are refused. -/
theorem exists_inject_iff {sIdx : List ℤ} {sVal : List α} {blockSize : ℕ} (hlen : sIdx.length = sVal.length) :
    (∃ y, (if sIdx.isEmpty then .ok x else injectSalient x sIdx sVal blockSize) = Except.ok y) ↔
      ∀ p ∈ salientPositions blockSize sIdx, -(x.length : ℤ) ≤ p := by
  have hpositions : (salientPositions blockSize sIdx).length = sVal.length := by rw [salientPositions, length_tabulate, hlen]
  cases sIdx with
  | nil => exact ⟨fun _ => List.forall_mem_nil _, fun _ => ⟨x, rfl⟩⟩
  | cons i is =>
    have hput : injectSalient x (i :: is) sVal blockSize = assignAt x
        ((((salientPositions blockSize (i :: is)).zip sVal).filter fun w => decide (w.1 < (x.length : ℤ))).map Prod.fst)
        ((((salientPositions blockSize (i :: is)).zip sVal).filter fun w => decide (w.1 < (x.length : ℤ))).map Prod.snd) := by
      rw [injectSalient, if_neg (not_not.2 hlen)]
    rw [List.isEmpty_cons, if_neg Bool.false_ne_true, hput, exists_assignAt_iff (by rw [List.length_map, List.length_map])]
    constructor
    · intro h p hp
      by_cases hlt : p < x.length
      · have hfst : ((salientPositions blockSize (i :: is)).zip sVal).map Prod.fst = salientPositions blockSize (i :: is) :=
          List.map_fst_zip hpositions.le
        rw [← hfst] at hp
        obtain ⟨w, hw, rfl⟩ := List.mem_map.1 hp
        exact (h w.1 (List.mem_map_of_mem (List.mem_filter.2 ⟨hw, by simpa using hlt⟩))).1
      · omega
    · intro h p hp
      obtain ⟨w, hw, rfl⟩ := List.mem_map.1 hp
      obtain ⟨hzip, hlt⟩ := List.mem_filter.1 hw
      exact ⟨h w.1 (List.of_mem_zip hzip).1, by simpa using hlt⟩

/-- The salient values go in exactly when their files read and their positions lie inside the tensor. -/
theorem exists_putSalient_iff (hx : x.length = tm.packedValues) :
    (∃ y, (fileReaders codec files).putSalient tm x = .ok y) ↔ SalientIntact codec files tm := by
  unfold Readers.putSalient SalientIntact
  cases hm : tm.salient with
  | none => exact ⟨fun _ _ => nofun, fun _ => ⟨x, rfl⟩⟩
  | some m =>
    constructor
    · rintro ⟨y, h⟩ m' hm'
      obtain rfl := Option.some.inj hm'
      obtain ⟨⟨sIdx, sVal⟩, hread, h⟩ := bind_eq_ok.1 h
      obtain ⟨raw, hraw, hidx, hval⟩ := rawSalient_eq_ok.1 hread
      have hlen := (length_of_unpackIndices hidx).trans (length_of_rawFloatVector hval).symm
      exact ⟨exists_rawFloatVector_iff.1 ⟨sVal, hval⟩, raw, sIdx, hraw, hidx, hx ▸ (exists_inject_iff hlen).1 ⟨y, h⟩⟩
    · intro h
      obtain ⟨hval, raw, sIdx, hraw, hidx, hrange⟩ := h m rfl
      obtain ⟨sVal, hval⟩ := exists_rawFloatVector_iff.2 hval
      have hlen := (length_of_unpackIndices hidx).trans (length_of_rawFloatVector hval).symm
      obtain ⟨y, hy⟩ := (exists_inject_iff (x := x) hlen).2 (hx ▸ hrange)
      refine ⟨y, ?_⟩
      change (rawSalient _ _ _ _ _ _ _).bind _ = _
      rw [rawSalient_eq_ok.2 ⟨raw, hraw, hidx, hval⟩, ok_bind]
      exact hy

/-- Salient values replace values and add none. -/
theorem length_of_putSalient (h : (fileReaders codec files).putSalient tm x = .ok y) : y.length = x.length := by
  unfold Readers.putSalient at h
  split at h
  · obtain rfl := Except.ok.inj h
    rfl
  · obtain ⟨⟨sIdx, sVal⟩, -, h⟩ := bind_eq_ok.1 h
    simp only at h
    split at h
    · obtain rfl := Except.ok.inj h
      rfl
    · unfold injectSalient at h
      split at h
      · cases h
      · exact length_of_assignAt h

/-! ### The low-rank correction -/

/-- Two lengths broadcast exactly when they are equal or one of them is one. -/
theorem exists_broadcastDim_iff {n k : ℕ} : (∃ d, broadcastDim n k = .ok d) ↔ n = k ∨ n = 1 ∨ k = 1 := by
  unfold broadcastDim
  split
  · next h => exact ⟨fun _ => Or.inl h, fun _ => ⟨n, rfl⟩⟩
  split
  · next h => exact ⟨fun _ => Or.inr (Or.inl h), fun _ => ⟨k, rfl⟩⟩
  split
  · next h => exact ⟨fun _ => Or.inr (Or.inr h), fun _ => ⟨n, rfl⟩⟩
  · next h1 h2 h3 => exact ⟨nofun, fun h => absurd h (by tauto)⟩

/-- `reshape(-1, c)` gives `k` rows exactly on `k * c` values. -/
theorem exists_reshapeAuto_iff {c k : ℕ} {xs : List α} :
    (∃ rows, reshapeAuto c xs = .ok rows ∧ rows.length = k) ↔ 0 < c ∧ xs.length = k * c := by
  constructor
  · rintro ⟨rows, h, rfl⟩
    obtain ⟨hc, hlen, -⟩ := reshapeAuto_inv h
    exact ⟨hc, hlen.symm⟩
  · rintro ⟨hc, hlen⟩
    unfold reshapeAuto
    rw [if_neg (by rw [hlen, Nat.mul_mod_left]; omega)]
    exact ⟨_, rfl, by rw [length_rowsOf, hlen, Nat.mul_div_cancel _ hc]⟩

/-- Reading a file succeeds exactly when it is there. -/
theorem readBytes_eq_ok {path : String} {raw : List ℕ} : readBytes files path = .ok raw ↔ files path = some raw := by
  unfold readBytes
  cases files path with
  | none => exact ⟨nofun, nofun⟩
  | some data => simp

/-- The low-rank product is added exactly when its shape broadcasts to the tensor's. -/
theorem exists_applyLowrankNumpy_iff (hw : WrittenEntry tm) (hx : x.length = tm.packedValues) {rank : ℕ} {a b : List (List α)} :
    (∃ y, applyLowrankNumpy x tm.shape rank a b = .ok y) ↔ tm.packedValues = tm.shape.prod ∧
      (tm.shape.headI = a.length ∨ tm.shape.headI = 1 ∨ a.length = 1) ∧
      (tm.shape.tail.prod = b.length ∨ tm.shape.tail.prod = 1 ∨ b.length = 1) := by
  obtain ⟨rows, rest, hshape⟩ := List.exists_cons_of_ne_nil hw.shape
  have hle := hw.packed_le_shape
  unfold applyLowrankNumpy broadcastMatrix
  rw [hshape, List.prod_cons] at hle ⊢
  simp only [rowsCols, ok_bind, List.headI_cons, List.tail_cons, ← exists_broadcastDim_iff]
  constructor
  · rintro ⟨y, h⟩
    obtain ⟨mat, hmat, h⟩ := bind_eq_ok.1 h
    obtain ⟨d, hd, h⟩ := bind_eq_ok.1 h
    obtain ⟨e, he, -⟩ := map_eq_ok.1 h
    refine ⟨?_, ⟨d, hd⟩, ⟨e, he⟩⟩
    unfold reshape at hmat
    rw [List.length_take, hx] at hmat
    split at hmat
    · omega
    · cases hmat
  · rintro ⟨hfull, ⟨d, hd⟩, ⟨e, he⟩⟩
    rw [reshape, if_pos (by rw [List.length_take, hx]; omega), ok_bind, hd, ok_bind, he, ok_map]
    exact ⟨_, rfl⟩

/-- The correction is added exactly when its factors read and fit. -/
theorem exists_addLowrank_iff (hw : WrittenEntry tm) (hx : x.length = tm.packedValues) :
    (∃ y, (fileReaders codec files).addLowrank tm x = .ok y) ↔ LowrankIntact files tm := by
  unfold Readers.addLowrank LowrankIntact FactorFits
  cases hm : tm.lowrank with
  | none => exact ⟨fun _ _ => nofun, fun _ => ⟨x, rfl⟩⟩
  | some lr =>
    constructor
    · rintro ⟨y, h⟩ lr' hlr
      obtain rfl := Option.some.inj hlr
      obtain ⟨⟨a, b⟩, hread, h⟩ := bind_eq_ok.1 h
      obtain ⟨ra, hra, hread⟩ := bind_eq_ok.1 hread
      obtain ⟨rb, hrb, hread⟩ := bind_eq_ok.1 hread
      obtain ⟨a', ha, hread⟩ := bind_eq_ok.1 hread
      obtain ⟨b', hb, hread⟩ := map_eq_ok.1 hread
      obtain ⟨rfl, rfl⟩ := Prod.mk.inj hread
      obtain ⟨hrank, hlena⟩ := exists_reshapeAuto_iff.1 ⟨a', ha, rfl⟩
      obtain ⟨-, hlenb⟩ := exists_reshapeAuto_iff.1 ⟨b', hb, rfl⟩
      rw [length_fromFile] at hlena hlenb
      obtain ⟨hfull, hrows, hcols⟩ := (exists_applyLowrankNumpy_iff hw hx).1 ⟨y, h⟩
      exact ⟨hfull, hrank, ⟨ra, _, readBytes_eq_ok.1 hra, hlena, hrows⟩, ⟨rb, _, readBytes_eq_ok.1 hrb, hlenb, hcols⟩⟩
    · intro h
      obtain ⟨hfull, hrank, ⟨ra, ka, hra, hlena, hrows⟩, ⟨rb, kb, hrb, hlenb, hcols⟩⟩ := h lr rfl
      rw [← length_fromFile _ (codec.float (lr.dtype.getD .float16))] at hlena hlenb
      obtain ⟨a, ha, rfl⟩ := exists_reshapeAuto_iff.2 ⟨hrank, hlena⟩
      obtain ⟨b, hb, rfl⟩ := exists_reshapeAuto_iff.2 ⟨hrank, hlenb⟩
      obtain ⟨y, hy⟩ : ∃ y, applyLowrankNumpy x tm.shape lr.rank a b = .ok y :=
        (exists_applyLowrankNumpy_iff hw hx).2 ⟨hfull, hrows, hcols⟩
      refine ⟨y, ?_⟩
      change (rawLowrank codec files lr).bind _ = _
      simp only [rawLowrank, readBytes_eq_ok.2 hra, readBytes_eq_ok.2 hrb, ok_bind, ha, hb, ok_map, hy]

/-! ### All the steps -/

/-- The last two steps of decoding, each with its own condition. -/
theorem exists_lastSteps_iff (hw : WrittenEntry tm) (hx : x.length = tm.packedValues) :
    (∃ y, ((fileReaders codec files).putSalient tm x).bind (fun x => (fileReaders codec files).addLowrank tm x) = .ok y) ↔
      SalientIntact codec files tm ∧ LowrankIntact files tm := by
  rw [← exists_putSalient_iff hx]
  exact exists_bind_iff (P := fun z : List α => z.length = tm.packedValues) (fun z hz => (length_of_putSalient hz).trans hx)
    fun z hz => exists_addLowrank_iff hw hz

/-- The steps after the sum of the stages, each with its own condition. -/
theorem exists_inverseSteps_iff (hw : WrittenEntry tm)
    (hscales : tm.normalizationMode ≠ .none → ∃ scales, (fileReaders codec files).scales tm = .ok scales)
    (hx : x.length = tm.packedValues) :
    (∃ y, (decodeRotation num tm x).bind (fun x => ((fileReaders codec files).applyScales tm x).bind fun x =>
      ((fileReaders codec files).putSalient tm x).bind fun x => (fileReaders codec files).addLowrank tm x) = .ok y) ↔
      (tm.rotationMode ≠ .none → tm.packedValues = tm.shape.prod) ∧ ScalesFit codec files tm ∧
        SalientIntact codec files tm ∧ LowrankIntact files tm := by
  rw [← exists_decodeRotation_iff num hw hx]
  refine exists_bind_iff (P := fun z : List α => z.length = tm.packedValues) (fun z hz => length_of_decodeRotation hw hx hz)
    fun z hz => ?_
  rw [← exists_applyScales_iff hw hscales hz]
  exact exists_bind_iff (P := fun z : List α => z.length = tm.packedValues) (fun y hy => length_of_applyScales hw hz hy)
    fun y hy => exists_lastSteps_iff hw hy

/-- An entry whose stages and scales can be read is decoded exactly if its files are intact. -/
theorem exists_decodeTensor_iff (hw : WrittenEntry tm)
    (hstages : ∀ stage ∈ resolveStages tm,
      ∃ w, (fileReaders codec files).stageArrays stage tm.groupSize tm.paddedValues = .ok w)
    (hscales : tm.normalizationMode ≠ .none → ∃ scales, (fileReaders codec files).scales tm = .ok scales) :
    (∃ y, (fileReaders codec files).decodeTensor num tm = .ok y) ↔ Intact codec files tm := by
  have hsteps : (∃ y, (fileReaders codec files).decodeTensor num tm = .ok y) ↔
      IndicesInRange codec files tm ∧ OutliersIntact codec files tm ∧
        (tm.rotationMode ≠ .none → tm.packedValues = tm.shape.prod) ∧ ScalesFit codec files tm ∧
          SalientIntact codec files tm ∧ LowrankIntact files tm := by
    rw [← exists_sumStages_iff hw hstages]
    refine exists_bind_iff (P := fun z : List α => z.length = tm.paddedValues) (fun z hz => length_of_sumStages hw hz)
      fun z hz => ?_
    have hcut : (z.take tm.packedValues).length = tm.packedValues := by rw [List.length_take, hz, Nat.min_eq_left hw.packed_le]
    have hput : (∃ y, (fileReaders codec files).putOutliers tm (z.take tm.packedValues) = .ok y) ↔ OutliersIntact codec files tm :=
      exists_putOutliers_iff hcut
    rw [← hput]
    refine exists_bind_iff (P := fun z : List α => z.length = tm.packedValues)
      (fun y hy => (length_of_putOutliers hy).trans hcut) fun y hy => ?_
    simp only [Readers.putPillars, hw.pillars, ok_bind]
    exact exists_inverseSteps_iff hw hscales hy
  rw [hsteps]
  exact ⟨fun ⟨h1, h2, h3, h4, h5, h6⟩ => ⟨h1, h2, h3, h4, h5, h6⟩, fun h => ⟨h.1, h.2, h.3, h.4, h.5, h.6⟩⟩

end Decode

end Orka
