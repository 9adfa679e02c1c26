import Orka.Lemmas.Csr
import Orka.Lemmas.Planes
import Orka.Theorems.Embedding

/-!
# A built layer against the decoder

`build_vq_linear` re-implements the steps of `_decode_tensor`: stages and block scales in buffers, outliers and salient values as
a sparse correction. A built layer decodes to the table of its entry without the steps the builder has no code for; a value that
was overridden is reached up to the rounding of its delta.
-/

set_option linter.unusedSectionVars false

namespace Orka

open Flat Steps DecodeAux CsrAux IndexStreamAux PlanesAux BitStream

/-! ## Buffers -/

section Buffers

variable {β : Type}

theorem copyInto_of_length {n : ℕ} {xs : List β} (h : xs.length = n) : copyInto n xs = .ok xs := if_pos h

/-- A matrix buffer takes rows of its own shape. -/
theorem copyMatrix_of_size {r c : ℕ} {rows : List (List β)} (hr : rows.length = r) (hc : ∀ row ∈ rows, row.length = c) :
    copyMatrix r c rows = .ok rows := by
  have hrows : rows.mapM (copyInto c) = .ok (rows.map id) := mapM_ok fun row hrow => copyInto_of_length (hc row hrow)
  rw [copyMatrix, hrows, List.map_id, ok_bind, copyInto_of_length hr]

/-- An index of a codebook fits the width of its size. -/
theorem lt_indexWidth {k i : ℕ} (hi : i < k) : i < 2 ^ indexWidth k := by
  have hle : i ≤ k - 1 := by omega
  unfold indexWidth
  by_cases h1 : k ≤ 1
  · rw [if_pos h1]
    have : i = 0 := by omega
    simp [this]
  · rw [if_neg h1]
    calc i ≤ k - 1 := hle
      _ < 2 ^ (Nat.log2 (k - 1) + 1) := Nat.lt_log2_self
      _ ≤ 2 ^ max 1 (Nat.log2 (k - 1) + 1) := Nat.pow_le_pow_right (by norm_num) (le_max_right _ _)

/-- The two widths of planes. -/
theorem planeWidth_eq {k : ℕ} (h : planeWidth k ≠ 0) : planeWidth k = indexWidth k ∧ (planeWidth k = 10 ∨ planeWidth k = 12) := by
  unfold planeWidth at h ⊢
  dsimp only at h ⊢
  split_ifs at h ⊢ with hw
  · exact ⟨rfl, by omega⟩
  · exact absurd rfl h

end Buffers

section Stages

variable {α : Type} [Field α] [LinearOrder α] [IsStrictOrderedRing α] [FloorRing α]
variable {num : Numerics α} {store : Store α} {tm : TensorMeta} {c : TensorContents α}

/-- The buffers of a stage hold its contents. -/
structure BufferHolds (buf : StageBuffers α) (s : StageContents α) : Prop where
  codebook : buf.codebook = s.codebook
  indicesInt : buf.indicesInt = .ok (ints s.indices)
  plain : buf.planeWidth = 0 → buf.indices = ints s.indices

/-- The index buffers of a stage hold its indices, in planes or not. -/
theorem registerIndices_eq {k n : ℕ} {is : List ℕ} (hlt : ∀ i ∈ is, i < k) (hsmall : k ≤ 2 ^ 31) (hlen : n = is.length)
    (codebook : List (List α)) :
    ∃ indices lo hi, registerIndices n k (ints is) = .ok (indices, lo, hi) ∧
      StageBuffers.indicesInt { planeWidth := planeWidth k, indices, lo, hi, codebook } = .ok (ints is) ∧
      (planeWidth k = 0 → indices = ints is) := by
  unfold registerIndices
  dsimp only
  by_cases hplain : planeWidth k = 0
  · have hstore : (ints is).map (storeIndex k) = ints is := by
      unfold ints
      rw [List.map_map]
      exact List.map_congr_left fun i hi => storeIndex_natCast (hlt i hi) hsmall
    rw [if_pos hplain, hstore, copyInto_of_length (by rw [length_ints, hlen]), ok_map]
    refine ⟨_, _, _, rfl, ?_, fun _ => rfl⟩
    rw [StageBuffers.indicesInt, if_pos hplain]
  · obtain ⟨hw, hten⟩ := planeWidth_eq hplain
    have hwide : ∀ i ∈ is, i < 2 ^ planeWidth k := by
      intro i hi
      rw [hw]
      exact lt_indexWidth (hlt i hi)
    rw [if_neg hplain, packIndexPlanes_ok (by omega) (by omega) hwide, ok_bind]
    dsimp only
    rw [copyInto_of_length (by rw [List.length_map, hlen]), ok_bind,
      copyInto_of_length (by rw [length_packBytes, length_bitmat, List.length_map, hiBytes, hlen]), ok_map]
    refine ⟨_, _, _, rfl, ?_, fun h0 => absurd h0 hplain⟩
    exact indicesInt_planes hten rfl hwide rfl rfl

/-- A stage is registered with its contents, in planes or not. -/
theorem registerStage_eq {stage : StageMeta} {s : StageContents α} {total : ℕ} (hpos : 0 < tm.groupSize)
    (hgroup : stage.groupSize.getD tm.groupSize = tm.groupSize) (hcount : ceilDiv total tm.groupSize = s.indices.length)
    (hpad : ceilDiv tm.paddedValues tm.groupSize = ceilDiv total tm.groupSize)
    (hst : HoldsStage num store tm.groupSize tm.paddedValues stage s) (he : StageEmbeddable stage s) :
    ∃ buf, registerStage num store tm.groupSize total stage = .ok buf ∧ BufferHolds buf s := by
  obtain ⟨d, hd⟩ := Option.ne_none_iff_exists'.1 he.dtype
  have hwidth : s.width = tm.groupSize := hst.1.symm.trans hgroup
  have hread := hst.2
  unfold readStageArrays at hread
  dsimp only at hread
  rw [hgroup, if_neg hpos.ne', hpad] at hread
  obtain ⟨cb, hcb, hread⟩ := bind_eq_ok.1 hread
  obtain ⟨idxs, hidxs, hpair⟩ := map_eq_ok.1 hread
  obtain ⟨rfl, rfl⟩ := Prod.mk.inj hpair
  have hcb' : readCodebook num store stage.codebook tm.groupSize (stage.codebookDtype.getD .float16) = .ok s.codebook := by
    rw [hd] at hcb ⊢
    exact hcb
  have hround : s.codebook.map (·.map Binary16.round16) = s.codebook := by
    conv_rhs => rw [← List.map_id s.codebook]
    exact List.map_congr_left fun row hrow => map_round16 (he.codebook16 row hrow)
  have hmatrix : copyMatrix stage.codebookSize tm.groupSize s.codebook = .ok s.codebook :=
    copyMatrix_of_size he.size.symm fun row hrow => (s.row_width row hrow).trans hwidth
  have hlt : ∀ i ∈ s.indices, i < stage.codebookSize := by
    rw [he.size]
    exact s.index_lt
  obtain ⟨indices, lo, hi, hindices, hint, hplain⟩ :=
    registerIndices_eq hlt (by rw [he.size]; exact he.small) hcount s.codebook
  unfold registerStage
  dsimp only
  rw [hgroup, if_neg hpos.ne', hidxs, ok_bind, hcb', ok_bind, hround, hmatrix, hindices, ok_bind, ok_map]
  exact ⟨_, rfl, rfl, hint, hplain⟩

/-- Stages whose contents fit register as their codebooks and indices. -/
theorem registerStages_eq {stages : List StageMeta} {cs : List (StageContents α)} {total : ℕ} (hpos : 0 < tm.groupSize)
    (hgroup : ∀ stage ∈ stages, stage.groupSize.getD tm.groupSize = tm.groupSize)
    (hcount : ∀ s ∈ cs, ceilDiv total tm.groupSize = s.indices.length)
    (hpad : ceilDiv tm.paddedValues tm.groupSize = ceilDiv total tm.groupSize)
    (hst : List.Forall₂ (HoldsStage num store tm.groupSize tm.paddedValues) stages cs)
    (he : List.Forall₂ StageEmbeddable stages cs) :
    ∃ bufs, stages.mapM (registerStage num store tm.groupSize total) = .ok bufs ∧ List.Forall₂ BufferHolds bufs cs := by
  induction hst with
  | nil => exact ⟨[], rfl, .nil⟩
  | @cons stage s stages cs hs _ ih =>
    obtain ⟨he, hes⟩ := List.forall₂_cons.1 he
    obtain ⟨buf, hbuf, hholds⟩ := registerStage_eq hpos (hgroup stage (by simp)) (hcount s (by simp)) hpad hs he
    obtain ⟨bufs, hbufs, hall⟩ := ih (fun t ht => hgroup t (List.mem_cons_of_mem _ ht))
      (fun t ht => hcount t (List.mem_cons_of_mem _ ht)) hes
    exact ⟨buf :: bufs, by rw [mapM_cons_eq, hbuf, ok_bind, hbufs, ok_map], .cons hholds hall⟩

/-- The scale buffer of a layer: the block scales, or ones. -/
def scaleBuffer (c : TensorContents α) : List α := c.blockScales.getD (List.replicate (ceilDiv c.count c.blockSize) 1)

/-- Half-precision scales register as they are stored. -/
theorem registerScales_eq (h : Holds num store tm c) (h16 : ∀ ss, c.blockScales = some ss → ∀ x ∈ ss, Binary16.round16 x = x) :
    registerScales num store tm c.blockSize c.count = .ok (scaleBuffer c, c.blockScales) := by
  have hsc := h.scales
  have hstored : ∀ ss, c.blockScales = some ss → readScales num store tm = .ok ss →
      ((readScales num store tm).bind fun scalesFull =>
        (copyInto (ceilDiv c.count c.blockSize) ((scalesFull.take (ceilDiv c.count c.blockSize)).map Binary16.round16)).map
          fun buf => (buf, some (scalesFull.take (ceilDiv c.count c.blockSize)))) = .ok (scaleBuffer c, c.blockScales) := by
    intro ss hss hread
    have hlen : ss.length = ceilDiv c.count c.blockSize := c.blockScales_length ss hss
    rw [hread, ok_bind, List.take_of_length_le hlen.le, map_round16 (h16 ss hss), copyInto_of_length hlen, ok_map,
      scaleBuffer, hss]
    rfl
  unfold registerScales
  unfold HoldsScales at hsc
  cases hm : tm.normalizationMode with
  | none | awq =>
    rw [hm] at hsc
    rw [scaleBuffer, hsc.1]
    rfl
  | blockMax | channelBlockMax | slrqBlock =>
    rw [hm] at hsc
    obtain ⟨-, ss, hss, hread⟩ := hsc
    exact hstored ss hss hread
  | awqBlockMax =>
    rw [hm] at hsc
    obtain ⟨⟨ss, hss, hread⟩, -⟩ := hsc
    exact hstored ss hss hread

end Stages

/-! ## What the layer decodes to -/

section Decoding

variable {α : Type} [Field α] [LinearOrder α] [IsStrictOrderedRing α] [FloorRing α]
variable {num : Numerics α} {c : TensorContents α}

/-- A layer, in either layout, reads the stages and the scales of the contents in row-major order. -/
structure LayerHolds (layer : VQLinear α) (c : TensorContents α) : Prop where
  outFeatures : layer.outFeatures = c.rows
  inFeatures : layer.inFeatures = c.cols
  blockSize : layer.blockSize = c.blockSize
  group_pos : 0 < layer.groupSize
  padded : ceilDiv c.count layer.groupSize * layer.groupSize = c.padded
  stages : List.Forall₂ (fun buf s => buf.codebook = s.codebook ∧ layer.rowMajorIndices buf = .ok (ints s.indices))
    layer.stages c.stages
  scales : layer.rowMajorScales = .ok (scaleBuffer c)

/-- Transposing to group-major order and back. -/
theorem viewTransposed_transposeView {β : Type} [Zero β] {r q : ℕ} {xs : List β} (h : xs.length = r * q) :
    viewTransposed q r (transposeView r q xs) = .ok xs := by
  unfold viewTransposed transposeView
  rw [if_pos (length_tabulate _ _)]
  refine congrArg Except.ok (ext_cell (by rw [length_tabulate, h]) fun i hi => ?_)
  rw [length_tabulate] at hi
  have hq : 0 < q := Nat.pos_of_mul_pos_left (by omega : 0 < r * q)
  have hr : 0 < r := Nat.pos_of_mul_pos_right (by omega : 0 < r * q)
  have hdiv : i / q < r := Nat.div_lt_of_lt_mul (by rwa [Nat.mul_comm] at hi)
  have hplace : i % q * r + i / q < q * r := flat_lt (Nat.mod_lt _ hq) hdiv
  have hsplit : (i % q * r + i / q) / r = i % q ∧ (i % q * r + i / q) % r = i / q := salient_place hdiv
  rw [cell_tabulate _ hi, cell_tabulate _ hplace, hsplit.1, hsplit.2, Nat.div_add_mod']

theorem length_scaleBuffer (c : TensorContents α) : (scaleBuffer c).length = ceilDiv c.count c.blockSize := by
  unfold scaleBuffer
  cases hbs : c.blockScales with
  | none => exact List.length_replicate ..
  | some ss => exact c.blockScales_length ss hbs

/-- The stages of a layer, one after another. -/
theorem layerStages_loop {layer : VQLinear α} {bufs : List (StageBuffers α)} {cs : List (StageContents α)}
    (hall : List.Forall₂ (fun buf s => buf.codebook = s.codebook ∧ layer.rowMajorIndices buf = .ok (ints s.indices)) bufs cs)
    (hcount : ∀ s ∈ cs, s.indices.length * s.width = c.padded) :
    ∀ acc : List α, acc.length = c.padded →
      bufs.foldlM (fun decoded s => (layer.rowMajorIndices s).bind fun idxs =>
        (takeRows s.codebook idxs).bind fun rows => addInto decoded rows.flatten) acc =
        .ok (cs.foldl (fun acc s => List.zipWith (· + ·) acc s.values) acc) := by
  induction hall with
  | nil =>
    intro acc _
    rfl
  | @cons buf s bufs cs hs _ ih =>
    intro acc hacc
    have hlen : acc.length = s.values.length := by rw [hacc, length_values, hcount s (by simp)]
    have hadd : addInto acc (s.indices.map fun i => s.codebook.getD i []).flatten = .ok (List.zipWith (· + ·) acc s.values) :=
      if_pos hlen
    rw [foldlM_cons_eq, hs.2, ok_bind, hs.1, takeRows_ints s.index_lt, ok_bind, hadd, ok_bind]
    exact ih (fun t ht => hcount t (List.mem_cons_of_mem _ ht)) _ (by rw [List.length_zipWith, ← hlen, hacc, Nat.min_self])

/-- The factor of a position, from the buffer. -/
theorem cell_scaleBuffer {p : ℕ} (hp : p < c.count) : cell (scaleBuffer c) (p / c.blockSize) = c.scaleOf p := by
  unfold scaleBuffer TensorContents.scaleOf
  cases hbs : c.blockScales with
  | none =>
    have hlt : p / c.blockSize < ceilDiv c.count c.blockSize := div_lt_ceilDiv c.blockSize_pos hp
    exact cell_replicate hlt 1
  | some ss => rfl

/-- **The matrix of a built layer without its correction**: the scaled sum of the stages. -/
theorem reconstructVq_held {layer : VQLinear α} (h : LayerHolds layer c) :
    layer.reconstructVq = .ok (tabulate c.count fun p => cell c.sum p * c.scaleOf p) := by
  have htotal : layer.total = c.count := by rw [VQLinear.total, h.outFeatures, h.inFeatures, TensorContents.count]
  have hpos := c.blockSize_pos
  have hsc := length_scaleBuffer c
  have hsum : (List.replicate (ceilDiv layer.total layer.groupSize * layer.groupSize) (0 : α)) = List.replicate c.padded 0 := by
    rw [htotal, h.padded]
  unfold VQLinear.reconstructVq
  rw [if_neg (by rw [h.blockSize]; have := h.group_pos; omega)]
  dsimp only
  rw [hsum, layerStages_loop h.stages c.stage_count _ (List.length_replicate ..), ok_bind, h.scales, ok_bind, htotal, h.blockSize,
    List.take_of_length_le hsc.le, hsc, broadcastMatrix_rows, ok_map]
  refine congrArg Except.ok (ext_cell ?_ fun p hp => ?_)
  · rw [List.length_take, length_tabulate, length_tabulate]
    exact Nat.min_eq_left (le_ceilDiv_mul hpos)
  · have hp' : p < c.count := by
      rw [List.length_take, length_tabulate] at hp
      omega
    have hwide : p < ceilDiv c.count c.blockSize * c.blockSize := hp'.trans_le (le_ceilDiv_mul hpos)
    rw [cell_take hp', cell_tabulate _ hwide, cell_tabulate _ hp', cell_pad, cell_take hp', cell_scaleBuffer hp']
    rfl

/-! ## Either layout -/

/-- The layer before `_to_group_major`. -/
structure RowMajor (layer : VQLinear α) (c : TensorContents α) : Prop where
  outFeatures : layer.outFeatures = c.rows
  inFeatures : layer.inFeatures = c.cols
  blockSize : layer.blockSize = c.blockSize
  group_pos : 0 < layer.groupSize
  padded : ceilDiv c.count layer.groupSize * layer.groupSize = c.padded
  stages : List.Forall₂ BufferHolds layer.stages c.stages
  scales : layer.scales = scaleBuffer c
  groupMajor : layer.groupMajor = false

/-- A row-major layer holds the contents it was built from. -/
theorem RowMajor.layerHolds {layer : VQLinear α} (h : RowMajor layer c) : LayerHolds layer c where
  outFeatures := h.outFeatures
  inFeatures := h.inFeatures
  blockSize := h.blockSize
  group_pos := h.group_pos
  padded := h.padded
  stages := h.stages.imp fun buf s hb => by
    refine ⟨hb.codebook, ?_⟩
    rw [VQLinear.rowMajorIndices, hb.indicesInt, ok_bind, if_neg (by simp [h.groupMajor])]
  scales := by
    unfold VQLinear.rowMajorScales
    dsimp only
    rw [if_neg (by simp [h.groupMajor]), h.scales]

/-- **`_to_group_major` changes the layout, not what the layer holds.** -/
theorem layerHolds_toGroupMajor {layer : VQLinear α} (h : RowMajor layer c) (hrows : 0 < c.rows) :
    LayerHolds (toGroupMajor layer) c := by
  unfold toGroupMajor
  split
  · exact h.layerHolds
  next hplaned =>
  split
  · exact h.layerHolds
  split
  case isFalse => exact h.layerHolds
  next hdvd =>
  dsimp only
  split
  case isFalse => exact h.layerHolds
  next hlen =>
  have hG := Nat.dvd_of_mod_eq_zero hdvd.1
  have hB := Nat.dvd_of_mod_eq_zero hdvd.2
  have hout : 0 < layer.outFeatures := by rwa [h.outFeatures]
  have hplain : ∀ buf ∈ layer.stages, buf.planeWidth = 0 := by
    intro buf hbuf
    by_contra hw
    exact hplaned (List.any_eq_true.2 ⟨buf, hbuf, bne_iff_ne.2 hw⟩)
  refine ⟨h.outFeatures, h.inFeatures, h.blockSize, h.group_pos, h.padded, ?_, ?_⟩
  · have hback : ∀ buf ∈ layer.stages, ∀ s, BufferHolds buf s →
        VQLinear.rowMajorIndices { layer with
          stages := layer.stages.map fun s =>
            { s with indices := transposeView layer.outFeatures (layer.inFeatures / layer.groupSize) s.indices },
          scales := transposeView layer.outFeatures (layer.inFeatures / layer.blockSize) layer.scales, groupMajor := true }
          { buf with indices := transposeView layer.outFeatures (layer.inFeatures / layer.groupSize) buf.indices } =
            .ok (ints s.indices) := by
      intro buf hbuf s hb
      have hl := hlen.1 buf hbuf
      have hcount : layer.outFeatures * layer.inFeatures / layer.groupSize =
          layer.outFeatures * (layer.inFeatures / layer.groupSize) :=
        Nat.mul_div_assoc _ hG
      unfold VQLinear.rowMajorIndices StageBuffers.indicesInt VQLinear.total
      dsimp only
      rw [if_pos (hplain buf hbuf), ok_bind, if_pos ⟨rfl, by rw [transposeView, length_tabulate, hcount, Nat.mul_comm]⟩,
        if_neg hout.ne', hcount, Nat.mul_div_cancel_left _ hout, viewTransposed_transposeView hl, hb.plain (hplain buf hbuf)]
    obtain ⟨hsame, hall⟩ := List.forall₂_iff_get.1 h.stages
    refine List.forall₂_map_left_iff.2 (List.forall₂_iff_get.2 ⟨hsame, fun i h1 h2 => ?_⟩)
    exact ⟨(hall i h1 h2).codebook, hback _ (List.getElem_mem h1) _ (hall i h1 h2)⟩
  · have hl := hlen.2
    have hn : ceilDiv (layer.outFeatures * layer.inFeatures) layer.blockSize =
        layer.outFeatures * (layer.inFeatures / layer.blockSize) := by
      rw [ceilDiv_of_dvd (by rw [h.blockSize]; exact c.blockSize_pos) (Dvd.dvd.mul_left hB _), Nat.mul_div_assoc _ hB]
    unfold VQLinear.rowMajorScales VQLinear.total
    dsimp only
    rw [if_pos ⟨rfl, by rw [transposeView, length_tabulate, hn, Nat.mul_comm]⟩, if_neg hout.ne', hn,
      Nat.mul_div_cancel_left _ hout, viewTransposed_transposeView hl, h.scales]

end Decoding

/-! ## The correction -/

section Correction

variable {α : Type} [Field α] [LinearOrder α] [IsStrictOrderedRing α] [FloorRing α]
variable {num : Numerics α} {store : Store α} {tm : TensorMeta} {c : TensorContents α}

/-- Taking at natural positions gives the cells. -/
theorem takeValues_nat {β : Type} [Zero β] {xs : List β} {ps : List ℕ} {f : ℕ → ℕ} (h : ∀ p ∈ ps, f p < xs.length) :
    takeValues xs (ps.map fun p => ((f p : ℕ) : ℤ)) = .ok (ps.map fun p => cell xs (f p)) := by
  unfold takeValues
  rw [List.mapM_map]
  apply mapM_ok
  intro p hp
  rw [Function.comp_apply, axisIndex_natCast (h p hp), ok_map]

/-- One stage at flat positions: its values there. -/
theorem stageAt_eq {buf : StageBuffers α} {s : StageContents α} (hb : BufferHolds buf s) {ps : List ℕ}
    (hps : ∀ p ∈ ps, p < s.indices.length * s.width) : stageAt s.width buf ps = .ok (ps.map (cell s.values)) := by
  have hdiv : ∀ p ∈ ps, p / s.width < s.indices.length := fun p hp => Nat.div_lt_of_lt_mul (by rw [Nat.mul_comm]; exact hps p hp)
  have hidx : takeValues (ints s.indices) (ps.map fun p => ((p / s.width : ℕ) : ℤ)) =
      .ok (ints (ps.map fun p => cell s.indices (p / s.width))) := by
    rw [takeValues_nat fun p hp => by rw [length_ints]; exact hdiv p hp]
    refine congrArg Except.ok ?_
    unfold ints
    rw [List.map_map]
    refine List.map_congr_left fun p hp => ?_
    rw [Function.comp_apply, cell_map (hdiv p hp)]
  have hrow : ∀ j ∈ ps.map fun p => cell s.indices (p / s.width), j < s.codebook.length := by
    intro j hj
    obtain ⟨p, hp, rfl⟩ := List.mem_map.1 hj
    exact s.index_lt _ (cell_mem (hdiv p hp))
  unfold stageAt
  rw [hb.indicesInt, ok_bind, hidx, ok_bind, hb.codebook, takeRows_ints hrow, ok_bind, List.map_map]
  have hzip : (ps.map ((fun i => s.codebook.getD i []) ∘ fun p => cell s.indices (p / s.width))).zip ps =
      ps.map fun p => (s.codebook.getD (cell s.indices (p / s.width)) [], p) := by
    conv_lhs => rw [← List.map_id ps]
    rw [List.map_map, List.zip_map']
    rfl
  rw [hzip, List.mapM_map]
  apply mapM_ok
  intro p hp
  have hlt := hrow _ (List.mem_map_of_mem hp)
  have hlen : (s.codebook.getD (cell s.indices (p / s.width)) []).length = s.width := by
    rw [List.getD_eq_getElem _ _ hlt]
    exact s.row_width _ (List.getElem_mem hlt)
  rw [Function.comp_apply]
  dsimp only
  rw [hlen, axisIndex_natCast (Nat.mod_lt p s.width_pos), ok_map]
  exact congrArg Except.ok (cell_gather s.width_pos s.row_width s.index_lt (hps p hp)).symm

/-- The stages at flat positions, one after another. -/
theorem stagesAt_loop {g : ℕ} {bufs : List (StageBuffers α)} {cs : List (StageContents α)}
    (hall : List.Forall₂ BufferHolds bufs cs)
    (hwidth : ∀ s ∈ cs, s.width = g) (hcount : ∀ s ∈ cs, s.indices.length * s.width = c.padded) {ps : List ℕ}
    (hps : ∀ p ∈ ps, p < c.padded) :
    ∀ acc : List α, acc.length = c.padded →
      bufs.foldlM (fun dec s => (stageAt g s ps).map fun vs => List.zipWith (· + ·) dec vs) (ps.map (cell acc)) =
        .ok (ps.map (cell (cs.foldl (fun acc s => List.zipWith (· + ·) acc s.values) acc))) := by
  induction hall with
  | nil =>
    intro acc _
    rfl
  | @cons buf s bufs cs hb _ ih =>
    intro acc hacc
    have hlen : acc.length = s.values.length := by rw [hacc, length_values, hcount s (by simp)]
    have hin : ∀ p ∈ ps, p < s.indices.length * s.width := by rwa [hcount s (by simp)]
    have hat := stageAt_eq hb hin
    rw [hwidth s (by simp)] at hat
    have hadd : List.zipWith (· + ·) (ps.map (cell acc)) (ps.map (cell s.values)) =
        ps.map (cell (List.zipWith (· + ·) acc s.values)) := by
      rw [List.zipWith_map, List.zipWith_self]
      refine List.map_congr_left fun p hp => ?_
      have hp' : p < acc.length := hacc ▸ hps p hp
      rw [cell_zipWith hp' (hlen ▸ hp')]
    rw [foldlM_cons_eq, hat, ok_map, ok_bind, hadd]
    exact ih (fun t ht => hwidth t (List.mem_cons_of_mem _ ht)) (fun t ht => hcount t (List.mem_cons_of_mem _ ht)) _
      (by rw [List.length_zipWith, ← hlen, hacc, Nat.min_self])

/-- The factor of every position. -/
theorem scaleAt_eq {ps : List ℕ} (hps : ∀ p ∈ ps, p < c.count) :
    scaleAt c.blockScales c.blockSize ps = .ok (ps.map c.scaleOf) := by
  unfold scaleAt
  cases hbs : c.blockScales with
  | none =>
    refine congrArg Except.ok (List.map_congr_left fun p _ => ?_)
    rw [TensorContents.scaleOf, hbs]
  | some ss =>
    dsimp only
    rw [takeValues_nat fun p hp => by rw [c.blockScales_length ss hbs]; exact div_lt_ceilDiv c.blockSize_pos (hps p hp)]
    refine congrArg Except.ok (List.map_congr_left fun p _ => ?_)
    rw [TensorContents.scaleOf, hbs]

/-- `W_vq` at flat positions. -/
theorem vqDecodedAt_eq {g : ℕ} {bufs : List (StageBuffers α)} (hall : List.Forall₂ BufferHolds bufs c.stages)
    (hwidth : ∀ s ∈ c.stages, s.width = g) {ps : List ℕ} (hps : ∀ p ∈ ps, p < c.count) :
    vqDecodedAt g c.blockSize bufs c.blockScales ps = .ok (ps.map fun p => cell c.sum p * c.scaleOf p) := by
  have hzero : (ps.map fun _ => (0 : α)) = ps.map (cell (List.replicate c.padded (0 : α))) := by
    refine List.map_congr_left fun p _ => ?_
    rw [cell_replicate_zero]
  have hloop := stagesAt_loop hall hwidth c.stage_count (fun p hp => (hps p hp).trans_le c.packed_le)
    (List.replicate c.padded 0) (List.length_replicate ..)
  unfold vqDecodedAt
  rw [hzero, hloop, ok_bind]
  have hscale := scaleAt_eq hps
  cases hbs : c.blockScales with
  | none =>
    refine congrArg Except.ok (List.map_congr_left fun p _ => ?_)
    rw [TensorContents.scaleOf, hbs, mul_one]
    rfl
  | some ss =>
    dsimp only
    rw [hbs] at hscale
    rw [hscale, ok_map, List.zipWith_map, List.zipWith_self]
    rfl

/-! ## Final values -/

/-- Positions below the size are kept. -/
theorem keptBelow_eq {total : ℕ} {positions : List ℤ} {values : List α} {ws : List (ℕ × α)}
    (hlen : positions.length = values.length)
    (hws : ((positions.zip values).filter fun w => decide (w.1 < (total : ℤ))) = ws.map fun w => ((w.1 : ℤ), w.2)) :
    keptBelow total positions values = .ok ws := by
  unfold keptBelow
  dsimp only
  rw [if_neg (not_not.2 hlen), hws, if_neg (by simp), List.map_map]
  refine congrArg Except.ok ?_
  conv_rhs => rw [← List.map_id ws]
  refine List.map_congr_left fun w _ => ?_
  simp

/-- Positions and values zip back to the writes. -/
theorem zip_ints {ws : List (ℕ × α)} : (ints (ws.map Prod.fst)).zip (ws.map Prod.snd) = ws.map fun w => ((w.1 : ℤ), w.2) := by
  rw [ints, List.map_map, List.zip_map']
  rfl

/-- A vector that was read has the recorded count. -/
theorem length_of_readFloatVector {path : String} {n : ℕ} {dtype : FloatDtype} {values : List α}
    (h : readFloatVector num store path n dtype = .ok values) : values.length = n := by
  unfold readFloatVector at h
  obtain ⟨arr, -, h⟩ := bind_eq_ok.1 h
  split_ifs at h with hne
  obtain rfl := Except.ok.inj h
  exact not_not.1 hne

/-- The outliers, scaled. -/
def scaledOutliers (c : TensorContents α) : List (ℕ × α) := c.outliers.map fun w => (w.1, w.2 * c.scaleOf w.1)

/-- The outliers' final values are their values times their block's scale. -/
theorem outlierFinals_eq (h : Holds num store tm c) :
    outlierFinals num store tm c.blockSize c.count c.blockScales = .ok (scaledOutliers c) := by
  have hesc := h.outliers
  unfold outlierFinals
  cases ho : tm.outliers with
  | none =>
    rw [ho] at hesc
    have hnil : c.outliers = [] := hesc
    rw [scaledOutliers, hnil]
    rfl
  | some outl =>
    rw [ho] at hesc
    have hread : readOutliersOf num store outl = .ok (ints (c.outliers.map Prod.fst), c.outliers.map Prod.snd) := hesc
    dsimp only
    split_ifs with hzero
    · have hread' := hread
      unfold readOutliersOf readOutliers at hread'
      obtain ⟨delta, -, hread'⟩ := bind_eq_ok.1 hread'
      obtain ⟨values, hvalues, hread'⟩ := bind_eq_ok.1 hread'
      split_ifs at hread'
      have hsnd := (Prod.mk.inj (Except.ok.inj hread')).2
      have hlen := length_of_readFloatVector hvalues
      rw [hsnd, List.length_map, hzero] at hlen
      rw [scaledOutliers, List.eq_nil_of_length_eq_zero hlen]
      rfl
    · have hkept : keptBelow c.count (ints (c.outliers.map Prod.fst)) (c.outliers.map Prod.snd) = .ok c.outliers := by
        apply keptBelow_eq (by simp)
        rw [zip_ints]
        refine List.filter_eq_self.2 fun w hw => ?_
        obtain ⟨v, hv, rfl⟩ := List.mem_map.1 hw
        exact decide_eq_true (Int.ofNat_lt.2 (c.outlier_lt v hv))
      have hps : ∀ p ∈ c.outliers.map Prod.fst, p < c.count := by
        intro p hp
        obtain ⟨w, hw, rfl⟩ := List.mem_map.1 hp
        exact c.outlier_lt w hw
      rw [hread, ok_bind]
      dsimp only
      rw [hkept, ok_bind, scaleAt_eq hps, ok_map, List.map_map, List.zipWith_map, List.zipWith_self, List.zip_map']
      rfl

/-- The salient values are final as stored. -/
theorem salientFinals_eq (h : Holds num store tm c) : salientFinals num store tm c.blockSize c.count = .ok c.salientOf := by
  have hsal := h.salient
  unfold salientFinals
  unfold HoldsSalient at hsal
  unfold TensorContents.salientOf
  cases ho : tm.salient with
  | none =>
    rw [ho] at hsal
    rw [hsal]
  | some m =>
    rw [ho] at hsal
    obtain ⟨idx, vals, hc, hread⟩ := hsal
    obtain ⟨hvals, hidx, -⟩ := c.salient_spec idx vals hc
    rw [hc]
    dsimp only
    split_ifs with hzero
    · have hread' := hread
      unfold readSalientOf readSalient at hread'
      obtain ⟨raw, -, hread'⟩ := bind_eq_ok.1 hread'
      obtain ⟨sIdx, -, hread'⟩ := bind_eq_ok.1 hread'
      obtain ⟨sVal, hsVal, hpair⟩ := map_eq_ok.1 hread'
      have hlen := length_of_readFloatVector hsVal
      rw [(Prod.mk.inj hpair).2, hzero, hvals] at hlen
      rw [List.eq_nil_of_length_eq_zero hlen]
      rfl
    · rw [hread, ok_bind]
      dsimp only
      have hfull : ceilDiv c.count c.blockSize = idx.length := hidx.symm
      rw [hfull, List.take_of_length_le (by rw [length_ints]), List.take_of_length_le hvals.le]
      apply keptBelow_eq
      · rw [salientPositions, length_tabulate, length_ints, hvals]
      · exact salientPositions_zip hvals

/-- The positions that were overridden: outliers and salient values. -/
def TensorContents.overridden (c : TensorContents α) : List ℕ := c.outliers.map Prod.fst ++ c.salientOf.map Prod.fst

/-- The value a position is overridden with: salient, else an outlier scaled. -/
def TensorContents.finalAt (c : TensorContents α) (p : ℕ) : Option α :=
  (lastWrite c.salientOf p).or ((lastWrite c.outliers p).map (· * c.scaleOf p))

/-- Scaling each write by its place scales the last one. -/
theorem lastWrite_scaled (ws : List (ℕ × α)) (f : ℕ → α) (p : ℕ) :
    lastWrite (ws.map fun w => (w.1, w.2 * f w.1)) p = (lastWrite ws p).map (· * f p) := by
  induction ws with
  | nil => rfl
  | cons w ws ih =>
    rw [List.map_cons, lastWrite_cons, lastWrite_cons, ih]
    by_cases hw : w.1 = p
    · rw [if_pos hw, if_pos hw, hw]
      cases lastWrite ws p <;> rfl
    · rw [if_neg hw, if_neg hw, Option.or_none, Option.or_none]

/-- A place has a last write exactly when some write names it. -/
theorem lastWrite_ne_none {ws : List (ℕ × α)} {p : ℕ} : lastWrite ws p ≠ none ↔ p ∈ ws.map Prod.fst := by
  constructor
  · intro h
    obtain ⟨v, hv⟩ := Option.ne_none_iff_exists'.1 h
    exact List.mem_map.2 ⟨(p, v), mem_of_lastWrite hv, rfl⟩
  · intro h hnone
    obtain ⟨w, hw, hp⟩ := List.mem_map.1 h
    exact ne_of_lastWrite_eq_none hnone hw hp

/-- Exactly the overridden positions have such a value. -/
theorem finalAt_ne_none {p : ℕ} : c.finalAt p ≠ none ↔ p ∈ c.overridden := by
  rw [TensorContents.overridden, List.mem_append, ← lastWrite_ne_none, ← lastWrite_ne_none, TensorContents.finalAt]
  cases lastWrite c.salientOf p <;> cases lastWrite c.outliers p <;> simp

/-- An overridden place lies inside the tensor. -/
theorem lt_of_overridden {p : ℕ} (hp : p ∈ c.overridden) : p < c.count := by
  rcases List.mem_append.1 hp with hp | hp
  · obtain ⟨w, hw, rfl⟩ := List.mem_map.1 hp
    exact c.outlier_lt w hw
  · obtain ⟨w, hw, rfl⟩ := List.mem_map.1 hp
    unfold TensorContents.salientOf at hw
    cases hs : c.salient with
    | none =>
      rw [hs] at hw
      cases hw
    | some s =>
      rw [hs] at hw
      exact salientWrites_lt w hw

/-- The delta stored for a final value. -/
def deltaOf (c : TensorContents α) (w : ℕ × α) : ℕ × α := (w.1, Binary16.round16 (w.2 - cell c.sum w.1 * c.scaleOf w.1))

/-- **The correction of a layer**: the deltas of the final values, each position once. -/
theorem buildCsrCorrection_eq (h : Holds num store tm c) {g : ℕ} {bufs : List (StageBuffers α)}
    (hall : List.Forall₂ BufferHolds bufs c.stages) (hwidth : ∀ s ∈ c.stages, s.width = g) :
    ∃ finals : List (ℕ × α), (finals.map Prod.fst).Nodup ∧ (∀ w, w ∈ finals ↔ c.finalAt w.1 = some w.2) ∧
      buildCsrCorrection num store tm c.rows c.cols g c.blockSize bufs c.blockScales =
        .ok (toCsr c.rows c.cols (finals.map (deltaOf c))) := by
  have hfinals : ∀ w, w ∈ Dict.update (Dict.update [] (scaledOutliers c)) c.salientOf ↔ c.finalAt w.1 = some w.2 := by
    intro w
    rw [Dict.mem_update, Dict.mem_update_nil, scaledOutliers, lastWrite_scaled, TensorContents.finalAt]
    cases lastWrite c.salientOf w.1 <;> simp
  have hnodup := Dict.nodup_update (Dict.nodup_update (d := []) List.nodup_nil (scaledOutliers c)) c.salientOf
  refine ⟨_, hnodup, hfinals, ?_⟩
  unfold buildCsrCorrection
  dsimp only
  rw [show c.rows * c.cols = c.count from rfl, outlierFinals_eq h, ok_bind, salientFinals_eq h, ok_bind]
  generalize Dict.update (Dict.update [] (scaledOutliers c)) c.salientOf = finals at hfinals
  split_ifs with hempty
  · rw [List.isEmpty_iff.1 hempty]
    simp [toCsr, tabulate]
  · have hps : ∀ p ∈ finals.map Prod.fst, p < c.count := by
      intro p hp
      obtain ⟨w, hw, rfl⟩ := List.mem_map.1 hp
      refine lt_of_overridden (finalAt_ne_none.1 ?_)
      rw [(hfinals w).1 hw]
      exact Option.some_ne_none _
    rw [vqDecodedAt_eq hall hwidth hps, ok_map, List.map_map, List.zipWith_map, List.zipWith_self, List.zip_map']
    rfl

end Correction

/-! ## The layer -/

section Layer

variable {α : Type} [Field α] [LinearOrder α] [IsStrictOrderedRing α] [FloorRing α]
variable {num : Numerics α} {store : Store α} {tm : TensorMeta} {c : TensorContents α}

/-- The entry without the steps `build_vq_linear` has no code for. -/
def TensorMeta.asLayer (tm : TensorMeta) : TensorMeta := { tm.asLookup with pillars := none, lowrank := none }

/-- The entry with nothing but stages and block scales. -/
def TensorMeta.asPayload (tm : TensorMeta) : TensorMeta := { tm.asLayer with outliers := none, salient := none }

/-- The contents without the steps the builder has no code for. -/
def TensorContents.asLayer (c : TensorContents α) : TensorContents α :=
  { c.asLookup with
    pillars := []
    lowrank := none
    pillar_lt := by rintro w ⟨⟩
    lowrank_length := by rintro rank a b ⟨⟩ }

/-- The contents with nothing but stages and block scales. -/
def TensorContents.asPayload (c : TensorContents α) : TensorContents α :=
  { c.asLayer with
    outliers := []
    salient := none
    outlier_lt := by rintro w ⟨⟩
    salient_spec := by rintro idx vals ⟨⟩ }

theorem holds_asLayer (h : Holds num store tm c) : Holds num store tm.asLayer c.asLayer :=
  { holds_asLookup h with pillars := rfl, lowrank := rfl }

theorem holds_asPayload (h : Holds num store tm c) : Holds num store tm.asPayload c.asPayload :=
  { holds_asLayer h with outliers := rfl, salient := rfl }

theorem plain_asLayer (c : TensorContents α) : c.asLayer.Plain :=
  { rotation := rfl, colScales := rfl, pillars := rfl, lowrank := by rintro rank a b ⟨⟩ }

/-- The decoder on the entry of a layer. -/
theorem cell_decoded {p : ℕ} (hp : p < c.count) :
    cell (c.asLayer.reconstruct num) p = (c.finalAt p).getD (cell c.sum p * c.scaleOf p) :=
  cell_reconstruct_plain (plain_asLayer c) hp

/-- The payload decodes to the scaled sum of the stages. -/
theorem decoded_payload : c.asPayload.reconstruct num = tabulate c.count fun p => cell c.sum p * c.scaleOf p := by
  have hplain : c.asPayload.Plain :=
    { rotation := rfl, colScales := rfl, pillars := rfl, lowrank := by rintro rank a b ⟨⟩ }
  have hlen : (c.asPayload.reconstruct num).length = c.count := length_reconstruct
  apply ext_cell (by rw [hlen, length_tabulate])
  intro p hp
  rw [hlen] at hp
  rw [cell_reconstruct_plain hplain hp, cell_tabulate _ hp]
  rfl

/-- An entry as it is packed for a layer: a row, whole groups with what padding they need, one group size, and floats that
binary16 holds. -/
structure Layered (num : Numerics α) (store : Store α) (tm : TensorMeta) (c : TensorContents α) : Prop where
  holds : Holds num store tm c
  rows_pos : 0 < c.rows
  padded : c.padded = ceilDiv c.count tm.groupSize * tm.groupSize
  group : ∀ stage ∈ tm.stages, stage.groupSize.getD tm.groupSize = tm.groupSize
  stages : List.Forall₂ StageEmbeddable (resolveStages tm) c.stages
  scales16 : ∀ ss, c.blockScales = some ss → ∀ x ∈ ss, Binary16.round16 x = x

/-- Every stage of a layer has the entry's group size and one index for each group. -/
theorem Layered.sizes (h : Layered num store tm c) {s : StageContents α} (hmem : s ∈ c.stages) :
    s.width = tm.groupSize ∧ s.indices.length = ceilDiv c.count tm.groupSize := by
  obtain ⟨hsame, hall⟩ := List.forall₂_iff_get.1 h.holds.stages
  obtain ⟨i, hi, rfl⟩ := List.getElem_of_mem hmem
  have hst := hall i (by rwa [hsame]) hi
  have hwidth : (c.stages.get ⟨i, hi⟩).width = tm.groupSize :=
    hst.1.symm.trans (groupSize_resolved h.group _ (List.getElem_mem _))
  refine ⟨hwidth, ?_⟩
  have hcount := c.stage_count _ (List.getElem_mem hi)
  rw [h.padded, show c.stages[i].width = tm.groupSize from hwidth] at hcount
  exact Nat.eq_of_mul_eq_mul_right h.holds.group_pos hcount

/-- The layer `build_vq_linear` returns: what it holds, and its correction. -/
theorem Layered.build (h : Layered num store tm c) (bias : Option (List α)) :
    ∃ (layer : VQLinear α) (finals : List (ℕ × α)), buildVqLinear num store tm bias = .ok layer ∧ LayerHolds layer c ∧
      layer.corrSpCache = none ∧
      layer.corr = toCsr c.rows c.cols (finals.map (deltaOf c)) ∧ (finals.map Prod.fst).Nodup ∧
      ∀ w, w ∈ finals ↔ c.finalAt w.1 = some w.2 := by
  have hpos := h.holds.group_pos
  have hpad : ceilDiv tm.paddedValues tm.groupSize = ceilDiv c.count tm.groupSize := by
    rw [h.holds.padded, h.padded, ceilDiv_of_dvd hpos (Nat.dvd_mul_left _ _), Nat.mul_div_cancel _ hpos]
  obtain ⟨bufs, hbufs, hall⟩ := registerStages_eq hpos (groupSize_resolved h.group) (fun s hs => (h.sizes hs).2.symm) hpad
    h.holds.stages h.stages
  obtain ⟨finals, hnodup, hfinals, hcorr⟩ := buildCsrCorrection_eq h.holds hall fun s hs => (h.sizes hs).1
  have hstages : buildStages tm = resolveStages tm := rfl
  unfold buildVqLinear
  rw [h.holds.shape, ok_bind]
  dsimp only
  rw [if_neg hpos.ne', hstages, show c.rows * c.cols = c.count from rfl, hbufs, ok_bind, h.holds.blockSize,
    registerScales_eq h.holds h.scales16, ok_bind]
  dsimp only
  rw [hcorr, ok_map]
  set layer : VQLinear α :=
    { outFeatures := c.rows, inFeatures := c.cols, groupSize := tm.groupSize, blockSize := c.blockSize, stages := bufs,
      scales := scaleBuffer c, corr := toCsr c.rows c.cols (finals.map (deltaOf c)), corrSpCache := none,
      bias := bias.map (·.map Binary16.round16), groupMajor := false, n1Ok := none }
  have hrow : RowMajor layer c := ⟨rfl, rfl, rfl, hpos, h.padded.symm, hall, rfl, rfl⟩
  obtain ⟨stages', scales', groupMajor, hmajor⟩ := exists_toGroupMajor layer
  refine ⟨_, finals, rfl, layerHolds_toGroupMajor hrow h.rows_pos, ?_, ?_, hnodup, hfinals⟩
  · rw [hmajor]
  · rw [hmajor]

/-- Taking differences keeps the places. -/
theorem fst_deltas (finals : List (ℕ × α)) : (finals.map (deltaOf c)).map Prod.fst = finals.map Prod.fst := by
  rw [List.map_map]
  rfl

/-- The correction at a position: the delta of its final value, if it has one. -/
theorem lastWrite_deltas {finals : List (ℕ × α)} (hnodup : (finals.map Prod.fst).Nodup)
    (hfinals : ∀ w, w ∈ finals ↔ c.finalAt w.1 = some w.2) (p : ℕ) :
    lastWrite (sortedDeltas c.cols (finals.map (deltaOf c))) p = (c.finalAt p).map fun v => (deltaOf c (p, v)).2 := by
  have hperm := perm_sortedDeltas c.cols (finals.map (deltaOf c))
  cases hat : c.finalAt p with
  | none =>
    apply lastWrite_eq_none
    rintro d hd rfl
    obtain ⟨w, hw, rfl⟩ := List.mem_map.1 (hperm.mem_iff.1 hd)
    rw [show (deltaOf c w).1 = w.1 from rfl, (hfinals w).1 hw] at hat
    cases hat
  | some v =>
    have hsorted : ((sortedDeltas c.cols (finals.map (deltaOf c))).map Prod.fst).Nodup :=
      (hperm.map Prod.fst).nodup_iff.2 (fst_deltas finals ▸ hnodup)
    exact lastWrite_of_mem hsorted (hperm.mem_iff.2 (List.mem_map_of_mem ((hfinals (p, v)).2 hat)))

/-- What a held layer decodes to: its stages, and on them the deltas of the final values. -/
theorem reconstructWeight_held {layer : VQLinear α} (h : LayerHolds layer c) (hcache : layer.corrSpCache = none)
    {finals : List (ℕ × α)} (hcorr : layer.corr = toCsr c.rows c.cols (finals.map (deltaOf c)))
    (hnodup : (finals.map Prod.fst).Nodup) (hfinals : ∀ w, w ∈ finals ↔ c.finalAt w.1 = some w.2) :
    layer.reconstructWeight num = .ok (tabulate (c.rows * c.cols) fun p =>
      cell c.sum p * c.scaleOf p + ((c.finalAt p).map fun v => (deltaOf c (p, v)).2).getD 0) := by
  have hperm := perm_sortedDeltas c.cols (finals.map (deltaOf c))
  unfold VQLinear.reconstructWeight
  rw [reconstructVq_held h, ok_bind]
  unfold VQLinear.correctionCsr
  by_cases hempty : finals = []
  · have hcol : layer.corr.col.length = 0 := by
      rw [hcorr, hempty]
      simp [toCsr]
    have hnone : ∀ p, c.finalAt p = none := fun p => by
      rw [Option.eq_none_iff_forall_ne_some]
      intro v hv
      have hmem := (hfinals (p, v)).2 hv
      rw [hempty] at hmem
      cases hmem
    rw [hcol, if_neg (lt_irrefl 0), hcache]
    dsimp only
    refine congrArg Except.ok (tabulate_congr fun p _ => ?_)
    rw [hnone p, Option.map_none, Option.getD_none, add_zero]
  · have hlt : ∀ d ∈ finals.map (deltaOf c), d.1 < layer.outFeatures * layer.inFeatures := by
      intro d hd
      obtain ⟨w, hw, rfl⟩ := List.mem_map.1 hd
      rw [h.outFeatures, h.inFeatures]
      refine lt_of_overridden (finalAt_ne_none.1 ?_)
      rw [show (deltaOf c w).1 = w.1 from rfl, (hfinals w).1 hw]
      exact Option.some_ne_none _
    have hadd := addCorrection_toCsr num hlt (fst_deltas finals ▸ hnodup)
      (w := tabulate c.count fun p => cell c.sum p * c.scaleOf p)
      (by rw [length_tabulate, h.outFeatures, h.inFeatures]; rfl)
    rw [h.outFeatures, h.inFeatures] at hadd
    have hcol : 0 < layer.corr.col.length := by
      have hlen : layer.corr.col.length = (sortedDeltas c.cols (finals.map (deltaOf c))).length := by
        rw [hcorr]
        exact List.length_map _
      rw [hlen, hperm.length_eq, List.length_map]
      exact List.length_pos_of_ne_nil hempty
    rw [if_pos hcol]
    dsimp only
    rw [hcorr, hadd]
    refine congrArg Except.ok (ext_cell (by simp [TensorContents.count]) fun p hp => ?_)
    have hp' : p < c.count := by simpa [TensorContents.count] using hp
    have hp'' : p < c.rows * c.cols := hp'
    rw [cell_zipWith (by rwa [length_tabulate]) (by rwa [length_tabulate]), cell_tabulate _ hp', cell_tabulate _ hp'',
      cell_tabulate _ hp'', lastWrite_deltas hnodup hfinals]

end Layer

/-- The rows of `tableEntry` as a layer, with an outlier in the second. -/
def layerEntry : TensorMeta :=
  { tableEntry with rotation := none, outliers := some ⟨1, "pos", "val", some .uint8, some .float16⟩ }

def layerStore : Store ℚ := fun path =>
  if path = "pos" then some (.unsigned .uint8 [6])
  else if path = "val" then some (.floats .float16 [5])
  else tableStore path

def layerContents : TensorContents ℚ :=
  { tableContents with
    outliers := [(6, 5)]
    rotation := .none
    outlier_lt := List.forall_mem_singleton.2 (by decide)
    hadamard_block := by rintro ⟨⟩ }

/-- The example's entry is a layer. -/
theorem layerEntry_layered : Layered rationalNumerics layerStore layerEntry layerContents where
  holds :=
    { shape := rfl
      packed := rfl
      padded := rfl
      group_pos := by decide
      group_dvd := by decide
      stages := .cons ⟨rfl, by decide +kernel⟩ .nil
      outliers := by
        change readOutliersOf rationalNumerics layerStore _ = .ok ([6], [5])
        decide +kernel
      pillars := rfl
      rotation := rfl
      seed := rfl
      blockSize := rfl
      scales := ⟨rfl, [1, 2, 3], rfl, rfl⟩
      salient := rfl
      lowrank := rfl }
  rows_pos := by decide
  padded := rfl
  group := List.forall_mem_singleton.2 rfl
  stages := tableEntry_embeddable.stages
  scales16 := tableEntry_embeddable.scales16

/-- The outlier, scaled as its row is, and around it the values of the stages. -/
example :
    (buildVqLinear rationalNumerics layerStore layerEntry none).bind (fun layer => layer.reconstructWeight rationalNumerics) =
      .ok [1, 2, -1, 3, -2, 6, 10, 6, 3, 6, 3, 6] := by
  decide +kernel

end Orka
