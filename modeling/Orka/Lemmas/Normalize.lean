import Orka.Prepare

/-!
# Normalization: dividing by the stored scales and multiplying back

A stored scale is the rounding of a number that is at least the least storable one, so it is not zero, and a block divided by
it and multiplied by it is the block. What is left is where each mode takes its blocks, and which values the salient mode sets
aside.
-/

set_option linter.unusedSectionVars false

namespace Orka

open Flat

namespace NormalizeAux

section Storage

variable {α : Type} [Field α] [LinearOrder α] [IsStrictOrderedRing α] [FloorRing α]

@[simp] theorem length_fp16StorageRoundtrip (values : List α) : (fp16StorageRoundtrip values).length = values.length :=
  List.length_map _

/-- Values at or above the least storable scale are stored as positive values. -/
theorem fp16StorageRoundtrip_pos {values : List α} (h : ∀ v ∈ values, minStorableScale ≤ v) :
    ∀ s ∈ fp16StorageRoundtrip values, s ≠ 0 := by
  intro s hs
  obtain ⟨v, hv, rfl⟩ := List.mem_map.1 hs
  unfold storageRound
  split
  · exact (lt_of_lt_of_le (by unfold minStorableScale; positivity) (h v hv)).ne'
  · exact (Binary16.round16_pos (h v hv)).ne'

theorem minStorableScale_le_storableScale (s : α) : minStorableScale ≤ storableScale s := le_max_right _ _

theorem minStorableScale_le_anchorScale (s : α) : minStorableScale ≤ anchorScale s := le_max_right _ _

/-- No value of a block is larger than its largest. -/
theorem abs_le_maxAbs {block : List α} {v : α} (h : v ∈ block) : |v| ≤ maxAbs block := by
  induction block with
  | nil => cases h
  | cons x block ih =>
    rw [maxAbs, List.foldr_cons, ← maxAbs]
    rcases List.mem_cons.1 h with rfl | h
    · exact le_max_left _ _
    · exact (ih h).trans (le_max_right _ _)

/-- The largest magnitude of a block is the magnitude of one of its values. -/
theorem exists_abs_eq_maxAbs {block : List α} (h : block ≠ []) : ∃ v ∈ block, |v| = maxAbs block := by
  induction block with
  | nil => exact absurd rfl h
  | cons v block ih =>
    rw [maxAbs, List.foldr_cons, ← maxAbs]
    by_cases hb : block = []
    · subst hb
      exact ⟨v, by simp, by simp [maxAbs]⟩
    · obtain ⟨w, hw, hwm⟩ := ih hb
      rcases le_total |v| (maxAbs block) with hle | hle
      · exact ⟨w, List.mem_cons_of_mem _ hw, by rw [max_eq_right hle, hwm]⟩
      · exact ⟨v, by simp, (max_eq_left hle).symm⟩

/-- The salient place lies inside its block. -/
theorem argmaxAbs_lt {block : List α} (h : 0 < block.length) : argmaxAbs block < block.length := by
  unfold argmaxAbs
  rw [List.findIdx_lt_length]
  obtain ⟨v, hv, he⟩ := exists_abs_eq_maxAbs (List.length_pos_iff.1 h)
  exact ⟨v, hv, by simpa using he⟩

end Storage

/-! ## Blocks -/

section Blocks

variable {α : Type} [Field α]

/-- Dividing keeps the width of the blocks. -/
theorem divideBlocks_width {blocks : List (List α)} {safe : List α} {c : ℕ} (hw : ∀ block ∈ blocks, block.length = c) :
    ∀ row ∈ List.zipWith (fun block s => block.map (· / s)) blocks safe, row.length = c := by
  intro row hrow
  obtain ⟨i, hi, rfl⟩ := List.getElem_of_mem hrow
  rw [List.getElem_zipWith, List.length_map]
  exact hw _ (List.getElem_mem _)

theorem length_divideBlocks {blocks : List (List α)} {safe : List α} {c : ℕ} (hw : ∀ block ∈ blocks, block.length = c)
    (hl : safe.length = blocks.length) : (divideBlocks blocks safe).length = blocks.length * c := by
  rw [divideBlocks, length_flatten_of_width (divideBlocks_width hw), List.length_zipWith, hl, Nat.min_self]

/-- A divided cell is the cell over its block's scale. -/
theorem cell_divideBlocks {blocks : List (List α)} {safe : List α} {c i : ℕ} (hc : 0 < c)
    (hw : ∀ block ∈ blocks, block.length = c) (hl : safe.length = blocks.length) (hi : i < blocks.length * c) :
    cell (divideBlocks blocks safe) i = cell blocks.flatten i / cell safe (i / c) := by
  have hr : i / c < blocks.length := (Nat.div_lt_iff_lt_mul hc).2 hi
  rw [divideBlocks, cell_flatten hc (divideBlocks_width hw), cell_flatten hc hw,
    List.getD_eq_getElem _ _ (by rw [List.length_zipWith]; omega), List.getElem_zipWith,
    cell_map_zero (show (fun x => x / safe[i / c]) 0 = 0 from zero_div _), List.getD_eq_getElem _ _ hr,
    cell_eq_getElem (show i / c < safe.length by omega)]

variable [LinearOrder α] [IsStrictOrderedRing α] [FloorRing α]

/-- Blocks divided by nonzero scales, cut to the length of the stream and multiplied back. -/
theorem applyBlockMaxScales_divideBlocks {blocks : List (List α)} {safe : List α} {bs n : ℕ} (hbs : 0 < bs)
    (hw : ∀ block ∈ blocks, block.length = bs) (hl : safe.length = blocks.length) (hn : blocks.length = ceilDiv n bs)
    (h0 : ∀ s ∈ safe, s ≠ 0) :
    applyBlockMaxScalesNumpy ((divideBlocks blocks safe).take n) safe bs = .ok (blocks.flatten.take n) := by
  have hle : n ≤ blocks.length * bs := by
    rw [hn]
    exact le_ceilDiv_mul hbs
  have hlen : ((divideBlocks blocks safe).take n).length = n := by
    rw [List.length_take, length_divideBlocks hw hl, Nat.min_eq_left hle]
  have hpad : ((divideBlocks blocks safe).take n ++ List.replicate (padding n bs) 0).length = blocks.length * bs := by
    rw [List.length_append, hlen, List.length_replicate, ← ceilDiv_mul hbs, hn]
  unfold applyBlockMaxScalesNumpy
  simp only [hlen, hpad, Nat.mul_div_cancel _ hbs]
  rw [if_neg (by omega), if_neg (by omega)]
  congr 1
  apply ext_cell
  · rw [List.length_take, length_scaleRows (by rw [hpad, hl]), List.length_take, length_flatten_of_width hw, hl]
  · intro i hi
    rw [List.length_take, length_scaleRows (by rw [hpad, hl]), hl, Nat.min_eq_left hle] at hi
    have hib : i < blocks.length * bs := by omega
    have hr : i / bs < safe.length := by
      rw [hl]
      exact (Nat.div_lt_iff_lt_mul hbs).2 hib
    rw [cell_take hi, cell_take hi, cell_scaleRows hbs (by rw [hpad, hl]) (by rw [hl]; exact hib), cell_pad, cell_take hi,
      cell_divideBlocks hbs hw hl hib, div_mul_cancel₀ _ (h0 _ (cell_mem hr))]

theorem width_blocksOf (bs : ℕ) (hbs : 0 < bs) (flat : List α) : ∀ block ∈ blocksOf bs flat, block.length = bs :=
  length_of_mem_rowsOf (by rw [List.length_append, List.length_replicate, ceilDiv_mul hbs])

/-- The blocks of the padded stream joined again. -/
theorem flatten_blocksOf {bs : ℕ} (hbs : 0 < bs) (flat : List α) :
    (blocksOf bs flat).flatten = flat ++ List.replicate (padding flat.length bs) 0 :=
  flatten_rowsOf (by rw [List.length_append, List.length_replicate, ceilDiv_mul hbs])

/-- Blocks divided by stored scales: the stream keeps its length, no scale is zero, and multiplying the scales gives the
blocks back. -/
theorem divideBlocks_stored {blocks : List (List α)} {bs n : ℕ} (scale : List α → α)
    (hscale : ∀ block, minStorableScale ≤ scale block) (hbs : 0 < bs) (hw : ∀ block ∈ blocks, block.length = bs)
    (hn : blocks.length = ceilDiv n bs) :
    ((divideBlocks blocks (fp16StorageRoundtrip (blocks.map scale))).take n).length = n ∧
      (∀ s ∈ fp16StorageRoundtrip (blocks.map scale), s ≠ 0) ∧
      applyBlockMaxScalesNumpy ((divideBlocks blocks (fp16StorageRoundtrip (blocks.map scale))).take n)
        (fp16StorageRoundtrip (blocks.map scale)) bs = .ok (blocks.flatten.take n) := by
  have hl : (fp16StorageRoundtrip (blocks.map scale)).length = blocks.length := by
    rw [length_fp16StorageRoundtrip, List.length_map]
  have h0 : ∀ s ∈ fp16StorageRoundtrip (blocks.map scale), s ≠ 0 := by
    apply fp16StorageRoundtrip_pos
    intro v hv
    obtain ⟨block, -, rfl⟩ := List.mem_map.1 hv
    exact hscale block
  refine ⟨?_, h0, applyBlockMaxScales_divideBlocks hbs hw hl hn h0⟩
  rw [List.length_take, length_divideBlocks hw hl, hn, Nat.min_eq_left (le_ceilDiv_mul hbs)]

/-! ## The modes -/

/-- Block-max is inverted by multiplying the block scales. -/
theorem blockMax_spec {flat : List α} {bs : ℕ} (hbs : 0 < bs) :
    ∃ t safe, normalizeTensorBlockMax flat bs = .ok { tensor := t, rowScales := some safe, sourceFlat := flat } ∧
      t.length = flat.length ∧ (∀ s ∈ safe, s ≠ 0) ∧ applyBlockMaxScalesNumpy t safe bs = .ok flat := by
  obtain ⟨hlen, h0, hback⟩ := divideBlocks_stored (fun block => storableScale (maxAbs block))
    (fun _ => minStorableScale_le_storableScale _) hbs (width_blocksOf bs hbs flat) (length_rowsOf _ _ _)
  rw [flatten_blocksOf hbs, List.take_left] at hback
  exact ⟨_, _, by rw [normalizeTensorBlockMax, if_neg (by omega)], hlen, h0, hback⟩

/-- Blocks taken inside the rows are the blocks of the flat stream. -/
theorem flatten_blocked {rows cols bs : ℕ} {flat : List α} (hd : bs ∣ cols) (hx : flat.length = rows * cols) :
    ((rowsOf rows cols flat).map (rowsOf (cols / bs) bs)).flatten.flatten = flat := by
  rw [List.flatten_flatten, List.map_map]
  have hid : (rowsOf rows cols flat).map (List.flatten ∘ rowsOf (cols / bs) bs) = rowsOf rows cols flat := by
    conv_rhs => rw [← List.map_id (rowsOf rows cols flat)]
    apply List.map_congr_left
    intro row hrow
    exact flatten_rowsOf (by rw [length_of_mem_rowsOf (by omega) row hrow, Nat.div_mul_cancel hd])
  rw [hid, flatten_rowsOf hx]

/-- Every block of a blocked matrix has the block size. -/
theorem width_blocked {rows cols bs : ℕ} {flat : List α} (hd : bs ∣ cols) (hx : flat.length = rows * cols) :
    ∀ block ∈ ((rowsOf rows cols flat).map (rowsOf (cols / bs) bs)).flatten, block.length = bs := by
  intro block hblock
  obtain ⟨L, hL, hblock⟩ := List.mem_flatten.1 hblock
  obtain ⟨row, hrow, rfl⟩ := List.mem_map.1 hL
  have hlen := length_of_mem_rowsOf (by omega) row hrow
  exact length_of_mem_rowsOf (by rw [hlen, Nat.div_mul_cancel hd]) block hblock

/-- Channel-block-max is inverted by multiplying the block scales of the flat stream. -/
theorem channelBlockMax_spec {shape : List ℕ} {flat : List α} {bs : ℕ} (hbs : 0 < bs) (hx : flat.length = shape.prod) :
    ∃ t safe, normalizeTensorChannelBlockMax shape flat bs =
        .ok { tensor := t, rowScales := some safe, sourceFlat := flat } ∧
      t.length = flat.length ∧ (∀ s ∈ safe, s ≠ 0) ∧ applyBlockMaxScalesNumpy t safe bs = .ok flat := by
  unfold normalizeTensorChannelBlockMax
  rw [if_neg (by omega)]
  split
  · exact blockMax_spec hbs
  · next hshape =>
    have hd : bs ∣ shape.getLastD 0 := Nat.dvd_of_mod_eq_zero (by omega)
    have hne : shape ≠ [] := by
      rintro rfl
      simp at hshape
    have hrc : flat.length = shape.dropLast.prod * shape.getLastD 0 := by
      have hsplit := congrArg List.prod (List.dropLast_append_getLast hne)
      rw [List.prod_append, List.prod_singleton] at hsplit
      rw [hx, ← hsplit, List.getLastD_eq_getLast?, List.getLast?_eq_getLast_of_ne_nil hne, Option.getD_some]
    have hw := width_blocked hd hrc
    have hflat := flatten_blocked hd hrc
    have hcount : ((rowsOf shape.dropLast.prod (shape.getLastD 0) flat).map
        (rowsOf (shape.getLastD 0 / bs) bs)).flatten.length * bs = flat.length := by
      conv_rhs => rw [← hflat]
      rw [length_flatten_of_width hw]
    have hceil : ((rowsOf shape.dropLast.prod (shape.getLastD 0) flat).map
        (rowsOf (shape.getLastD 0 / bs) bs)).flatten.length = ceilDiv flat.length bs := by
      rw [← hcount, ceilDiv_of_dvd hbs (dvd_mul_left _ _), Nat.mul_div_cancel _ hbs]
    dsimp only
    generalize ((rowsOf shape.dropLast.prod (shape.getLastD 0) flat).map
      (rowsOf (shape.getLastD 0 / bs) bs)).flatten = blocks at hw hflat hcount hceil ⊢
    obtain ⟨hlen, h0, hback⟩ := divideBlocks_stored (fun block => storableScale (maxAbs block))
      (fun _ => minStorableScale_le_storableScale _) hbs hw hceil
    have hfit : (divideBlocks blocks (fp16StorageRoundtrip
        (blocks.map fun block => storableScale (maxAbs block)))).length ≤ flat.length := by
      rw [length_divideBlocks hw (by rw [length_fp16StorageRoundtrip, List.length_map]), hcount]
    rw [List.take_of_length_le hfit] at hlen hback
    rw [hflat, List.take_length] at hback
    exact ⟨_, _, rfl, hlen, h0, hback⟩

/-- Slrq without salient values is inverted by multiplying the block scales. -/
theorem slrqBlock_plain_spec {flat : List α} {bs : ℕ} (hbs : 0 < bs) :
    ∃ t safe, normalizeTensorSlrqBlock flat bs false =
        .ok { tensor := t, rowScales := some safe, sourceFlat := flat } ∧
      t.length = flat.length ∧ (∀ s ∈ safe, s ≠ 0) ∧ applyBlockMaxScalesNumpy t safe bs = .ok flat := by
  obtain ⟨hlen, h0, hback⟩ := divideBlocks_stored (fun block => anchorScale (maxAbs block))
    (fun _ => minStorableScale_le_anchorScale _) hbs (width_blocksOf bs hbs flat) (length_rowsOf _ _ _)
  rw [flatten_blocksOf hbs, List.take_left] at hback
  exact ⟨_, _, by rw [normalizeTensorSlrqBlock, if_neg (by omega)]; rfl, hlen, h0, hback⟩

/-- The blocks with one place of each set to zero, joined. -/
theorem cell_flatten_zeroed {blocks : List (List α)} {idx : List ℕ} {bs i : ℕ} (hbs : 0 < bs)
    (hw : ∀ block ∈ blocks, block.length = bs) (hl : idx.length = blocks.length) (hi : i < blocks.length * bs) :
    cell (List.zipWith (fun block j => block.set j 0) blocks idx).flatten i =
      if i % bs = cell idx (i / bs) then 0 else cell blocks.flatten i := by
  have hr : i / bs < blocks.length := (Nat.div_lt_iff_lt_mul hbs).2 hi
  have hm : i % bs < blocks[i / bs].length := by
    rw [hw _ (List.getElem_mem hr)]
    exact Nat.mod_lt i hbs
  have hw' : ∀ row ∈ List.zipWith (fun block j => block.set j 0) blocks idx, row.length = bs := by
    intro row hrow
    obtain ⟨k, hk, rfl⟩ := List.getElem_of_mem hrow
    rw [List.getElem_zipWith, List.length_set]
    exact hw _ (List.getElem_mem _)
  rw [cell_flatten hbs hw', cell_flatten hbs hw, List.getD_eq_getElem _ _ (by rw [List.length_zipWith]; omega),
    List.getElem_zipWith, List.getD_eq_getElem _ _ hr, cell_eq_getElem (show i / bs < idx.length by omega)]
  by_cases h : i % bs = idx[i / bs]
  · rw [if_pos h, ← h]
    simp [cell, hm]
  · rw [if_neg h]
    simp [cell, List.getElem?_set_ne (Ne.symm h)]

/-- Slrq with salient values: multiplying the block scales gives the stream with zeros at the salient places, and the values
set aside are those places of the stream, stored. -/
theorem slrqBlock_salient_spec {flat : List α} {bs : ℕ} (hbs : 0 < bs) :
    ∃ t safe idx, normalizeTensorSlrqBlock flat bs true =
        .ok { tensor := t, rowScales := some safe, sourceFlat := flat, salientIndices := some idx,
              salientWeights := some (fp16StorageRoundtrip (tabulate idx.length fun b => cell flat (b * bs + cell idx b))) } ∧
      idx.length = ceilDiv flat.length bs ∧ (∀ j ∈ idx, j < bs) ∧ t.length = flat.length ∧ (∀ s ∈ safe, s ≠ 0) ∧
      ∃ d, applyBlockMaxScalesNumpy t safe bs = .ok d ∧ d.length = flat.length ∧
        ∀ i < flat.length, cell d i = if i % bs = cell idx (i / bs) then 0 else cell flat i := by
  have hw := width_blocksOf bs hbs flat
  have hcount : (blocksOf bs flat).length = ceilDiv flat.length bs := length_rowsOf _ _ _
  have hidx : ((blocksOf bs flat).map argmaxAbs).length = (blocksOf bs flat).length := List.length_map _
  have hlt : ∀ j ∈ (blocksOf bs flat).map argmaxAbs, j < bs := by
    intro j hj
    obtain ⟨block, hblock, rfl⟩ := List.mem_map.1 hj
    have := hw block hblock
    have := argmaxAbs_lt (show 0 < block.length by omega)
    omega
  have hwz : ∀ block ∈ List.zipWith (fun block i => block.set i 0) (blocksOf bs flat) ((blocksOf bs flat).map argmaxAbs),
      block.length = bs := by
    intro row hrow
    obtain ⟨k, hk, rfl⟩ := List.getElem_of_mem hrow
    rw [List.getElem_zipWith, List.length_set]
    exact hw _ (List.getElem_mem _)
  have hzcount : (List.zipWith (fun block i => block.set i 0) (blocksOf bs flat)
      ((blocksOf bs flat).map argmaxAbs)).length = ceilDiv flat.length bs := by
    rw [List.length_zipWith, hidx, Nat.min_self, hcount]
  have hweights : List.zipWith cell (blocksOf bs flat) ((blocksOf bs flat).map argmaxAbs) =
      tabulate ((blocksOf bs flat).map argmaxAbs).length fun b => cell flat (b * bs + cell ((blocksOf bs flat).map argmaxAbs) b) := by
    apply ext_cell (by simp)
    intro b hb
    rw [List.length_zipWith, hidx, Nat.min_self] at hb
    have hj := hlt _ (cell_mem (show b < ((blocksOf bs flat).map argmaxAbs).length by omega))
    rw [cell_tabulate _ (by omega), cell_eq_getElem (by rw [List.length_zipWith]; omega), List.getElem_zipWith,
      ← cell_eq_getElem (show b < ((blocksOf bs flat).map argmaxAbs).length by omega)]
    have hrow := cell_rowsOf (flat ++ List.replicate (padding flat.length bs) 0) (show b < ceilDiv flat.length bs by omega) hj
    rw [cell_pad, List.getD_eq_getElem _ _ (by rw [length_rowsOf]; omega)] at hrow
    exact hrow
  obtain ⟨hlen, h0, hback⟩ := divideBlocks_stored (fun block => anchorScale (maxAbs block))
    (fun _ => minStorableScale_le_anchorScale _) hbs hwz hzcount
  refine ⟨_, _, _, ?_, by rw [hidx, hcount], hlt, hlen, h0, _, hback, ?_, ?_⟩
  · rw [normalizeTensorSlrqBlock, if_neg (by omega)]
    simp only [if_true]
    rw [hweights]
  · rw [List.length_take, length_flatten_of_width hwz, hzcount, Nat.min_eq_left (le_ceilDiv_mul hbs)]
  · intro i hi
    have hib : i < (blocksOf bs flat).length * bs := by
      rw [hcount]
      exact lt_of_lt_of_le hi (le_ceilDiv_mul hbs)
    rw [cell_take hi, cell_flatten_zeroed hbs hw hidx hib, flatten_blocksOf hbs, cell_pad]

end Blocks

end NormalizeAux

end Orka
