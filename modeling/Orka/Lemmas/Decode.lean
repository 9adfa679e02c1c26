import Orka.Contents
import Orka.Lemmas.Rotate

/-!
# Decoding: both decoders return the matrix an entry holds

One lemma for each step of `_decode_tensor` and of `_decode_tensor_torch` on an entry whose files hold contents; each step
succeeds and does what the abstract layer says.
-/

set_option linter.unusedSectionVars false

namespace Orka

open Flat RotateAux

namespace DecodeAux

/-! ## Indexed writes -/

section Writes

variable {α : Type} [Zero α]

/-- Taking the entries of a list in any order permutes it. -/
theorem filterMap_putOrder_perm {β : Type} (num : Numerics α) (ws : List β) :
    ((num.putOrder ws.length).val.filterMap fun k => ws[k]?).Perm ws := by
  have h := (num.putOrder ws.length).property.filterMap fun k => ws[k]?
  rwa [filterMap_range_getElem?] at h

/-- Assigning a list of writes inside the array. -/
theorem assignAt_writes {xs : List α} {ws : List (ℕ × α)} (h : ∀ w ∈ ws, w.1 < xs.length) :
    assignAt xs (ints (ws.map Prod.fst)) (ws.map Prod.snd) = .ok (scatter xs ws) := by
  rw [assignAt_ints (by simp), List.zip_map', List.map_id']
  intro p hp
  obtain ⟨w, hw, rfl⟩ := List.mem_map.1 hp
  exact h w hw

/-- The same on torch, where no position comes twice. -/
theorem assignAtTorch_writes (num : Numerics α) {xs : List α} {ws : List (ℕ × α)} (h : ∀ w ∈ ws, w.1 < xs.length)
    (hn : (ws.map Prod.fst).Nodup) :
    assignAtTorch num xs (ints (ws.map Prod.fst)) (ws.map Prod.snd) = .ok (scatter xs ws) := by
  have hm : (ints (ws.map Prod.fst)).mapM (axisIndex xs.length) = .ok (ws.map Prod.fst) := by
    apply mapM_axisIndex_ints
    intro p hp
    obtain ⟨w, hw, rfl⟩ := List.mem_map.1 hp
    exact h w hw
  unfold assignAtTorch
  rw [if_pos (by simp), hm]
  simp only [Except.map, List.zip_map', List.map_id']
  rw [List.length_map, ← scatter_perm xs hn (filterMap_putOrder_perm num ws).symm]

end Writes

/-! ## Broadcasting -/

section Broadcast

variable {α : Type} [Zero α]

/-- The row and the column of a cell, read through the broadcast rule. -/
theorem broadcast_row {r k i : ℕ} (hi : i < r * k) : (if r = 1 then 0 else i / k) = i / k := by
  split
  · next h1 =>
    subst h1
    rw [Nat.one_mul] at hi
    exact (Nat.div_eq_of_lt hi).symm
  · rfl

/-- A row of one column broadcasts to its only column. -/
theorem broadcast_col (k i : ℕ) : (if k = 1 then 0 else i % k) = i % k := by
  split
  · next h1 =>
    subst h1
    exact (Nat.mod_one i).symm
  · rfl

/-- Two matrices of the same size. -/
theorem broadcastMatrix_same {op : α → α → α} {r k : ℕ} {x y : List α} (hx : x.length = r * k) (hy : y.length = r * k) :
    broadcastMatrix op r k x r k y = .ok (List.zipWith op x y) := by
  unfold broadcastMatrix broadcastDim
  rw [if_pos rfl, if_pos rfl]
  simp only [Except.bind, Except.map]
  refine congrArg Except.ok (ext_cell (by simp [hx, hy]) fun i hi => ?_)
  rw [length_tabulate] at hi
  rw [cell_tabulate _ hi, broadcast_row hi, broadcast_col, Nat.div_add_mod', cell_zipWith (by omega) (by omega)]

/-- A column vector against a matrix: one factor a row. -/
theorem broadcastMatrix_rows {op : α → α → α} {r k : ℕ} (x y : List α) :
    broadcastMatrix op r k x r 1 y = .ok (tabulate (r * k) fun i => op (cell x i) (cell y (i / k))) := by
  have hdim : broadcastDim k 1 = .ok k := by
    unfold broadcastDim
    split
    · rfl
    · exact if_pos rfl
  unfold broadcastMatrix
  rw [hdim, broadcastDim, if_pos rfl]
  simp only [Except.bind, Except.map]
  refine congrArg Except.ok (tabulate_congr fun i hi => ?_)
  rw [broadcast_row hi, broadcast_col, Nat.div_add_mod', if_pos trivial, Nat.mul_one, Nat.add_zero]

/-- A row vector against a matrix: one factor a column. -/
theorem broadcastMatrix_cols {op : α → α → α} {r k : ℕ} (x y : List α) :
    broadcastMatrix op r k x 1 k y = .ok (tabulate (r * k) fun i => op (cell x i) (cell y (i % k))) := by
  have hdim : broadcastDim r 1 = .ok r := by
    unfold broadcastDim
    split
    · rfl
    · exact if_pos rfl
  unfold broadcastMatrix
  rw [hdim, broadcastDim, if_pos rfl]
  simp only [Except.bind, Except.map]
  refine congrArg Except.ok (tabulate_congr fun i hi => ?_)
  rw [broadcast_row hi, broadcast_col, Nat.div_add_mod', if_pos trivial, Nat.zero_mul, Nat.zero_add]

end Broadcast

/-! ## Salient values -/

section Salient

variable {α : Type} [Field α] [LinearOrder α] [IsStrictOrderedRing α] [FloorRing α]

/-- The masked positions and values of the source are the salient writes. -/
theorem salientPositions_zip {n bs : ℕ} {idx : List ℕ} {w : List α} (hw : w.length = idx.length) :
    (((salientPositions bs (ints idx)).zip w).filter fun p => decide (p.1 < (n : ℤ))) =
      (salientWrites n bs idx w).map fun p => ((p.1 : ℤ), p.2) := by
  have hpos : salientPositions bs (ints idx) = (List.range idx.length).map fun b => ((b * bs + cell idx b : ℕ) : ℤ) := by
    unfold salientPositions
    rw [length_ints]
    apply List.map_congr_left
    intro b hb
    rw [List.mem_range] at hb
    rw [ints, cell_map hb]
    push_cast
    rfl
  have hvals : w = (List.range idx.length).map (cell w) := by
    rw [← hw]
    exact (tabulate_cell w).symm
  conv_lhs => rw [hpos, hvals]
  rw [List.zip_map', salientWrites, List.filter_map, List.filter_map, List.map_map]
  congr 1
  apply List.filter_congr
  intro b _
  simp only [Function.comp_apply, Nat.cast_lt]

theorem salientWrites_lt {n bs : ℕ} {idx : List ℕ} {w : List α} : ∀ p ∈ salientWrites n bs idx w, p.1 < n :=
  fun _ hp => by simpa using (List.mem_filter.1 hp).2

/-- The positions of integer writes are the positions, as integers. -/
theorem map_fst_cast (ws : List (ℕ × α)) :
    (ws.map fun p => ((p.1 : ℤ), p.2)).map Prod.fst = ints (ws.map Prod.fst) := by
  rw [ints, List.map_map, List.map_map]
  rfl

/-- The values of integer writes are the values. -/
theorem map_snd_cast (ws : List (ℕ × α)) : (ws.map fun p => ((p.1 : ℤ), p.2)).map Prod.snd = ws.map Prod.snd := by
  rw [List.map_map]
  rfl

/-- What the masked assignment of the source writes. -/
theorem injectSalient_eq {d w : List α} {idx : List ℕ} {bs : ℕ} (hw : w.length = idx.length) :
    injectSalient d (ints idx) w bs = .ok (scatter d (salientWrites d.length bs idx w)) := by
  unfold injectSalient
  rw [if_neg (by rw [length_ints, hw]; simp)]
  simp only [salientPositions_zip hw, map_fst_cast, map_snd_cast]
  exact assignAt_writes salientWrites_lt

/-- A salient place determines its block. -/
theorem salient_place {b j bs : ℕ} (hj : j < bs) : (b * bs + j) / bs = b ∧ (b * bs + j) % bs = j := by
  have hbs : 0 < bs := by omega
  refine ⟨?_, ?_⟩
  · rw [Nat.mul_comm, Nat.mul_add_div hbs, Nat.div_eq_of_lt hj, Nat.add_zero]
  · rw [Nat.mul_comm, Nat.mul_add_mod, Nat.mod_eq_of_lt hj]

/-- No two salient writes meet: each block has its own. -/
theorem salientWrites_nodup {n bs : ℕ} {idx : List ℕ} {w : List α} (hidx : ∀ j ∈ idx, j < bs) :
    ((salientWrites n bs idx w).map Prod.fst).Nodup := by
  rw [salientWrites, List.filter_map, List.map_map]
  apply List.Nodup.map_on _ (List.nodup_range.filter _)
  intro b hb b' hb' he
  have hbl := List.mem_range.1 (List.mem_filter.1 hb).1
  have hbl' := List.mem_range.1 (List.mem_filter.1 hb').1
  rw [← (salient_place (b := b) (hidx _ (cell_mem hbl))).1, ← (salient_place (b := b') (hidx _ (cell_mem hbl'))).1]
  exact congrArg (· / bs) he

/-- The same on torch. -/
theorem injectSalientTorch_eq (num : Numerics α) {d w : List α} {idx : List ℕ} {bs : ℕ} (hw : w.length = idx.length)
    (hidx : ∀ j ∈ idx, j < bs) :
    injectSalientTorch num d (ints idx) w bs = .ok (scatter d (salientWrites d.length bs idx w)) := by
  unfold injectSalientTorch
  rw [if_neg (by rw [length_ints, hw]; simp)]
  simp only [salientPositions_zip hw, map_fst_cast, map_snd_cast]
  exact assignAtTorch_writes num salientWrites_lt (salientWrites_nodup hidx)

/-- Salient values injected into a stream: each block has one place of its own. -/
theorem cell_salientWrites {d w : List α} {idx : List ℕ} {bs i : ℕ} (hbs : 0 < bs)
    (hcount : idx.length = ceilDiv d.length bs) (hidx : ∀ j ∈ idx, j < bs) (hi : i < d.length) :
    cell (scatter d (salientWrites d.length bs idx w)) i =
      if i % bs = cell idx (i / bs) then cell w (i / bs) else cell d i := by
  have hplace : ∀ b < idx.length, (b * bs + cell idx b) / bs = b ∧ (b * bs + cell idx b) % bs = cell idx b :=
    fun b hb => salient_place (hidx _ (cell_mem hb))
  have hblock : i / bs < idx.length := by
    rw [hcount]
    exact div_lt_ceilDiv hbs hi
  rw [cell_scatter _ _ hi]
  by_cases h : i % bs = cell idx (i / bs)
  · have hmem : (i, cell w (i / bs)) ∈ salientWrites d.length bs idx w := by
      refine List.mem_filter.2 ⟨List.mem_map.2 ⟨i / bs, List.mem_range.2 hblock, ?_⟩, by simpa using hi⟩
      rw [← h, Nat.div_add_mod']
    rw [lastWrite_of_mem (salientWrites_nodup hidx) hmem, if_pos h]
    rfl
  · rw [lastWrite_eq_none, if_neg h]
    · rfl
    · intro p hp he
      obtain ⟨b, hb, rfl⟩ := List.mem_map.1 (List.mem_filter.1 hp).1
      have hp := hplace b (List.mem_range.1 hb)
      simp only at he
      rw [he] at hp
      rw [hp.1] at h
      exact h hp.2

end Salient

/-! ## The stage sum -/

section Stages

variable {α : Type} [Field α] [LinearOrder α] [IsStrictOrderedRing α] [FloorRing α]

@[simp] theorem length_values (s : StageContents α) : s.values.length = s.indices.length * s.width :=
  length_gather s.row_width s.index_lt

/-- One stage of the sum: its arrays are read, its rows are gathered, and they have the length of the sum. -/
theorem stage_step {num : Numerics α} {store : Store α} {g padded : ℕ} {stage : StageMeta} {s : StageContents α}
    {acc : List α} (h : HoldsStage num store g padded stage s) (hacc : acc.length = s.indices.length * s.width) :
    ((readStageArrays num store stage g padded).bind fun (cb, idxs) =>
      (takeRows cb idxs).bind fun rows => addInto acc rows.flatten) = .ok (List.zipWith (· + ·) acc s.values) := by
  rw [h.2]
  simp only [Except.bind]
  rw [takeRows_ints s.index_lt]
  simp only
  have hlen : acc.length = ((s.indices.map fun i => s.codebook.getD i []).flatten).length := by
    rw [hacc]
    exact (length_values s).symm
  unfold addInto
  rw [if_pos hlen]
  rfl

/-- The loop over the stages. -/
theorem stages_loop {num : Numerics α} {store : Store α} {g padded : ℕ} {stages : List StageMeta}
    {contents : List (StageContents α)} (h : List.Forall₂ (HoldsStage num store g padded) stages contents)
    (hcount : ∀ s ∈ contents, s.indices.length * s.width = padded) :
    ∀ acc : List α, acc.length = padded →
      stages.foldlM (fun acc stage =>
        (readStageArrays num store stage g padded).bind fun (cb, idxs) =>
          (takeRows cb idxs).bind fun rows => addInto acc rows.flatten) acc =
        .ok (contents.foldl (fun acc s => List.zipWith (· + ·) acc s.values) acc) := by
  induction h with
  | nil =>
    intro acc _
    rfl
  | @cons stage s stages contents hs _ ih =>
    intro acc hacc
    have hsc := hcount s (by simp)
    rw [List.foldlM_cons, stage_step hs (by omega), List.foldl_cons]
    exact ih (fun s hs => hcount s (List.mem_cons_of_mem _ hs)) _ (by rw [List.length_zipWith, length_values]; omega)

/-- Over a store that holds the contents, the stages decode to their sum. -/
theorem decodeStages_eq {num : Numerics α} {store : Store α} {tm : TensorMeta} {c : TensorContents α}
    (h : Holds num store tm c) : decodeStages num store tm = .ok c.sum := by
  have hpad : ceilDiv tm.paddedValues tm.groupSize * tm.groupSize = c.padded := by
    rw [ceilDiv_mul h.group_pos, h.padded, padding_eq_zero h.group_dvd, Nat.add_zero]
  unfold decodeStages
  rw [if_neg h.group_pos.ne', hpad]
  have hcount := c.stage_count
  have hstages := h.stages
  rw [h.padded] at hstages ⊢
  exact stages_loop hstages hcount _ (List.length_replicate ..)

/-- The sum has the padded length. -/
theorem length_sum (c : TensorContents α) : c.sum.length = c.padded := by
  have hloop : ∀ (ss : List (StageContents α)) (acc : List α), (∀ s ∈ ss, s.indices.length * s.width = c.padded) →
      acc.length = c.padded → (ss.foldl (fun acc s => List.zipWith (· + ·) acc s.values) acc).length = c.padded := by
    intro ss
    induction ss with
    | nil => exact fun acc _ hacc => hacc
    | cons s ss ih =>
      intro acc hss hacc
      rw [List.foldl_cons]
      apply ih _ fun s hs => hss s (List.mem_cons_of_mem _ hs)
      rw [List.length_zipWith, length_values, hss s (by simp), hacc, Nat.min_self]
  exact hloop c.stages _ c.stage_count (List.length_replicate ..)

theorem length_truncated (c : TensorContents α) : (c.sum.take c.count).length = c.count := by
  rw [List.length_take, length_sum]
  exact Nat.min_eq_left c.packed_le

@[simp] theorem length_injected (c : TensorContents α) : c.injected.length = c.count := by
  rw [TensorContents.injected, length_scatter, length_scatter, length_truncated]

end Stages

/-! ## The steps on numpy -/

section Steps

variable {α : Type} [Field α] [LinearOrder α] [IsStrictOrderedRing α] [FloorRing α]
variable {num : Numerics α} {store : Store α} {tm : TensorMeta} {c : TensorContents α}

theorem ints_isEmpty (ps : List ℕ) : (ints ps).isEmpty = ps.isEmpty := by
  cases ps <;> rfl

/-- Over a store that holds the contents, the outliers are written over the sum. -/
theorem decodeOutliers_eq (h : Holds num store tm c) {x : List α} (hx : x.length = c.count) :
    decodeOutliers num store tm x = .ok (scatter x c.outliers) := by
  have ho := h.outliers
  unfold decodeOutliers
  cases hm : tm.outliers with
  | none =>
    rw [hm] at ho
    rw [show c.outliers = [] from ho]
    rfl
  | some outl =>
    rw [hm] at ho
    have hread : readOutliersOf num store outl = .ok (ints (c.outliers.map Prod.fst), c.outliers.map Prod.snd) := ho
    simp only [hread, Except.bind, ints_isEmpty]
    cases hw : c.outliers with
    | nil => rfl
    | cons w ws =>
      rw [if_neg (by simp), ← hw, assignAt_writes fun w hw => by rw [hx]; exact c.outlier_lt w hw]

/-- Over a store that holds the contents, the pillars are written after the outliers. -/
theorem decodePillars_eq (h : Holds num store tm c) {x : List α} (hx : x.length = c.count) :
    decodePillars num store tm x = .ok (scatter x c.pillars) := by
  have ho := h.pillars
  unfold decodePillars
  cases hm : tm.pillars with
  | none =>
    rw [hm] at ho
    rw [show c.pillars = [] from ho]
    rfl
  | some pillars =>
    rw [hm] at ho
    have hread : readPillarsOf num store pillars = .ok (ints (c.pillars.map Prod.fst), c.pillars.map Prod.snd) := ho
    simp only [hread, Except.bind, ints_isEmpty]
    cases hw : c.pillars with
    | nil => rfl
    | cons w ws =>
      rw [if_neg (by simp), ← hw, assignAt_writes fun w hw => by rw [hx]; exact c.pillar_lt w hw]

/-- The block of a matrix that is rotated by Hadamard. -/
theorem hadamardBlock_spec (hr : c.rotation = .hadamard) :
    ∃ m, hadamardBlock c.cols = 2 ^ m ∧ 2 ^ m ∣ c.cols ∧ hadamardBlockSize c.cols hadamardMinBlock = .ok (2 ^ m) := by
  obtain ⟨hc, b, hb⟩ := c.hadamard_block hr
  obtain ⟨m, rfl, hd⟩ := hadamardBlockSize_spec hc hb
  refine ⟨m, ?_, hd, hb⟩
  unfold hadamardBlockSize at hb
  unfold hadamardBlock
  split at hb
  · next hp =>
    rw [if_pos hp]
    exact Except.ok.inj hb
  · next hp =>
    split at hb
    · cases hb
    · rw [if_neg hp]
      exact Except.ok.inj hb

/-- A strategy undoes its rotation on a matrix of the right size, on either backend. -/
theorem unrotate_eq (backend : Backend) {x : List α} (hr : c.rotation ≠ .none) :
    unrotate num backend c.rotation c.rows c.cols c.seed x = .ok (c.unrotated num x) := by
  unfold TensorContents.unrotated
  cases hrot : c.rotation with
  | none => exact absurd hrot hr
  | orthogonal => rfl
  | hadamard =>
    obtain ⟨m, hm, hd, hb⟩ := hadamardBlock_spec hrot
    simp only [unrotate, unrotateHadamard, hb, Except.bind, hm]
    rw [blockFwht_ok num backend hd]
    simp only [fwhtLoop_two_pow, div_eq_inv_mul]

/-- Undoing the rotation keeps the length. -/
theorem length_unrotated {x : List α} (hx : x.length = c.count) : (c.unrotated num x).length = c.count := by
  unfold TensorContents.unrotated
  cases hrot : c.rotation with
  | none => exact hx
  | orthogonal => exact length_tabulate _ _
  | hadamard =>
    obtain ⟨m, hm, hd, -⟩ := hadamardBlock_spec hrot
    simp only [hm, fwhtLoop_two_pow, div_eq_inv_mul]
    have hw := @length_of_mem_rowsOf _ (c.rows * (c.cols / 2 ^ m)) (2 ^ m) x (by
      rw [length_blocks hd, hx]
      rfl)
    rw [length_flatten_of_width (width_fwht hw), List.length_map, length_rowsOf, length_blocks hd]
    rfl

/-- Over a store that holds the contents, the rotation of the entry is undone. -/
theorem decodeRotation_eq (h : Holds num store tm c) {x : List α} (hx : x.length = c.count) :
    decodeRotation num tm x = .ok (c.unrotated num x) := by
  unfold decodeRotation
  have hun : c.rotation ≠ .none → unrotateFlat num x tm.shape c.rotation tm.seed = .ok (c.unrotated num x) := by
    intro hr
    unfold unrotateFlat
    rw [h.shape]
    simp only [Except.bind]
    rw [List.take_of_length_le (by rw [hx]; exact le_refl _), if_neg (by rw [hx]; simp [TensorContents.count]), h.seed]
    exact unrotate_eq .numpy hr
  rw [h.rotation]
  cases hrot : c.rotation with
  | none =>
    unfold TensorContents.unrotated
    rw [hrot]
  | hadamard => rw [hrot] at hun; exact hun (by simp)
  | orthogonal => rw [hrot] at hun; exact hun (by simp)

/-- Block scales of the right count, on either backend. -/
theorem applyBlockScales_ok (backend : Backend) {x ss : List α} {n bs : ℕ} (hbs : 0 < bs) (hx : x.length = n)
    (hs : ss.length = ceilDiv n bs) :
    applyBlockScales backend x ss bs = .ok ((scaleRows bs (x ++ List.replicate (padding n bs) 0) ss).take n) := by
  have hpadded : (x ++ List.replicate (padding n bs) 0).length = ss.length * bs := by
    rw [List.length_append, List.length_replicate, hx, hs, ceilDiv_mul hbs]
  have hpad : (x ++ List.replicate (padding n bs) 0).length / bs = ss.length := by
    rw [hpadded, Nat.mul_div_cancel _ hbs]
  cases backend with
  | numpy =>
    simp only [applyBlockScales, applyBlockMaxScalesNumpy, hx, hpad]
    rw [if_neg hbs.ne', if_neg (by simp)]
  | torch =>
    have hscale : tabulate (ss.length * bs) (fun i =>
        cell (x ++ List.replicate (padding n bs) 0) i * cell ss (i / bs)) =
        scaleRows bs (x ++ List.replicate (padding n bs) 0) ss := by
      refine ext_cell (by rw [length_tabulate, length_scaleRows hpadded.ge]) fun i hi => ?_
      rw [length_tabulate] at hi
      rw [cell_tabulate _ hi, cell_scaleRows hbs hpadded.ge hi]
    simp only [applyBlockScales, applyBlockScalesTorch, hx, hpad]
    rw [if_neg hbs.ne', List.take_of_length_le (le_refl _), broadcastMatrix_rows, hscale]
    simp only [Except.map]
    split
    · next h0 =>
      have hfit : ss.length * bs = n := by rw [hs, ceilDiv_mul hbs, h0, Nat.add_zero]
      rw [List.take_of_length_le (by rw [length_scaleRows hpadded.ge, hfit])]
    · rfl

/-- Column scales of the right count, on either backend. -/
theorem applyColScales_ok (backend : Backend) {x ss : List α} {shape : List ℕ} {rows cols : ℕ}
    (hshape : rowsCols shape = .ok (rows, cols)) (hx : x.length = rows * cols) (hs : ss.length = cols) :
    applyColScales backend x shape ss = .ok (tabulate (rows * cols) fun i => cell x i * cell ss (i % cols)) := by
  have htake : x.take (rows * cols) = x := List.take_of_length_le hx.le
  cases backend with
  | numpy =>
    simp only [applyColScales, applyColL2ScalesNumpy, hshape, Except.bind, htake]
    rw [if_neg (by omega), if_neg (by omega), scaleCols, hx]
  | torch =>
    simp only [applyColScales, applyColScalesTorch, hshape, Except.bind, htake]
    rw [if_neg (by omega), hs]
    exact broadcastMatrix_cols x ss

/-- The block scales of the contents multiplied. -/
theorem length_blockScaled {x ss : List α} (hx : x.length = c.count) (hs : c.blockScales = some ss) :
    ((scaleRows c.blockSize (x ++ List.replicate (padding c.count c.blockSize) 0) ss).take c.count).length = c.count := by
  have hl := c.blockScales_length ss hs
  have hpad : (x ++ List.replicate (padding c.count c.blockSize) 0).length = ss.length * c.blockSize := by
    rw [List.length_append, List.length_replicate, hx, hl, ← ceilDiv_mul c.blockSize_pos]
    rfl
  rw [List.length_take, length_scaleRows hpad.ge, hl]
  exact Nat.min_eq_left (le_ceilDiv_mul c.blockSize_pos)

/-- Scaling keeps the length. -/
theorem length_scaled {x : List α} (hx : x.length = c.count) : (c.scaled x).length = c.count := by
  unfold TensorContents.scaled TensorContents.colScaled TensorContents.blockScaled
  cases hcol : c.colScales with
  | some ss => exact length_tabulate _ _
  | none =>
    cases hb : c.blockScales with
    | none => exact hx
    | some ss => exact length_blockScaled hx hb

/-- The three block modes. -/
theorem blockMode_eq (backend : Backend) (h : Holds num store tm c) {x ss : List α} (hx : x.length = c.count)
    (hb : c.blockScales = some ss) (hread : readScales num store tm = .ok ss) :
    ((readScales num store tm).bind fun scales => applyBlockScales backend x scales tm.blockSize) =
      .ok ((scaleRows c.blockSize (x ++ List.replicate (padding c.count c.blockSize) 0) ss).take c.count) := by
  rw [hread, h.blockSize]
  exact applyBlockScales_ok backend c.blockSize_pos hx (c.blockScales_length ss hb)

/-- Over a store that holds the contents, its scales are applied. -/
theorem decodeScales_eq (h : Holds num store tm c) {x : List α} (hx : x.length = c.count) :
    decodeScales num store tm x = .ok (c.scaled x) := by
  have hs := h.scales
  unfold HoldsScales at hs
  unfold decodeScales TensorContents.scaled TensorContents.colScaled TensorContents.blockScaled
  cases hn : tm.normalizationMode with
  | none =>
    rw [hn] at hs
    simp only [hs.1, hs.2]
  | awq =>
    rw [hn] at hs
    obtain ⟨hb, ss, hc, hread⟩ := hs
    simp only [hread, Except.bind, hb, hc]
    exact applyColScales_ok .numpy h.shape hx (c.colScales_length ss hc)
  | awqBlockMax =>
    rw [hn] at hs
    obtain ⟨⟨ss, hb, hread⟩, hcol⟩ := hs
    have hblock := blockMode_eq .numpy h hx hb hread
    rw [hread] at hblock
    simp only [Except.bind] at hblock
    simp only [hread, Except.bind, hblock, hb]
    cases hm : tm.awqColScales with
    | none =>
      rw [hm] at hcol
      rw [show c.colScales = none from hcol]
    | some awqMeta =>
      rw [hm] at hcol
      obtain ⟨ss', hc, hread'⟩ := hcol
      simp only [hread', hc]
      exact applyColScales_ok .numpy h.shape (length_blockScaled hx hb) (c.colScales_length ss' hc)
  | blockMax | channelBlockMax | slrqBlock =>
    rw [hn] at hs
    obtain ⟨hc, ss, hb, hread⟩ := hs
    simp only [hb, hc]
    exact blockMode_eq .numpy h hx hb hread

/-- Over a store that holds the contents, the salient values are put back. -/
theorem decodeSalient_eq (h : Holds num store tm c) {x : List α} (hx : x.length = c.count) :
    decodeSalient num store tm x = .ok (c.reinjected x) := by
  have hs := h.salient
  unfold HoldsSalient at hs
  unfold decodeSalient TensorContents.reinjected
  cases hm : tm.salient with
  | none =>
    rw [hm] at hs
    rw [show c.salient = none from hs]
  | some m =>
    rw [hm] at hs
    obtain ⟨idx, vals, hc, hread⟩ := hs
    have hspec := c.salient_spec idx vals hc
    simp only [hread, Except.bind, hc, ints_isEmpty]
    cases idx with
    | nil => rfl
    | cons j idx =>
      rw [if_neg (by simp), h.blockSize, injectSalient_eq hspec.1, hx]

@[simp] theorem length_matmulT (rows inner cols : ℕ) (a b : List α) : (matmulT rows inner cols a b).length = rows * cols :=
  length_tabulate _ _

/-- Over a store that holds the contents, its correction is added. -/
theorem decodeLowrank_eq (h : Holds num store tm c) {x : List α} (hx : x.length = c.count) :
    decodeLowrank num store tm x = .ok (c.corrected x) := by
  have hl := h.lowrank
  unfold HoldsLowrank at hl
  unfold decodeLowrank TensorContents.corrected
  cases hm : tm.lowrank with
  | none =>
    rw [hm] at hl
    rw [show c.lowrank = none from hl]
  | some lr =>
    rw [hm] at hl
    obtain ⟨a, b, hc, hread⟩ := hl
    obtain ⟨-, ha, hb⟩ := c.lowrank_length lr.rank a b hc
    have hx' : x.length = c.rows * c.cols := hx
    simp only [hread, Except.bind, hc, applyLowrankNumpy, h.shape]
    rw [List.take_of_length_le hx'.le, reshape_ok hx']
    simp only
    rw [flatten_rowsOf hx', ha, hb, broadcastMatrix_same hx' (by simp)]

/-- Adding the correction keeps the length. -/
theorem length_corrected {x : List α} (hx : x.length = c.count) : (c.corrected x).length = c.count := by
  unfold TensorContents.corrected
  cases hl : c.lowrank with
  | none => exact hx
  | some l =>
    simp only [List.length_zipWith, length_matmulT, hx]
    exact Nat.min_self _

/-- When the correction leaves a matrix as it is. -/
theorem corrected_eq_self {x : List α} (hx : x.length = c.count) : c.corrected x = x ↔ c.Uncorrected := by
  unfold TensorContents.corrected TensorContents.Uncorrected
  cases hl : c.lowrank with
  | none => simp
  | some l =>
    obtain ⟨rank, a, b⟩ := l
    have hx' : x.length = c.rows * c.cols := hx
    have hlen : (List.zipWith (· + ·) x (matmulT c.rows rank c.cols a.flatten b.flatten)).length = c.rows * c.cols := by
      rw [List.length_zipWith, length_matmulT, hx', Nat.min_self]
    have hcell : ∀ i < c.rows * c.cols,
        cell (List.zipWith (· + ·) x (matmulT c.rows rank c.cols a.flatten b.flatten)) i = cell x i +
          ((List.range rank).map fun k => cell a.flatten (i / c.cols * rank + k) *
            cell b.flatten (i % c.cols * rank + k)).sum := by
      intro i hi
      rw [cell_zipWith (by omega) (by rw [length_matmulT]; omega), matmulT, cell_tabulate _ hi]
    constructor
    · intro he rank' a' b' hs i hi j hj
      obtain ⟨rfl, rfl, rfl⟩ : rank = rank' ∧ a = a' ∧ b = b' := by simpa using hs
      have hlt : i * c.cols + j < c.rows * c.cols := by
        calc i * c.cols + j < i * c.cols + c.cols := by omega
          _ = (i + 1) * c.cols := by ring
          _ ≤ c.rows * c.cols := Nat.mul_le_mul_right _ hi
      have hone := hcell _ hlt
      have hdm := salient_place (b := i) hj
      simp only at he
      rw [he, hdm.1, hdm.2] at hone
      exact left_eq_add.1 hone
    · intro hz
      refine ext_cell (by rw [hlen, hx']) fun i hi => ?_
      rw [hlen] at hi
      have hcols : 0 < c.cols := Nat.pos_of_mul_pos_left (by omega : 0 < c.rows * c.cols)
      rw [hcell i hi, hz rank a b rfl (i / c.cols) (Nat.div_lt_of_lt_mul (by rwa [Nat.mul_comm] at hi)) (i % c.cols)
        (Nat.mod_lt _ hcols), add_zero]

theorem length_reinjected {x : List α} (hx : x.length = c.count) : (c.reinjected x).length = c.count := by
  unfold TensorContents.reinjected
  cases hs : c.salient with
  | none => exact hx
  | some s => rw [length_scatter, hx]

@[simp] theorem length_reconstruct : (c.reconstruct num).length = c.count :=
  length_corrected (length_reinjected (length_scaled (length_unrotated (length_injected c))))

/-- **`_decode_tensor` returns the matrix its entry holds.** -/
theorem decodeTensor_eq (h : Holds num store tm c) : decodeTensor num store tm = .ok (c.reconstruct num) := by
  have htrunc : c.sum.take tm.packedValues = c.sum.take c.count := by rw [h.packed]; rfl
  unfold decodeTensor
  rw [decodeStages_eq h]
  simp only [Except.bind]
  rw [htrunc, decodeOutliers_eq h (length_truncated c)]
  simp only
  rw [decodePillars_eq h (by rw [length_scatter, length_truncated])]
  simp only
  rw [show scatter (scatter (c.sum.take c.count) c.outliers) c.pillars = c.injected from rfl, decodeRotation_eq h (length_injected c)]
  simp only
  rw [decodeScales_eq h (length_unrotated (length_injected c))]
  simp only
  rw [decodeSalient_eq h (length_scaled (length_unrotated (length_injected c)))]
  exact decodeLowrank_eq h (length_reinjected (length_scaled (length_unrotated (length_injected c))))

/-! ## Entries that need no more than stages, outliers, block scales and salient values -/

theorem length_blockScaled_eq {x : List α} (hx : x.length = c.count) : (c.blockScaled x).length = c.count := by
  unfold TensorContents.blockScaled
  cases hb : c.blockScales with
  | none => exact hx
  | some ss => exact length_blockScaled hx hb

/-- A value times the scale of its block. -/
theorem cell_blockScaled {x : List α} (hx : x.length = c.count) {p : ℕ} (hp : p < c.count) :
    cell (c.blockScaled x) p = cell x p * c.scaleOf p := by
  unfold TensorContents.blockScaled TensorContents.scaleOf
  cases hb : c.blockScales with
  | none => exact (mul_one _).symm
  | some ss =>
    have hl := c.blockScales_length ss hb
    have hpad : ss.length * c.blockSize = (x ++ List.replicate (padding c.count c.blockSize) 0).length := by
      rw [List.length_append, List.length_replicate, hx, hl, ← ceilDiv_mul c.blockSize_pos]
      rfl
    have hlt : p < ss.length * c.blockSize := by
      rw [hl]
      exact hp.trans_le (le_ceilDiv_mul c.blockSize_pos)
    simp only
    rw [cell_take hp, cell_scaleRows c.blockSize_pos hpad.le hlt, cell_pad]

/-- Putting salient values back is one run of writes. -/
theorem reinjected_eq (x : List α) : c.reinjected x = scatter x c.salientOf := by
  unfold TensorContents.reinjected TensorContents.salientOf
  cases c.salient <;> rfl

/-- The matrix of a plain entry. -/
theorem reconstruct_plain (h : c.Plain) :
    c.reconstruct num = scatter (c.blockScaled (scatter (c.sum.take c.count) c.outliers)) c.salientOf := by
  have hinj : c.injected = scatter (c.sum.take c.count) c.outliers := by
    rw [TensorContents.injected, h.pillars]
    rfl
  have hun : c.unrotated num c.injected = c.injected := by
    unfold TensorContents.unrotated
    rw [h.rotation]
  have hcol : ∀ x, c.colScaled x = x := by
    intro x
    unfold TensorContents.colScaled
    rw [h.colScales]
  have hlen : (c.reinjected (c.scaled c.injected)).length = c.count :=
    length_reinjected (length_scaled (length_injected c))
  rw [TensorContents.reconstruct, hun, (corrected_eq_self hlen).2 h.lowrank, reinjected_eq, TensorContents.scaled, hcol, hinj]

/-- **One value of a plain entry**: salient, else an outlier scaled, else what the stages sum to, scaled. -/
theorem cell_reconstruct_plain (h : c.Plain) {p : ℕ} (hp : p < c.count) :
    cell (c.reconstruct num) p = ((lastWrite c.salientOf p).or ((lastWrite c.outliers p).map (· * c.scaleOf p))).getD
      (cell c.sum p * c.scaleOf p) := by
  have hlen : (scatter (c.sum.take c.count) c.outliers).length = c.count := by rw [length_scatter, length_truncated]
  rw [reconstruct_plain h, cell_scatter _ _ (by rwa [length_blockScaled_eq hlen]), cell_blockScaled hlen hp,
    cell_scatter _ _ (by rwa [length_truncated]), cell_take hp]
  cases lastWrite c.salientOf p with
  | some v => rfl
  | none => cases lastWrite c.outliers p <;> rfl

end Steps

/-! ## The steps on torch -/

section TorchSteps

variable {α : Type} [Field α] [LinearOrder α] [IsStrictOrderedRing α] [FloorRing α]
variable {num : Numerics α} {store : Store α} {tm : TensorMeta} {c : TensorContents α}

/-- The torch decoder writes the outliers the numpy one writes. -/
theorem decodeOutliersTorch_eq (h : Holds num store tm c) (hn : (c.outliers.map Prod.fst).Nodup) {x : List α}
    (hx : x.length = c.count) : decodeOutliersTorch num store tm x = .ok (scatter x c.outliers) := by
  have ho := h.outliers
  unfold decodeOutliersTorch
  cases hm : tm.outliers with
  | none =>
    rw [hm] at ho
    rw [show c.outliers = [] from ho]
    rfl
  | some outl =>
    rw [hm] at ho
    have hread : readOutliersOf num store outl = .ok (ints (c.outliers.map Prod.fst), c.outliers.map Prod.snd) := ho
    simp only [hread, Except.bind, ints_isEmpty]
    cases hw : c.outliers with
    | nil => rfl
    | cons w ws =>
      rw [if_neg (by simp), ← hw, assignAtTorch_writes num (fun w hw => by rw [hx]; exact c.outlier_lt w hw) hn]

/-- The torch decoder writes the pillars the numpy one writes. -/
theorem decodePillarsTorch_eq (h : Holds num store tm c) (hn : (c.pillars.map Prod.fst).Nodup) {x : List α}
    (hx : x.length = c.count) : decodePillarsTorch num store tm x = .ok (scatter x c.pillars) := by
  have ho := h.pillars
  unfold decodePillarsTorch
  cases hm : tm.pillars with
  | none =>
    rw [hm] at ho
    rw [show c.pillars = [] from ho]
    rfl
  | some pillars =>
    rw [hm] at ho
    have hread : readPillarsOf num store pillars = .ok (ints (c.pillars.map Prod.fst), c.pillars.map Prod.snd) := ho
    simp only [hread, Except.bind, ints_isEmpty]
    cases hw : c.pillars with
    | nil => rfl
    | cons w ws =>
      rw [if_neg (by simp), ← hw, assignAtTorch_writes num (fun w hw => by rw [hx]; exact c.pillar_lt w hw) hn]

/-- The torch decoder undoes the same rotation. -/
theorem decodeRotationTorch_eq (h : Holds num store tm c) {x : List α} (hx : x.length = c.count) :
    decodeRotationTorch num tm x = .ok (c.unrotated num x) := by
  have hx' : x.length = c.rows * c.cols := hx
  have hun : c.rotation ≠ .none → ((rowsCols tm.shape).bind fun p =>
      (reshape p.1 p.2 (x.take (p.1 * p.2))).bind fun arr =>
        unrotate num .torch c.rotation p.1 p.2 tm.seed arr.flatten) = .ok (c.unrotated num x) := by
    intro hr
    rw [h.shape]
    simp only [Except.bind]
    rw [List.take_of_length_le hx'.le, reshape_ok hx']
    simp only
    rw [flatten_rowsOf hx', h.seed]
    exact unrotate_eq .torch hr
  unfold decodeRotationTorch
  rw [h.rotation]
  cases hrot : c.rotation with
  | none =>
    unfold TensorContents.unrotated
    rw [hrot]
  | hadamard => rw [hrot] at hun; exact hun (by simp)
  | orthogonal => rw [hrot] at hun; exact hun (by simp)

/-- The torch decoder applies the same scales. -/
theorem decodeScalesTorch_eq (h : Holds num store tm c) {x : List α} (hx : x.length = c.count) :
    decodeScalesTorch num store tm x = .ok (c.scaled x) := by
  have hs := h.scales
  unfold HoldsScales at hs
  unfold decodeScalesTorch TensorContents.scaled TensorContents.colScaled TensorContents.blockScaled
  cases hn : tm.normalizationMode with
  | none =>
    rw [hn] at hs
    simp [storesBlockScales, hs.1, hs.2]
  | awq =>
    rw [hn] at hs
    obtain ⟨hb, ss, hc, hread⟩ := hs
    simp only [storesBlockScales, hread, Except.bind, hb, hc]
    exact applyColScales_ok .torch h.shape hx (c.colScales_length ss hc)
  | awqBlockMax =>
    rw [hn] at hs
    obtain ⟨⟨ss, hb, hread⟩, hcol⟩ := hs
    have hblock := blockMode_eq .torch h hx hb hread
    rw [hread] at hblock
    simp only [Except.bind] at hblock
    simp only [storesBlockScales, hread, Except.bind, hblock, hb, if_true]
    cases hm : tm.awqColScales with
    | none =>
      rw [hm] at hcol
      rw [show c.colScales = none from hcol]
    | some awqMeta =>
      rw [hm] at hcol
      obtain ⟨ss', hc, hread'⟩ := hcol
      simp only [hread', hc]
      exact applyColScales_ok .torch h.shape (length_blockScaled hx hb) (c.colScales_length ss' hc)
  | blockMax | channelBlockMax | slrqBlock =>
    rw [hn] at hs
    obtain ⟨hc, ss, hb, hread⟩ := hs
    have hblock := blockMode_eq .torch h hx hb hread
    rw [hread] at hblock
    simp only [Except.bind] at hblock
    simp [storesBlockScales, hread, Except.bind, hblock, hb, hc]

/-- The torch decoder puts back the same salient values. -/
theorem decodeSalientTorch_eq (h : Holds num store tm c) {x : List α} (hx : x.length = c.count) :
    decodeSalientTorch num store tm x = .ok (c.reinjected x) := by
  have hs := h.salient
  unfold HoldsSalient at hs
  unfold decodeSalientTorch TensorContents.reinjected
  cases hm : tm.salient with
  | none =>
    rw [hm] at hs
    rw [show c.salient = none from hs]
  | some m =>
    rw [hm] at hs
    obtain ⟨idx, vals, hc, hread⟩ := hs
    have hspec := c.salient_spec idx vals hc
    simp only [hread, Except.bind, hc]
    rw [h.blockSize, injectSalientTorch_eq num hspec.1 hspec.2.2, hx]

/-- The torch decoder adds the same correction. -/
theorem decodeLowrankTorch_eq (h : Holds num store tm c) {x : List α} (hx : x.length = c.count) :
    decodeLowrankTorch num store tm x = .ok (c.corrected x) := by
  have hl := h.lowrank
  unfold HoldsLowrank at hl
  unfold decodeLowrankTorch TensorContents.corrected
  cases hm : tm.lowrank with
  | none =>
    rw [hm] at hl
    rw [show c.lowrank = none from hl]
  | some lr =>
    rw [hm] at hl
    obtain ⟨a, b, hc, hread⟩ := hl
    obtain ⟨hr, ha, hb⟩ := c.lowrank_length lr.rank a b hc
    have hx' : x.length = c.rows * c.cols := hx
    have hcols : x.length / c.rows = c.cols := by rw [hx', Nat.mul_div_cancel_left _ hr]
    simp only [hread, Except.bind, hc, h.shape]
    rw [if_neg hr.ne', hcols, List.take_of_length_le hx'.le, ha, hb, broadcastMatrix_same hx' (by simp)]

/-- The product of a shape is the count of its matrix. -/
theorem rowsCols_prod {shape : List ℕ} {rows cols : ℕ} (h : rowsCols shape = .ok (rows, cols)) : shape.prod = rows * cols := by
  cases shape with
  | nil => cases h
  | cons r rest =>
    have := Except.ok.inj h
    rw [Prod.mk.injEq] at this
    rw [List.prod_cons, this.1, this.2]

/-- **`_decode_tensor_torch` returns the matrix its entry holds**, where no escape position comes twice. -/
theorem decodeTensorTorch_eq (h : Holds num store tm c) (ho : (c.outliers.map Prod.fst).Nodup)
    (hp : (c.pillars.map Prod.fst).Nodup) : decodeTensorTorch num store tm = .ok (c.reconstruct num) := by
  have htrunc : c.sum.take tm.packedValues = c.sum.take c.count := by rw [h.packed]; rfl
  have hlen : (c.reconstruct num).length = tm.shape.prod := by
    rw [length_reconstruct, rowsCols_prod h.shape]
    rfl
  unfold decodeTensorTorch
  rw [decodeStages_eq h]
  simp only [Except.bind]
  rw [htrunc, decodeOutliersTorch_eq h ho (length_truncated c)]
  simp only
  rw [decodePillarsTorch_eq h hp (by rw [length_scatter, length_truncated])]
  simp only
  rw [show scatter (scatter (c.sum.take c.count) c.outliers) c.pillars = c.injected from rfl,
    decodeRotationTorch_eq h (length_injected c)]
  simp only
  rw [decodeScalesTorch_eq h (length_unrotated (length_injected c))]
  simp only
  rw [decodeSalientTorch_eq h (length_scaled (length_unrotated (length_injected c)))]
  simp only
  rw [decodeLowrankTorch_eq h (length_reinjected (length_scaled (length_unrotated (length_injected c))))]
  exact if_pos hlen

end TorchSteps

end DecodeAux

end Orka
