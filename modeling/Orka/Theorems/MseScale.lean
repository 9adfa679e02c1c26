import Orka.MseScale
import Orka.Lemmas.Normalize
import Orka.Lib.HalfGrid
import Orka.Lib.LeastSquares

/-!
# Refined scales do not increase the error

The least-squares factor of a block is the vertex of its error. Rounding the new scale to binary16 goes to the nearest number of the
grid, and the old scale is on the grid: the new scale is never farther from the vertex than the old one.
-/

namespace Orka

open Flat Steps LeastSquares Binary16 NormalizeAux

set_option linter.unusedSectionVars false

variable {α : Type} [Field α] [LinearOrder α] [IsStrictOrderedRing α] [FloorRing α]

/-! ## What the scales are measured by -/

namespace ScaleCandidate

variable (c : ScaleCandidate α)

/-- The positions that a sidecar overrides, in `nb` blocks of `bs`: those of the salient weights, one of each block, and those of the
outliers. A list of salient indices that does not have one for each block names no position. -/
def overriddenPositions (nb bs : ℕ) : List ℤ :=
  (match c.salientIndices with
    | none => []
    | some sal => if sal.length = nb then tabulate nb fun b => ((b * bs : ℕ) : ℤ) + cell sal b else []) ++
  c.outlierPositions.getD []

/-- The squared error of block `b` at the scale `s`, between the old scale times the normalized weights `v` and `s` times the
reconstruction `r`, over the positions that no sidecar overrides. -/
def blockError (v r : List α) (nb bs : ℕ) (old : α) (b : ℕ) (s : α) : α :=
  ∑ j ∈ (Finset.range bs).filter fun j => ((b * bs + j : ℕ) : ℤ) ∉ c.overriddenPositions nb bs,
    (old * cell v (b * bs + j) - s * cell r (b * bs + j)) ^ 2

/-- Block `b` holds an outlier. -/
def HoldsOutlier (total bs b : ℕ) : Prop := ∃ p < total, (p : ℤ) ∈ c.outlierPositions.getD [] ∧ p / bs = b

end ScaleCandidate

/-! ## Rounding to storage -/

/-- What `_fp16_storage_roundtrip` leaves is written as it is. -/
theorem castFloats_roundtrip (values : List α) :
    castFloats (compactFloatDtype (fp16StorageRoundtrip values)) (fp16StorageRoundtrip values) = fp16StorageRoundtrip values := by
  unfold compactFloatDtype
  split
  · rfl
  · next hfits =>
    -- nothing overflows after the rounding, so it was done
    have hrounded : ∀ v ∈ fp16StorageRoundtrip values, round16 v = v := by
      intro v hv
      obtain ⟨x, hx, rfl⟩ := List.mem_map.1 hv
      unfold storageRound
      split
      · next hover =>
        exfalso
        refine hfits ?_
        have : fp16StorageRoundtrip values = values := by
          conv_rhs => rw [← List.map_id values]
          exact List.map_congr_left fun y _ => if_pos hover
        rwa [this]
      · exact round16_round16 x
    conv_rhs => rw [← List.map_id (fp16StorageRoundtrip values)]
    exact List.map_congr_left hrounded

/-- The sidecar of rounded values is read back as they are. -/
theorem readFloatVector_roundtrip (num : Numerics α) {store : Store α} {path : String} (values : List α)
    (h : store path = some (writeFloatVector (fp16StorageRoundtrip values)).1) :
    readFloatVector num store path (fp16StorageRoundtrip values).length (writeFloatVector (fp16StorageRoundtrip values)).2 =
      .ok (fp16StorageRoundtrip values) := by
  unfold readFloatVector readFloats openFile
  rw [h]
  simp only [writeFloatVector, ok_map, ok_bind, if_true, castFloats_roundtrip, ne_eq, not_true_eq_false, if_false]

/-- Storing does not take a value farther from where a number of the grid is not nearer. -/
theorem storageRound_near {values : List α} {x old : α} (hold : Grid old) :
    |storageRound values x - x| ≤ |old - x| := by
  unfold storageRound
  split
  · rw [sub_self, abs_zero]
    exact abs_nonneg _
  · rw [abs_sub_comm, abs_sub_comm old]
    exact abs_sub_round16_le hold x

/-- A half-precision value is stored as itself. -/
theorem storageRound_of_grid {values : List α} {x : α} (hx : Grid x) : storageRound values x = x := by
  unfold storageRound
  split
  · rfl
  · exact round16_of_grid hx

/-! ## The mask -/

theorem length_clearMask (mask : List α) (positions : List ℤ) : (clearMask mask positions).length = mask.length :=
  length_scatter _ _

/-- Clearing zeroes the positions and keeps the rest. -/
theorem cell_clearMask {mask : List α} {positions : List ℤ} {p : ℕ} (hp : p < mask.length) :
    cell (clearMask mask positions) p = if (p : ℤ) ∈ positions then 0 else cell mask p := by
  unfold clearMask
  rw [cell_scatter _ _ hp]
  split
  · next hmem =>
    cases hlast : lastWrite ((positions.filter fun q : ℤ => 0 ≤ q ∧ q < mask.length).map fun q => (q.toNat, (0 : α))) p with
    | none =>
      refine absurd rfl (ne_of_lastWrite_eq_none hlast (w := (p, 0)) (List.mem_map.2 ⟨p, List.mem_filter.2 ⟨hmem, ?_⟩, ?_⟩))
      · simpa using hp
      · rw [Int.toNat_natCast]
    | some v =>
      obtain ⟨q, -, hq⟩ := List.mem_map.1 (mem_of_lastWrite hlast)
      exact (congrArg Prod.snd hq).symm
  · next hmem =>
    rw [lastWrite_eq_none, Option.getD_none]
    intro w hw hwp
    obtain ⟨q, hq, rfl⟩ := List.mem_map.1 hw
    obtain ⟨hq, hrange⟩ := List.mem_filter.1 hq
    refine hmem ?_
    have : ((q.toNat : ℕ) : ℤ) = q := Int.toNat_of_nonneg (of_decide_eq_true hrange).1
    rwa [← hwp, this]

namespace ScaleCandidate

variable (c : ScaleCandidate α)

/-- The mask is zero exactly at the overridden positions. -/
theorem cell_lsMask {total nb bs p : ℕ} (hp : p < total) :
    cell (c.lsMask total nb bs) p = if (p : ℤ) ∈ c.overriddenPositions nb bs then 0 else 1 := by
  have hone : cell (List.replicate total (1 : α)) p = 1 := cell_replicate hp 1
  unfold lsMask overriddenPositions
  simp only [List.mem_append]
  -- the outliers are cleared after the salient positions
  have hclear : ∀ (mask : List α) (salient : List ℤ), mask.length = total →
      cell mask p = (if (p : ℤ) ∈ salient then 0 else 1) →
      cell (match c.outlierPositions with
        | none => mask
        | some op => clearMask mask op) p = if (p : ℤ) ∈ salient ∨ (p : ℤ) ∈ c.outlierPositions.getD [] then 0 else 1 := by
    intro mask salient hlength hmask
    cases c.outlierPositions with
    | none => simpa using hmask
    | some op =>
      simp only [Option.getD_some]
      rw [cell_clearMask (by rwa [hlength]), hmask]
      by_cases h : (p : ℤ) ∈ op <;> simp [h]
  cases c.salientIndices with
  | none => exact hclear _ [] List.length_replicate (by simpa using hone)
  | some sal =>
    by_cases hcount : sal.length = nb
    · simp only [if_pos hcount]
      refine hclear _ _ ((length_clearMask _ _).trans List.length_replicate) ?_
      rw [cell_clearMask (by rwa [List.length_replicate]), hone]
    · simp only [if_neg hcount]
      exact hclear _ [] List.length_replicate (by simpa using hone)

/-- The mask covers the blocks. -/
theorem length_lsMask (total nb bs : ℕ) : (c.lsMask total nb bs).length = total := by
  unfold lsMask
  have hclear : ∀ mask : List α, mask.length = total → (match c.outlierPositions with
      | none => mask
      | some op => clearMask mask op).length = total := by
    intro mask hmask
    cases c.outlierPositions with
    | none => exact hmask
    | some op => exact (length_clearMask _ _).trans hmask
  refine hclear _ ?_
  cases c.salientIndices with
  | none => exact List.length_replicate
  | some sal =>
    simp only
    split
    · exact (length_clearMask _ _).trans List.length_replicate
    · exact List.length_replicate

/-- A masked sum of a block goes over the positions that are not overridden. -/
theorem sum_masked_block {v r : List α} {nb bs b : ℕ} (hb : b < nb) (hv : v.length = nb * bs) (hr : r.length = nb * bs) :
    ∑ j ∈ Finset.range bs, cell (List.zipWith (· * ·) v (c.lsMask v.length nb bs)) (b * bs + j) *
        cell (List.zipWith (· * ·) r (c.lsMask v.length nb bs)) (b * bs + j) =
      ∑ j ∈ (Finset.range bs).filter fun j => ((b * bs + j : ℕ) : ℤ) ∉ c.overriddenPositions nb bs,
        cell v (b * bs + j) * cell r (b * bs + j) := by
  rw [Finset.sum_filter]
  refine Finset.sum_congr rfl fun j hj => ?_
  have hp : b * bs + j < nb * bs := by
    have := Nat.mul_le_mul_right bs (Nat.succ_le_of_lt hb)
    rw [Nat.succ_mul] at this
    have := Finset.mem_range.1 hj
    omega
  have hmask : b * bs + j < (c.lsMask v.length nb bs).length := by
    rw [length_lsMask]
    omega
  rw [cell_zipWith (by omega) hmask, cell_zipWith (by omega) hmask, c.cell_lsMask (by omega)]
  by_cases h : ((b * bs + j : ℕ) : ℤ) ∈ c.overriddenPositions nb bs
  · rw [if_pos h, if_neg (not_not.2 h), mul_zero, zero_mul]
  · rw [if_neg h, if_pos h, mul_one, mul_one]

/-- A block that holds an outlier is skipped. -/
theorem skipBlock_of_holdsOutlier {nb bs b : ℕ} (hb : b < nb) (h : c.HoldsOutlier (nb * bs) bs b) :
    (c.skipBlock (nb * bs) nb bs).getD b false = true := by
  obtain ⟨p, hp, hmem, hpb⟩ := h
  unfold skipBlock
  rw [getD_scatter _ _ _ (by rwa [List.length_replicate])]
  cases hlast : lastWrite (((c.outlierPositions.getD []).filter fun q : ℤ => 0 ≤ q ∧ q < (nb * bs : ℕ)).map
      fun q => (min (q.toNat / bs) (nb - 1), true)) b with
  | none =>
    refine absurd rfl (ne_of_lastWrite_eq_none hlast (w := (b, true)) (List.mem_map.2 ⟨p, List.mem_filter.2 ⟨hmem, ?_⟩, ?_⟩))
    · exact decide_eq_true ⟨by omega, by exact_mod_cast hp⟩
    · rw [Int.toNat_natCast, hpb, min_eq_left (by omega)]
  | some v =>
    obtain ⟨q, -, hq⟩ := List.mem_map.1 (mem_of_lastWrite hlast)
    exact (congrArg Prod.snd hq).symm

/-! ## One block -/

/-- The new scale is the old one, or the vertex of the error of a block that is not skipped. -/
theorem newScale_cases (scale num den : α) (skip : Bool) :
    newScale scale num den skip = scale ∨
      skip = false ∧ 0 < den ∧ newScale scale num den skip = scale * (num / den) := by
  have hkeep : ∀ s : α, (if lsScaleMinMagnitude < |s| then s else scale) = scale ∨
      (if lsScaleMinMagnitude < |s| then s else scale) = s := fun s => (ite_eq_or_eq _ _ _).symm
  cases skip with
  | true =>
    refine Or.inl ?_
    simp only [newScale, if_true, ite_self]
  | false =>
    by_cases hden : lsScaleDenomFloor < den
    · simp only [newScale, Bool.false_eq_true, if_false, if_pos hden]
      refine (hkeep _).imp id fun h => ⟨trivial, lt_trans ?_ hden, h⟩
      unfold lsScaleDenomFloor
      positivity
    · simp only [newScale, Bool.false_eq_true, if_neg hden, mul_one, ite_self]
      exact Or.inl trivial

/-- **One block.** The stored scale of a block has no more error than the scale it replaces. -/
theorem blockError_newScales_le {v r scales : List α} {nb bs b : ℕ} (hb : b < nb) (hv : v.length = nb * bs) (hr : r.length = nb * bs)
    (hgrid : Grid (cell scales b)) (values : List α) :
    c.blockError v r nb bs (cell scales b) b (storageRound values (cell (c.newScales scales v r nb bs) b)) ≤
      c.blockError v r nb bs (cell scales b) b (cell scales b) := by
  generalize hI : ((Finset.range bs).filter fun j => ((b * bs + j : ℕ) : ℤ) ∉ c.overriddenPositions nb bs) = I
  have herror : ∀ s, c.blockError v r nb bs (cell scales b) b s =
      sqError I (fun _ => 1) (fun j => cell scales b * cell v (b * bs + j)) (fun j => cell r (b * bs + j)) s := by
    intro s
    rw [blockError, hI, sqError]
    exact Finset.sum_congr rfl fun j _ => (one_mul _).symm
  rw [herror, herror]
  unfold newScales
  simp only
  rw [cell_tabulate _ hb, c.sum_masked_block hb hv hr, hI]
  have hden : ∑ j ∈ Finset.range bs, cell (List.zipWith (· * ·) r (c.lsMask v.length nb bs)) (b * bs + j) *
      cell (List.zipWith (· * ·) r (c.lsMask v.length nb bs)) (b * bs + j) =
      energy I (fun _ => 1) fun j => cell r (b * bs + j) := by
    have := c.sum_masked_block hb hr hr
    rw [hr, ← hv, hI] at this
    rw [this, energy]
    exact Finset.sum_congr rfl fun j _ => by rw [one_mul, sq]
  have hnum : cell scales b * ∑ j ∈ I, cell v (b * bs + j) * cell r (b * bs + j) =
      correlation I (fun _ => 1) (fun j => cell scales b * cell v (b * bs + j)) fun j => cell r (b * bs + j) := by
    rw [correlation, Finset.mul_sum]
    exact Finset.sum_congr rfl fun j _ => by rw [one_mul, mul_assoc]
  rw [hden]
  rcases newScale_cases (cell scales b) (∑ j ∈ I, cell v (b * bs + j) * cell r (b * bs + j))
      (energy I (fun _ => 1) fun j => cell r (b * bs + j)) ((c.skipBlock v.length nb bs).getD b false) with hold | ⟨-, hpos, hnew⟩
  · rw [hold, storageRound_of_grid hgrid]
  · rw [hnew, ← mul_div_assoc, hnum]
    exact sqError_le_of_near hpos (storageRound_near hgrid)

/-! ## The tensor -/

/-- The reconstruction has a value at every position. -/
theorem length_lsReconstruction {num : Numerics α} {store : Store α} {stages : List StageMeta} {total : ℕ} {r : List α}
    (h : lsReconstruction num store stages total = some r) : r.length = total := by
  unfold lsReconstruction at h
  -- by induction on the stages, the sum so far has the length
  generalize hacc : List.replicate total (0 : α) = acc at h
  have hlength : acc.length = total := by rw [← hacc, List.length_replicate]
  clear hacc
  induction stages generalizing acc with
  | nil =>
    obtain rfl := Option.some.inj h
    exact hlength
  | cons sm stages ih =>
    rw [List.foldlM_cons] at h
    obtain ⟨next, hnext, hrest⟩ := Option.bind_eq_some_iff.1 h
    refine ih _ hrest ?_
    simp only at hnext
    split at hnext
    · cases hnext
    · obtain ⟨cb, -, hnext⟩ := Option.bind_eq_some_iff.1 hnext
      obtain ⟨idx, -, hnext⟩ := Option.bind_eq_some_iff.1 hnext
      obtain ⟨rows, -, hnext⟩ := Option.bind_eq_some_iff.1 hnext
      split at hnext
      · cases hnext
      · next hrows =>
        unfold addInto at hnext
        rw [if_pos (hlength.trans (not_not.1 hrows).symm)] at hnext
        obtain rfl := Option.some.inj hnext
        rw [List.length_zipWith, hlength, not_not.1 hrows, min_self]

/-- What a successful call leaves of the scales `old`, in blocks of `bs`: `new` is never worse than `old`, is `old` where a block
holds an outlier, and is what the sidecar holds. -/
structure Refines (num : Numerics α) (v r : List α) (bs : ℕ) (old new : List α) : Prop where
  length : new.length = old.length
  error_le : ∀ b < old.length, c.blockError v r old.length bs (cell old b) b (cell new b) ≤
    c.blockError v r old.length bs (cell old b) b (cell old b)
  outlier : ∀ b < old.length, c.HoldsOutlier v.length bs b → cell new b = cell old b
  stored : ∀ (store : Store α) (path : String), store path = some (writeFloatVector new).1 →
    readFloatVector num store path new.length (writeFloatVector new).2 = .ok new

/-- **Refined scales.** If the scales of a candidate are on the grid of binary16 and `_refine_scales_ls` returns `True`, the new
scales refine the old ones. -/
theorem refineScalesLs_refines {num : Numerics α} {store : Store α} {c c' : ScaleCandidate α} {mseScale : Bool} {blockScaleSize : ℕ}
    (hgrid : ∀ s ∈ c.rowScales.getD [], Grid s) (h : c.refineScalesLs num store mseScale blockScaleSize = (true, c')) :
    ∃ old new v r, c.rowScales = some old ∧ c'.rowScales = some new ∧ c.mseV = some v ∧
      lsReconstruction num store c.stagesMeta v.length = some r ∧ v.length = old.length * c.lsBlockSize blockScaleSize ∧
        c.Refines num v r (c.lsBlockSize blockScaleSize) old new := by
  have hbody : ∃ new, c.refinedScales num store blockScaleSize = some new ∧ c'.rowScales = some new := by
    unfold refineScalesLs at h
    simp only at h
    split at h
    · cases h
    · split at h
      · cases h
      · split at h
        · cases h
        · split at h
          · cases h
          · next new hnew => exact ⟨new, hnew, by rw [← (Prod.mk.inj h).2]⟩
  obtain ⟨new, hbody, hc'⟩ := hbody
  unfold refinedScales at hbody
  split at hbody
  case h_2 => cases hbody
  case h_1 old v hold hmse =>
  simp only at hbody
  split at hbody
  · cases hbody
  split at hbody
  · cases hbody
  next hshape =>
  obtain ⟨r, hr, rfl⟩ := Option.map_eq_some_iff.1 hbody
  obtain ⟨hbs, hdvd, hcount⟩ := not_or.1 hshape |>.imp id not_or.1
  rw [not_not] at hdvd hcount
  generalize c.lsBlockSize blockScaleSize = bs at *
  have hlength : v.length = old.length * bs := by
    rw [hcount, Nat.div_mul_cancel (Nat.dvd_of_mod_eq_zero hdvd)]
  have hrlength := length_lsReconstruction hr
  rw [← hcount] at hc'
  have hgrid' : ∀ b < old.length, Grid (cell old b) := fun b hb => hgrid _ (by rw [hold]; exact cell_mem hb)
  have hraw : (c.newScales old v r old.length bs).length = old.length := length_tabulate _ _
  have hnew : ∀ b < old.length, cell (fp16StorageRoundtrip (c.newScales old v r old.length bs)) b =
      storageRound (c.newScales old v r old.length bs) (cell (c.newScales old v r old.length bs) b) :=
    fun b hb => cell_map (by rwa [hraw])
  refine ⟨old, _, v, r, hold, hc', hmse, hr, hlength, ?_, fun b hb => ?_, fun b hb hout => ?_, fun store path hpath => ?_⟩
  · rw [length_fp16StorageRoundtrip, hraw]
  · rw [hnew b hb]
    exact c.blockError_newScales_le hb hlength (hrlength.trans hlength) (hgrid' b hb) _
  · rw [hnew b hb]
    have hscale : cell (c.newScales old v r old.length bs) b = cell old b := by
      unfold newScales
      simp only
      rw [cell_tabulate _ hb, hlength, c.skipBlock_of_holdsOutlier hb (by rwa [← hlength])]
      simp only [newScale, if_true, ite_self]
    rw [hscale]
    exact storageRound_of_grid (hgrid' b hb)
  · exact readFloatVector_roundtrip num _ hpath

/-- Two blocks of two weights on a codebook of two rows: the weight at position 1 is salient in its block, and the second block
holds an outlier. -/
def twoBlocks : ScaleCandidate ℚ where
  rotation := .none
  normalization := .slrqBlock
  rowScales := some [1, 2]
  mseV := some [1, 1 / 2, 1 / 4, 1]
  stagesMeta :=
    [{ codebook := "c", codebookSize := 2, codebookDtype := some .float32, indexBits := 8, indices := "i", groupSize := some 2 }]
  blockScaleSize := some 2
  salientIndices := some [1, 0]
  outlierPositions := some [3]

/-- Its files. -/
def twoBlocksStore : Store ℚ := fun path =>
  if path = "c" then some (.floats .float32 [3, 1, 1, 1]) else if path = "i" then some (.stream .raw [0, 1]) else none

/-- Its scales after the fit: a third, rounded, and the scale of the second block. -/
theorem refineScalesLs_refines_twoBlocks :
    ∃ old new v r, twoBlocks.rowScales = some old ∧ some [1365 / 4096, 2] = some new ∧ twoBlocks.mseV = some v ∧
      lsReconstruction rationalNumerics twoBlocksStore twoBlocks.stagesMeta v.length = some r ∧
        v.length = old.length * twoBlocks.lsBlockSize 32 ∧
          twoBlocks.Refines rationalNumerics v r (twoBlocks.lsBlockSize 32) old new := by
  have hgrid : ∀ s ∈ twoBlocks.rowScales.getD [], Grid s := by
    intro s hs
    rcases List.mem_cons.1 hs with rfl | hs
    · exact ⟨1, 0, by norm_num, by norm_num, by norm_num⟩
    · obtain rfl := List.mem_singleton.1 hs
      exact ⟨2, 0, by norm_num, by norm_num, by norm_num⟩
  have h : twoBlocks.refineScalesLs rationalNumerics twoBlocksStore true 32 =
      (true, { twoBlocks with mseV := none, rowScales := some [1365 / 4096, 2] }) := by
    decide +kernel
  exact refineScalesLs_refines hgrid h

end ScaleCandidate

end Orka
