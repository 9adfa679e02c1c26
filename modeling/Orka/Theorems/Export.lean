import Orka.Export
import Orka.Lemmas.Runtime
import Orka.Lemmas.VQLinear

set_option linter.unusedSectionVars false

/-!
# Reading an exported layer back

The tensors a linear layer is exported as decode to the matrix the layer reconstructs, unless the layer has a correction, a row is
no whole number of groups and blocks, or an index does not survive its narrowing to 16 bits.
-/

namespace Orka

open Flat Steps VQLinearAux DecodeAux

/-! ## What the constructor and the loader guarantee -/

/-- The sizes of a layer's buffers, and the indices they hold. -/
structure Constructed {α : Type} (layer : VQLinear α) : Prop where
  group_pos : 0 < layer.groupSize
  block_pos : 0 < layer.blockSize
  indices : ∀ s ∈ layer.stages, ∃ idxs, s.indicesInt = .ok idxs ∧
    idxs.length = ceilDiv (layer.outFeatures * layer.inFeatures) layer.groupSize ∧
    (s.codebook.length ≤ 2 ^ 15 → ∀ i ∈ idxs, -2 ^ 15 ≤ i ∧ i < 2 ^ 15)
  row_width : ∀ s ∈ layer.stages, ∀ row ∈ s.codebook, row.length = layer.groupSize
  scale_count : layer.scales.length = ceilDiv (layer.outFeatures * layer.inFeatures) layer.blockSize

/-- What a buffer takes has its length. -/
theorem length_of_copyInto {β : Type} {n : ℕ} {xs ys : List β} (h : copyInto n xs = .ok ys) : ys.length = n := by
  unfold copyInto at h
  split at h
  · next hn =>
    obtain rfl := Except.ok.inj h
    exact hn
  · split at h
    · obtain rfl := Except.ok.inj h
      exact List.length_replicate
    · cases h

/-- What a buffer takes are the values given. -/
theorem mem_of_copyInto {β : Type} {n : ℕ} {xs ys : List β} (h : copyInto n xs = .ok ys) : ∀ y ∈ ys, y ∈ xs := by
  unfold copyInto at h
  split at h
  · obtain rfl := Except.ok.inj h
    exact fun y hy => hy
  · split at h
    · obtain rfl := Except.ok.inj h
      exact fun y hy => List.mem_singleton.2 (List.eq_of_mem_replicate hy)
    · cases h

/-- A matrix buffer has the sizes it was made with. -/
theorem size_of_copyMatrix {β : Type} {r c : ℕ} {rows out : List (List β)} (h : copyMatrix r c rows = .ok out) :
    out.length = r ∧ ∀ row ∈ out, row.length = c := by
  obtain ⟨mid, hmid, hout⟩ := bind_eq_ok.1 h
  refine ⟨length_of_copyInto hout, fun row hrow => ?_⟩
  obtain ⟨src, -, hsrc⟩ := (mem_of_mapM_eq_ok hmid).1 (mem_of_copyInto hout row hrow)
  exact length_of_copyInto hsrc

/-- An index of a codebook of up to `2 ^ 15` entries is stored as 16 bits hold it. -/
theorem storeIndex_bounds {cbSize : ℕ} (h : cbSize ≤ 2 ^ 15) (i : ℤ) :
    -2 ^ 15 ≤ storeIndex cbSize i ∧ storeIndex cbSize i < 2 ^ 15 := by
  unfold storeIndex
  split
  · omega
  · rw [if_pos (by omega)]
    have h1 := Int.le_bmod (x := i) (m := 2 ^ 16) (by norm_num)
    have h2 := Int.bmod_lt (x := i) (m := 2 ^ 16) (by norm_num)
    norm_num at h1 h2 ⊢
    omega

/-- The high bits a plane gives are as many as asked for, each below the width. -/
theorem length_unpackHigh {hiBits n : ℕ} {hi : List ℕ} (h : n ≤ hi.length * (8 / hiBits)) : (unpackHigh hiBits n hi).length = n := by
  have hflat : ∀ l : List ℕ, ((l.map fun byte => (List.range (8 / hiBits)).map fun j =>
      (byte >>> (8 - (j + 1) * hiBits)) &&& ((1 <<< hiBits) - 1)).flatten).length = l.length * (8 / hiBits) := by
    intro l
    rw [length_flatten_of_width (c := 8 / hiBits), List.length_map]
    intro row hrow
    obtain ⟨byte, -, rfl⟩ := List.mem_map.1 hrow
    rw [List.length_map, List.length_range]
  rw [unpackHigh, List.length_take, hflat, min_eq_left h]

/-- The high bits of an index fit their width. -/
theorem unpackHigh_lt {hiBits n : ℕ} {hi : List ℕ} : ∀ v ∈ unpackHigh hiBits n hi, v < 2 ^ hiBits := by
  intro v hv
  obtain ⟨row, hrow, hv⟩ := List.mem_flatten.1 (List.mem_of_mem_take hv)
  obtain ⟨byte, -, rfl⟩ := List.mem_map.1 hrow
  obtain ⟨j, -, rfl⟩ := List.mem_map.1 hv
  rw [Nat.one_shiftLeft, Nat.and_two_pow_sub_one_eq_mod]
  exact Nat.mod_lt _ (by positivity)

/-- A codebook's planes are ten or twelve bits wide, or there are none. -/
theorem planeWidth_cases (cbSize : ℕ) : planeWidth cbSize = 0 ∨ planeWidth cbSize = 10 ∨ planeWidth cbSize = 12 := by
  unfold planeWidth
  simp only
  split <;> omega

/-- The low plane holds the low bytes of the indices. -/
theorem packIndexPlanes_low {idxs : List ℤ} {width : ℕ} {planes : List ℕ × List ℕ} (h : packIndexPlanes idxs width = .ok planes) :
    ∀ v ∈ planes.1, ∃ i, v = i &&& 255 := by
  have hlow : planes.1 = (idxs.map fun i => (i % 2 ^ 64).toNat).map (· &&& 0xFF) := by
    unfold packIndexPlanes at h
    simp only at h
    split at h
    · obtain rfl := Except.ok.inj h
      rfl
    · obtain ⟨hi, -, rfl⟩ := map_eq_ok.1 h
      rfl
  intro v hv
  rw [hlow] at hv
  obtain ⟨i, -, rfl⟩ := List.mem_map.1 hv
  exact ⟨i, rfl⟩

theorem mem_of_zipWith {β γ δ : Type} {f : β → γ → δ} {xs : List β} {ys : List γ} {z : δ} (h : z ∈ List.zipWith f xs ys) :
    ∃ x ∈ xs, ∃ y ∈ ys, f x y = z := by
  rw [← List.map_uncurry_zip_eq_zipWith] at h
  obtain ⟨⟨x, y⟩, hxy, rfl⟩ := List.mem_map.1 h
  exact ⟨x, (List.of_mem_zip hxy).1, y, (List.of_mem_zip hxy).2, rfl⟩

/-- The indices of a stage as the loader registers it. -/
theorem registerIndices_spec {α : Type} {nGroups cbSize : ℕ} {idxs indices : List ℤ} {lo hi : List ℕ} {C : List (List α)}
    (h : registerIndices nGroups cbSize idxs = .ok (indices, lo, hi)) :
    ∃ read, StageBuffers.indicesInt (α := α) ⟨planeWidth cbSize, indices, lo, hi, C⟩ = .ok read ∧ read.length = nGroups ∧
      (cbSize ≤ 2 ^ 15 → ∀ i ∈ read, -2 ^ 15 ≤ i ∧ i < 2 ^ 15) := by
  unfold registerIndices at h
  simp only at h
  split at h
  · next hw =>
    obtain ⟨buf, hbuf, he⟩ := map_eq_ok.1 h
    obtain ⟨rfl, rfl, rfl⟩ : buf = indices ∧ [] = lo ∧ [] = hi := by simpa using he
    refine ⟨buf, by rw [StageBuffers.indicesInt, if_pos hw], length_of_copyInto hbuf, fun hcb i hi => ?_⟩
    obtain ⟨j, -, rfl⟩ := List.mem_map.1 (mem_of_copyInto hbuf i hi)
    exact storeIndex_bounds hcb j
  · next hw =>
    obtain ⟨⟨loRaw, hiRaw⟩, hplanes, h⟩ := bind_eq_ok.1 h
    obtain ⟨loBuf, hlo, h⟩ := bind_eq_ok.1 h
    obtain ⟨hiBuf, hhi, he⟩ := map_eq_ok.1 h
    obtain ⟨rfl, rfl, rfl⟩ : [] = indices ∧ loBuf = lo ∧ hiBuf = hi := by simpa using he
    have hbits : planeWidth cbSize - 8 = 2 ∨ planeWidth cbSize - 8 = 4 := by
      have := planeWidth_cases cbSize
      omega
    have hloLt : ∀ v ∈ loBuf, v < 2 ^ 12 := by
      intro v hv
      obtain ⟨i, rfl⟩ := packIndexPlanes_low hplanes v (mem_of_copyInto hlo v hv)
      exact (Nat.and_le_right (n := i) (m := 255)).trans_lt (by norm_num)
    have hroom : loBuf.length ≤ hiBuf.length * (8 / (planeWidth cbSize - 8)) := by
      rw [length_of_copyInto hlo, length_of_copyInto hhi, hiBytes]
      rcases hbits with hb | hb <;> rw [hb] <;> unfold ceilDiv <;> omega
    have hhigh := length_unpackHigh hroom
    refine ⟨_, by rw [StageBuffers.indicesInt, if_neg hw, if_pos hhigh], ?_, fun _ i hi => ?_⟩
    · rw [List.length_zipWith, hhigh, Nat.min_self, length_of_copyInto hlo]
    · obtain ⟨l, hl, v, hv, rfl⟩ := mem_of_zipWith hi
      have hv := (unpackHigh_lt v hv).trans_le
        (Nat.pow_le_pow_right (by norm_num) (show planeWidth cbSize - 8 ≤ 4 by omega))
      have hor : l ||| (v <<< 8) < 2 ^ 12 := Nat.or_lt_two_pow (hloLt l hl) (by rw [Nat.shiftLeft_eq]; omega)
      omega

/-- A transposed view has no new values. -/
theorem mem_of_transposeView {β : Type} [Zero β] {r c : ℕ} {xs : List β} (h : xs.length = r * c) :
    ∀ x ∈ transposeView r c xs, x ∈ xs := by
  intro x hx
  obtain ⟨i, hi, rfl⟩ := List.mem_map.1 hx
  have hi : i < c * r := List.mem_range.1 hi
  have hr : 0 < r := Nat.pos_of_mul_pos_left (by omega : 0 < c * r)
  refine cell_mem ?_
  rw [h]
  exact flat_lt (Nat.mod_lt _ hr) (Nat.div_lt_of_lt_mul (by rwa [Nat.mul_comm] at hi))

section Build

variable {α : Type} [Field α] [LinearOrder α] [IsStrictOrderedRing α] [FloorRing α]
variable {num : Numerics α} {store : Store α} {tm : TensorMeta}

/-- A stage as the loader registers it. -/
theorem registerStage_spec {groupSize total : ℕ} {stage : StageMeta} {s : StageBuffers α}
    (h : registerStage num store groupSize total stage = .ok s) :
    (∃ idxs, s.indicesInt = .ok idxs ∧ idxs.length = ceilDiv total groupSize ∧
      (s.codebook.length ≤ 2 ^ 15 → ∀ i ∈ idxs, -2 ^ 15 ≤ i ∧ i < 2 ^ 15)) ∧ ∀ row ∈ s.codebook, row.length = groupSize := by
  unfold registerStage at h
  simp only at h
  split at h
  · cases h
  obtain ⟨idxs, -, h⟩ := bind_eq_ok.1 h
  obtain ⟨cb, -, h⟩ := bind_eq_ok.1 h
  obtain ⟨⟨indices, lo, hi⟩, hreg, h⟩ := bind_eq_ok.1 h
  obtain ⟨codebook, hcb, rfl⟩ := map_eq_ok.1 h
  obtain ⟨hsize, hrows⟩ := size_of_copyMatrix hcb
  obtain ⟨read, hread, hlen, hsmall⟩ := registerIndices_spec (C := codebook) hreg
  exact ⟨⟨read, hread, hlen, fun hle => hsmall (hsize ▸ hle)⟩, hrows⟩

/-- The scale buffer has one scale for each block. -/
theorem length_of_registerScales {blockSize total : ℕ} {buf : List α} {scales : Option (List α)}
    (h : registerScales num store tm blockSize total = .ok (buf, scales)) : buf.length = ceilDiv total blockSize := by
  unfold registerScales at h
  simp only at h
  split at h
  · obtain ⟨full, -, h⟩ := bind_eq_ok.1 h
    obtain ⟨out, hout, he⟩ := map_eq_ok.1 h
    obtain ⟨rfl, -⟩ := Prod.mk.inj he
    exact length_of_copyInto hout
  · obtain ⟨rfl, -⟩ := Prod.mk.inj (Except.ok.inj h)
    exact List.length_replicate

/-- A layer without planes has none at any stage. -/
theorem planeWidth_of_not_planed {layer : VQLinear α} (h : ¬ layer.planed = true) {s : StageBuffers α} (hs : s ∈ layer.stages) :
    s.planeWidth = 0 := by
  by_contra hw
  exact h (List.any_eq_true.2 ⟨s, hs, bne_iff_ne.2 hw⟩)

/-- Reordering a layer keeps what its constructor guarantees. -/
theorem Constructed.toGroupMajor {layer : VQLinear α} (h : Constructed layer) : Constructed (toGroupMajor layer) := by
  unfold Orka.toGroupMajor
  split
  · exact h
  split
  · exact h
  split
  · simp only
    split
    · next hplane hpos hdvd hlen =>
      obtain ⟨hidx, hscale⟩ := hlen
      refine ⟨h.group_pos, h.block_pos, ?_, ?_, ?_⟩
      · intro t ht
        obtain ⟨s, hs, rfl⟩ := List.mem_map.1 ht
        have hwidth : s.planeWidth = 0 := planeWidth_of_not_planed hplane hs
        obtain ⟨idxs, hread, hlen, hsmall⟩ := h.indices s hs
        obtain rfl : s.indices = idxs := by
          rw [StageBuffers.indicesInt, if_pos hwidth] at hread
          exact Except.ok.inj hread
        refine ⟨_, by rw [StageBuffers.indicesInt, if_pos hwidth], ?_, fun hle i hi => ?_⟩
        · rw [← hlen, hidx s hs]
          exact (length_tabulate _ _).trans (Nat.mul_comm _ _)
        · exact hsmall hle i (mem_of_transposeView (hidx s hs) i hi)
      · intro t ht row hrow
        obtain ⟨s, hs, rfl⟩ := List.mem_map.1 ht
        exact h.row_width s hs row hrow
      · rw [← h.scale_count, hscale]
        exact (length_tabulate _ _).trans (Nat.mul_comm _ _)
    · exact h
  · exact h

/-- The group-major layout leaves the correction's cache. -/
theorem corrSpCache_toGroupMajor (layer : VQLinear α) : (toGroupMajor layer).corrSpCache = layer.corrSpCache := by
  unfold toGroupMajor
  split
  · rfl
  split
  · rfl
  split
  · simp only
    split <;> rfl
  · rfl

/-- The group-major layout keeps the number of stages. -/
theorem length_stages_toGroupMajor (layer : VQLinear α) : (toGroupMajor layer).stages.length = layer.stages.length := by
  unfold toGroupMajor
  split
  · rfl
  split
  · rfl
  split
  · simp only
    split
    · exact List.length_map _
    · rfl
  · rfl

theorem buildStages_ne_nil (tm : TensorMeta) : buildStages tm ≠ [] := by
  unfold buildStages
  split
  · nofun
  · next h => exact mt List.isEmpty_iff.2 h

/-- **What `build_vq_linear` returns.** -/
theorem buildVqLinear_constructed {bias : Option (List α)} {layer : VQLinear α} (h : buildVqLinear num store tm bias = .ok layer) :
    Constructed layer ∧ layer.stages ≠ [] ∧ layer.corrSpCache = none := by
  unfold buildVqLinear at h
  obtain ⟨⟨m, k⟩, -, h⟩ := bind_eq_ok.1 h
  simp only at h
  split at h
  · cases h
  next hg =>
  obtain ⟨stages, hstages, h⟩ := bind_eq_ok.1 h
  obtain ⟨⟨buf, scales⟩, hscales, h⟩ := bind_eq_ok.1 h
  obtain ⟨corr, -, rfl⟩ := map_eq_ok.1 h
  have hreg : ∀ s ∈ stages, ∃ stage, registerStage num store tm.groupSize (m * k) stage = .ok s := fun s hs =>
    let ⟨stage, _, hstage⟩ := (mem_of_mapM_eq_ok hstages).1 hs
    ⟨stage, hstage⟩
  refine ⟨Constructed.toGroupMajor ⟨Nat.pos_of_ne_zero hg, tm.blockSize_pos, fun s hs => ?_, fun s hs => ?_,
    length_of_registerScales hscales⟩, ?_, corrSpCache_toGroupMajor _⟩
  · obtain ⟨stage, hstage⟩ := hreg s hs
    exact (registerStage_spec hstage).1
  · obtain ⟨stage, hstage⟩ := hreg s hs
    exact (registerStage_spec hstage).2
  · rw [← List.length_pos_iff, length_stages_toGroupMajor]
    obtain ⟨stage, rest, hcons⟩ := List.exists_cons_of_ne_nil (buildStages_ne_nil tm)
    rw [hcons, mapM_cons_eq] at hstages
    obtain ⟨s, -, hstages⟩ := bind_eq_ok.1 hstages
    obtain ⟨ss, -, rfl⟩ := map_eq_ok.1 hstages
    exact Nat.succ_pos _

end Build

/-! ## Narrowing -/

/-- An index into `n` codewords that 16 bits keep: it fits them, or it counts from the end of `n` codewords as it counts from the
end of `2 ^ 16`. -/
def KeptByInt16 (n : ℕ) (i : ℤ) : Prop := (-2 ^ 15 ≤ i ∧ i < 2 ^ 15) ∨ (2 ^ 16 ∣ (n : ℤ) ∧ n - 2 ^ 15 ≤ i ∧ i < n)

/-- Narrowing to `int16` is the remainder around zero. -/
theorem toInt16_eq (i : ℤ) : toInt16 i = (i + 2 ^ 15) % 2 ^ 16 - 2 ^ 15 := by
  unfold toInt16 Int.bmod
  simp only
  split <;> omega

/-- A kept index names the codeword it named. -/
theorem axisIndex_toInt16 {n : ℕ} {i : ℤ} (h : KeptByInt16 n i) : axisIndex n (toInt16 i) = axisIndex n i := by
  by_cases hfits : -2 ^ 15 ≤ i ∧ i < 2 ^ 15
  · have hsame : toInt16 i = i := by
      rw [toInt16_eq]
      omega
    rw [hsame]
  · obtain ⟨⟨q, hq⟩, h1, h2⟩ := h.resolve_left hfits
    have hback : toInt16 i = i - n := by
      rw [toInt16_eq]
      omega
    rw [hback, axisIndex_of_neg (by omega) (by omega), axisIndex_of_nonneg (by omega) h2, sub_add_cancel]

/-- An index into the codebook is kept exactly if narrowing it does not change what it names. -/
theorem axisIndex_toInt16_iff {n : ℕ} {i : ℤ} (h0 : 0 ≤ i) (hn : i < n) :
    axisIndex n (toInt16 i) = axisIndex n i ↔ KeptByInt16 n i := by
  refine ⟨fun h => ?_, axisIndex_toInt16⟩
  have hrange : -2 ^ 15 ≤ toInt16 i ∧ toInt16 i < 2 ^ 15 := by
    rw [toInt16_eq]
    omega
  rw [axisIndex_of_nonneg h0 hn] at h
  rcases lt_or_ge (toInt16 i) 0 with hneg | hpos
  · have hroom : -(n : ℤ) ≤ toInt16 i := by
      by_contra hlow
      rw [axisIndex] at h
      simp only [if_pos hneg] at h
      rw [if_neg (by omega)] at h
      cases h
    rw [axisIndex_of_neg hneg hroom] at h
    have hsame := Except.ok.inj h
    refine Or.inr ⟨⟨(i + 2 ^ 15) / 2 ^ 16, ?_⟩, by omega, hn⟩
    rw [toInt16_eq] at hsame hneg hroom
    omega
  · by_cases hlt : toInt16 i < n
    · rw [axisIndex_of_nonneg hpos hlt] at h
      have hsame := Except.ok.inj h
      exact Or.inl (by omega)
    · rw [axisIndex] at h
      simp only [if_neg (not_lt.2 hpos)] at h
      rw [if_neg (by omega)] at h
      cases h

/-! ## Reading back -/

section Layout

variable {β : Type} [Zero β]

/-- What is stored in either layout, in row-major order. -/
def rowMajor (groupMajor : Bool) (m q : ℕ) (xs : List β) : List β := if groupMajor then transposeView q m xs else xs

/-- A buffer of whole rows reads row-major. -/
theorem storedRows_ok {groupMajor : Bool} {m q : ℕ} {xs : List β} (h : xs.length = m * q) :
    storedRows groupMajor m q xs = .ok (rowMajor groupMajor m q xs) := by
  cases groupMajor with
  | false => rw [storedRows, if_neg Bool.false_ne_true, reshape_ok h, ok_map, flatten_rowsOf h, rowMajor, if_neg Bool.false_ne_true]
  | true => rw [storedRows, if_pos rfl, reshape_ok (h.trans (Nat.mul_comm m q)), ok_map, rowMajor, if_pos rfl]

theorem length_rowMajor {groupMajor : Bool} {m q : ℕ} {xs : List β} (h : xs.length = m * q) :
    (rowMajor groupMajor m q xs).length = m * q := by
  cases groupMajor with
  | false => exact h
  | true => exact length_tabulate _ _

theorem mem_of_rowMajor {groupMajor : Bool} {m q : ℕ} {xs : List β} (h : xs.length = m * q) :
    ∀ x ∈ rowMajor groupMajor m q xs, x ∈ xs := by
  cases groupMajor with
  | false => exact fun x hx => hx
  | true => exact mem_of_transposeView (h.trans (Nat.mul_comm m q))

/-- Reordering commutes with a map that fixes zero. -/
theorem rowMajor_map {f : ℤ → ℤ} (hf : f 0 = 0) (groupMajor : Bool) (m q : ℕ) (xs : List ℤ) :
    rowMajor groupMajor m q (xs.map f) = (rowMajor groupMajor m q xs).map f := by
  cases groupMajor with
  | false => rfl
  | true =>
    simp only [rowMajor, transposeView, tabulate, if_true, List.map_map]
    exact List.map_congr_left fun i _ => cell_map_zero hf xs _

end Layout

/-- Indices that narrowing keeps take the same rows. -/
theorem takeRows_toInt16 {α : Type} {table : List (List α)} {idxs : List ℤ} (h : ∀ i ∈ idxs, KeptByInt16 table.length i) :
    takeRows table (idxs.map toInt16) = takeRows table idxs := by
  unfold takeRows
  rw [List.mapM_map]
  refine mapM_congr fun i hi => ?_
  rw [Function.comp_apply, axisIndex_toInt16 (h i hi)]

section Dequant

variable {α : Type} [Field α] [LinearOrder α] [IsStrictOrderedRing α] [FloorRing α]
variable {layer : VQLinear α}

/-- How many groups the rows have, and what the layer reads them as. -/
theorem rowMajorIndices_eq (hM : 0 < layer.outFeatures) (hG : layer.groupSize ∣ layer.inFeatures)
    {s : StageBuffers α} {idxs : List ℤ} (hs : s.indicesInt = .ok idxs)
    (hlen : idxs.length = layer.outFeatures * (layer.inFeatures / layer.groupSize)) :
    layer.rowMajorIndices s = .ok (rowMajor layer.groupMajor layer.outFeatures (layer.inFeatures / layer.groupSize) idxs) := by
  have htotal : layer.total / layer.groupSize = layer.outFeatures * (layer.inFeatures / layer.groupSize) := by
    rw [VQLinear.total, Nat.mul_div_assoc _ hG]
  rw [VQLinear.rowMajorIndices, hs, ok_bind, htotal, if_neg hM.ne', Nat.mul_div_cancel_left _ hM, rowMajor]
  cases layer.groupMajor with
  | false => rw [if_neg (by simp), if_neg Bool.false_ne_true]
  | true => rw [if_pos ⟨rfl, hlen⟩, if_pos rfl, viewTransposed_ok (hlen.trans (Nat.mul_comm _ _))]; rfl

/-- A constructed layer's scales read row-major. -/
theorem rowMajorScales_eq (h : Constructed layer) (hM : 0 < layer.outFeatures) (hB : layer.blockSize ∣ layer.inFeatures) :
    layer.rowMajorScales = .ok (rowMajor layer.groupMajor layer.outFeatures (layer.inFeatures / layer.blockSize) layer.scales) := by
  have htotal : ceilDiv layer.total layer.blockSize = layer.outFeatures * (layer.inFeatures / layer.blockSize) :=
    pieces_total h.block_pos hB
  have hlen : layer.scales.length = layer.outFeatures * (layer.inFeatures / layer.blockSize) := h.scale_count.trans htotal
  rw [VQLinear.rowMajorScales, htotal, if_neg hM.ne', Nat.mul_div_cancel_left _ hM, rowMajor]
  cases layer.groupMajor with
  | false => rw [if_neg (by simp), if_neg Bool.false_ne_true]
  | true => rw [if_pos ⟨rfl, hlen⟩, if_pos rfl, viewTransposed_ok (hlen.trans (Nat.mul_comm _ _))]; rfl

/-- **One stage**: the exported indices gather what the layer gathers. -/
theorem dequant_stage (h : Constructed layer) (hM : 0 < layer.outFeatures) (hG : layer.groupSize ∣ layer.inFeatures)
    {s : StageBuffers α} (hs : s ∈ layer.stages) {idxs : List ℤ} (hidxs : s.indicesInt = .ok idxs)
    (hkept : ∀ i ∈ idxs, KeptByInt16 s.codebook.length i) (w : List α) :
    ((storedRows layer.groupMajor layer.outFeatures (layer.inFeatures / layer.groupSize) (idxs.map toInt16)).bind fun i =>
      (takeRows s.codebook i).bind fun rows =>
        (reshape layer.outFeatures (layer.inFeatures / layer.groupSize * layer.groupSize) rows.flatten).bind fun mat =>
          addInto w mat.flatten) =
      (layer.rowMajorIndices s).bind fun idxs => (takeRows s.codebook idxs).bind fun rows => addInto w rows.flatten := by
  have hlen : idxs.length = layer.outFeatures * (layer.inFeatures / layer.groupSize) := by
    obtain ⟨idxs', hidxs', hlen, -⟩ := h.indices s hs
    obtain rfl := Except.ok.inj (hidxs.symm.trans hidxs')
    rw [hlen, pieces_total h.group_pos hG]
  have hzero : toInt16 0 = 0 := rfl
  have hmem : ∀ i ∈ rowMajor layer.groupMajor layer.outFeatures (layer.inFeatures / layer.groupSize) idxs,
      KeptByInt16 s.codebook.length i := fun i hi => hkept i (mem_of_rowMajor hlen i hi)
  rw [rowMajorIndices_eq hM hG hidxs hlen, storedRows_ok (by rw [List.length_map, hlen]), rowMajor_map hzero, ok_bind, ok_bind,
    takeRows_toInt16 hmem]
  cases hrows : takeRows s.codebook (rowMajor layer.groupMajor layer.outFeatures (layer.inFeatures / layer.groupSize) idxs) with
  | error e => rfl
  | ok rows =>
    have hflat : rows.flatten.length = layer.outFeatures * (layer.inFeatures / layer.groupSize * layer.groupSize) := by
      rw [length_of_takeRows (h.row_width s hs) hrows, length_rowMajor hlen, Nat.mul_assoc]
    rw [ok_bind, ok_bind, reshape_ok hflat, ok_bind, flatten_rowsOf hflat]

/-- The loop over the exported stages does what the loop of the layer does. -/
theorem foldlM_exported {f : List α → List ℤ × List (List α) → Except PyErr (List α)} {g : List α → StageBuffers α → Except PyErr (List α)}
    {ss : List (StageBuffers α)} {idxs : List (List ℤ)} (hidxs : ss.mapM StageBuffers.indicesInt = .ok idxs)
    (hstep : ∀ s ∈ ss, ∀ i, s.indicesInt = .ok i → ∀ w, f w (i.map toInt16, s.codebook) = g w s) (w : List α) :
    ((idxs.map (·.map toInt16)).zip (ss.map StageBuffers.codebook)).foldlM f w = ss.foldlM g w := by
  induction ss generalizing idxs w with
  | nil =>
    obtain rfl := Except.ok.inj hidxs
    rfl
  | cons s ss ih =>
    rw [mapM_cons_eq] at hidxs
    obtain ⟨i, hi, hidxs⟩ := bind_eq_ok.1 hidxs
    obtain ⟨rest, hrest, rfl⟩ := map_eq_ok.1 hidxs
    rw [List.map_cons, List.map_cons, List.zip_cons_cons, foldlM_cons_eq, foldlM_cons_eq, hstep s List.mem_cons_self i hi w]
    exact congrArg _ (funext fun w => ih hrest (fun s hs => hstep s (List.mem_cons_of_mem _ hs)) w)

/-- Cutting rows at their own width changes nothing. -/
theorem flatMap_take_rowsOf {r c : ℕ} {xs : List α} (h : xs.length = r * c) : (rowsOf r c xs).flatMap (·.take c) = xs := by
  have hid : (rowsOf r c xs).map (·.take c) = rowsOf r c xs :=
    (List.map_congr_left fun row hrow => List.take_of_length_le (length_of_mem_rowsOf h.ge row hrow).le).trans (List.map_id _)
  rw [List.flatMap_def, hid, flatten_rowsOf h]

/-- Adding the stages keeps the length. -/
theorem length_of_stages {ss : List (StageBuffers α)} {w out : List α}
    (h : ss.foldlM (fun decoded s => (layer.rowMajorIndices s).bind fun idxs => (takeRows s.codebook idxs).bind fun rows =>
      addInto decoded rows.flatten) w = .ok out) : out.length = w.length := by
  induction ss generalizing w with
  | nil =>
    obtain rfl := Except.ok.inj h
    rfl
  | cons s ss ih =>
    rw [foldlM_cons_eq] at h
    obtain ⟨mid, hmid, h⟩ := bind_eq_ok.1 h
    obtain ⟨idxs, -, hmid⟩ := bind_eq_ok.1 hmid
    obtain ⟨rows, -, hmid⟩ := bind_eq_ok.1 hmid
    rw [ih h, length_of_addInto hmid]

/-- **The exported tensors decode to the matrix of the layer without its correction.** -/
theorem dequantLinear_eq_reconstructVq (h : Constructed layer) (hM : 0 < layer.outFeatures)
    (hG : layer.groupSize ∣ layer.inFeatures) (hB : layer.blockSize ∣ layer.inFeatures)
    (hkept : ∀ s ∈ layer.stages, ∀ idxs, s.indicesInt = .ok idxs → ∀ i ∈ idxs, KeptByInt16 s.codebook.length i) :
    (exportLinear layer).bind dequantLinear = layer.reconstructVq := by
  obtain ⟨idxs, hidxs⟩ : ∃ idxs, layer.stages.mapM StageBuffers.indicesInt = .ok idxs :=
    exists_mapM_eq_ok.2 fun s hs => let ⟨i, hi, _⟩ := h.indices s hs; ⟨i, hi⟩
  have hpos : ¬ (layer.groupSize = 0 ∨ layer.blockSize = 0) := by
    have h1 := h.group_pos
    have h2 := h.block_pos
    omega
  have hgroups : layer.inFeatures / layer.groupSize * layer.groupSize = layer.inFeatures := Nat.div_mul_cancel hG
  have hblocks : ceilDiv layer.total layer.blockSize = layer.outFeatures * (layer.inFeatures / layer.blockSize) :=
    pieces_total h.block_pos hB
  have htotal : layer.outFeatures * (layer.inFeatures / layer.blockSize) * layer.blockSize = layer.total := by
    rw [Nat.mul_assoc, Nat.div_mul_cancel hB, VQLinear.total]
  have hzeros : ceilDiv layer.total layer.groupSize * layer.groupSize = layer.total := by
    have hdvd : layer.groupSize ∣ layer.total := Dvd.dvd.mul_left hG layer.outFeatures
    rw [ceilDiv_of_dvd h.group_pos hdvd, Nat.div_mul_cancel hdvd]
  have hscales : layer.scales.length = layer.outFeatures * (layer.inFeatures / layer.blockSize) := h.scale_count.trans hblocks
  rw [exportLinear, hidxs, ok_map, ok_bind, dequantLinear, if_neg hpos, VQLinear.reconstructVq, if_neg hpos]
  simp only [hgroups]
  rw [foldlM_exported hidxs (fun s hs i hi w => by
    have hstage := dequant_stage h hM hG hs hi (hkept s hs i hi) w
    rwa [hgroups] at hstage), hzeros, ← VQLinear.total]
  cases hsum : layer.stages.foldlM (fun decoded s => (layer.rowMajorIndices s).bind fun idxs =>
      (takeRows s.codebook idxs).bind fun rows => addInto decoded rows.flatten) (List.replicate layer.total 0) with
  | error e => rfl
  | ok w =>
    have hw : w.length = layer.total := by rw [length_of_stages hsum, List.length_replicate]
    rw [ok_bind, ok_bind, rowMajorScales_eq h hM hB, storedRows_ok hscales, ok_bind, ok_bind, reshape_ok (hw.trans htotal.symm), ok_bind,
      flatten_rowsOf (hw.trans htotal.symm), hblocks, htotal, Nat.sub_self, List.replicate_zero, List.append_nil,
      List.take_of_length_le hw.le, List.take_of_length_le (length_rowMajor hscales).le, length_rowMajor hscales,
      broadcastMatrix_rows, ok_map, ok_map]
    have hscaled : (tabulate (layer.outFeatures * (layer.inFeatures / layer.blockSize) * layer.blockSize) fun i =>
        cell w i * cell (rowMajor layer.groupMajor layer.outFeatures (layer.inFeatures / layer.blockSize) layer.scales)
          (i / layer.blockSize)).length = layer.outFeatures * layer.inFeatures := by
      rw [length_tabulate, htotal, VQLinear.total]
    rw [flatMap_take_rowsOf hscaled, VQLinear.total, List.take_of_length_le hscaled.le]

/-- Codebooks of up to `2 ^ 15` entries keep their indices. -/
theorem kept_of_small (h : Constructed layer) {s : StageBuffers α} (hs : s ∈ layer.stages) (hsmall : s.codebook.length ≤ 2 ^ 15)
    {idxs : List ℤ} (hidxs : s.indicesInt = .ok idxs) : ∀ i ∈ idxs, KeptByInt16 s.codebook.length i := by
  obtain ⟨idxs', hidxs', -, hrange⟩ := h.indices s hs
  obtain rfl := Except.ok.inj (hidxs.symm.trans hidxs')
  exact fun i hi => Or.inl (hrange hsmall i hi)

/-- A buffer of another size does not read. -/
theorem storedRows_error {β : Type} [Zero β] {groupMajor : Bool} {m q : ℕ} {xs : List β} (h : xs.length ≠ m * q) (ys : List β) :
    storedRows groupMajor m q xs ≠ .ok ys := by
  unfold storedRows reshape
  have h' : xs.length ≠ q * m := by rwa [Nat.mul_comm] at h
  rw [if_neg h, if_neg h', error_map, error_map, ite_self]
  nofun

/-- Rows that are no whole number of pieces have too many pieces. -/
theorem ceilDiv_ne_of_ragged {m k g : ℕ} (hm : 0 < m) (hg : 0 < g) (h : ¬ g ∣ k) : ceilDiv (m * k) g ≠ m * (k / g) := by
  intro he
  have hle := le_ceilDiv_mul (n := m * k) hg
  rw [he, Nat.mul_assoc] at hle
  have hk := Nat.le_of_mul_le_mul_left hle hm
  exact h ⟨k / g, by rw [Nat.mul_comm]; exact (Nat.le_antisymm (Nat.div_mul_le_self k g) hk).symm⟩

/-- Nothing is read back where a row ends within a group or a block. -/
theorem dequantLinear_ragged (h : Constructed layer) (hM : 0 < layer.outFeatures) (hstages : layer.stages ≠ [])
    (hragged : ¬ (layer.groupSize ∣ layer.inFeatures ∧ layer.blockSize ∣ layer.inFeatures)) (w : List α) :
    (exportLinear layer).bind dequantLinear ≠ .ok w := by
  intro hok
  obtain ⟨d, hd, hok⟩ := bind_eq_ok.1 hok
  obtain ⟨idxs, hidxs, rfl⟩ := map_eq_ok.1 hd
  rw [dequantLinear] at hok
  split at hok
  · cases hok
  obtain ⟨sum, hsum, hok⟩ := bind_eq_ok.1 hok
  obtain ⟨sc, hsc, -⟩ := bind_eq_ok.1 hok
  rcases not_and_or.1 hragged with hG | hB
  · obtain ⟨s, ss, hcons⟩ := List.exists_cons_of_ne_nil hstages
    rw [hcons, mapM_cons_eq] at hidxs
    obtain ⟨i, hi, hidxs⟩ := bind_eq_ok.1 hidxs
    obtain ⟨rest, -, rfl⟩ := map_eq_ok.1 hidxs
    rw [hcons, List.map_cons, List.map_cons, List.zip_cons_cons, foldlM_cons_eq] at hsum
    obtain ⟨mid, hmid, -⟩ := bind_eq_ok.1 hsum
    obtain ⟨rows, hrows, -⟩ := bind_eq_ok.1 hmid
    obtain ⟨i', hi', hlen, -⟩ := h.indices s (hcons ▸ List.mem_cons_self)
    obtain rfl := Except.ok.inj (hi.symm.trans hi')
    refine storedRows_error ?_ rows hrows
    rw [List.length_map, hlen]
    exact ceilDiv_ne_of_ragged hM h.group_pos hG
  · refine storedRows_error ?_ sc hsc
    rw [h.scale_count]
    exact ceilDiv_ne_of_ragged hM h.block_pos hB

/-- **Exporting keeps the matrix** of a layer without correction whose rows are whole numbers of groups and of blocks, where 16
bits keep every index; where a row ends within a group or a block, the export cannot be read back. -/
theorem dequantLinear_exportLinear (num : Numerics α) (store : Store α) (tm : TensorMeta) (layer : VQLinear α)
    (hbuild : buildVqLinear num store tm none = .ok layer) (hM : 0 < layer.outFeatures) :
    (layer.groupSize ∣ layer.inFeatures → layer.blockSize ∣ layer.inFeatures → layer.corr.col = [] →
      (∀ s ∈ layer.stages, ∀ idxs, s.indicesInt = .ok idxs → ∀ i ∈ idxs, KeptByInt16 s.codebook.length i) →
      (exportLinear layer).bind dequantLinear = layer.reconstructWeight num) ∧
    (¬ (layer.groupSize ∣ layer.inFeatures ∧ layer.blockSize ∣ layer.inFeatures) →
      ∀ w, (exportLinear layer).bind dequantLinear ≠ .ok w) := by
  obtain ⟨hlayer, hstages, hcache⟩ := buildVqLinear_constructed hbuild
  refine ⟨fun hG hB hcorr hkept => ?_, dequantLinear_ragged hlayer hM hstages⟩
  have hnone : layer.correctionCsr = none := by
    rw [VQLinear.correctionCsr, hcorr, List.length_nil, if_neg (lt_irrefl 0), hcache]
  rw [dequantLinear_eq_reconstructVq hlayer hM hG hB hkept, VQLinear.reconstructWeight, hnone]
  cases layer.reconstructVq with
  | error e => rfl
  | ok w => rfl

end Dequant

/-- An entry of one value with one stage and an outlier. -/
def soloMeta : TensorMeta where
  name := "a.weight"
  shape := [1, 1]
  packedValues := 1
  paddedValues := 1
  groupSize := 1
  stages := [{ codebook := "cb", codebookSize := 1, codebookDtype := some .float16, indexBits := 1, indices := "idx" }]
  codebook := "cb"
  codebookSize := 1
  indexBits := 1
  indices := "idx"
  blockScaleSize := some 1
  outliers := some ⟨1, "pos", "val", none, none⟩

def soloStore : Store ℚ := fun path =>
  if path = "cb" then some (.floats .float16 [2])
  else if path = "idx" then some (.stream .raw [0])
  else if path = "pos" then some (.unsigned .uint32 [0])
  else if path = "val" then some (.floats .float32 [3])
  else none

/-- An entry of two rows of two groups each, with two stages. -/
def pairMeta : TensorMeta where
  name := "a.weight"
  shape := [2, 4]
  packedValues := 8
  paddedValues := 8
  groupSize := 2
  stages := [{ codebook := "cb0", codebookSize := 2, codebookDtype := some .float16, indexBits := 8, indices := "idx0" },
    { codebook := "cb1", codebookSize := 3, codebookDtype := some .float16, indexBits := 8, indices := "idx1" }]
  codebook := "cb0"
  codebookSize := 2
  indexBits := 8
  indices := "idx0"
  blockScaleSize := some 4

def pairStore : Store ℚ := fun path =>
  if path = "cb0" then some (.floats .float16 [1, 2, 3, 4])
  else if path = "cb1" then some (.floats .float16 [0, 0, 1, -1, -2, 1])
  else if path = "idx0" then some (.stream .raw [0, 1, 1, 0])
  else if path = "idx1" then some (.stream .raw [2, 0, 1, 2])
  else none

/-- The export of its layer keeps the matrix. -/
theorem dequantLinear_exportLinear_pair :
    ∃ layer, buildVqLinear rationalNumerics pairStore pairMeta none = .ok layer ∧
      (exportLinear layer).bind dequantLinear = layer.reconstructWeight rationalNumerics ∧
        layer.reconstructWeight rationalNumerics = .ok [-1, 3, 3, 4, 4, 3, -1, 3] := by
  have hchecks : (buildVqLinear rationalNumerics pairStore pairMeta none).toOption.any (fun layer =>
      0 < layer.outFeatures ∧ layer.groupSize ∣ layer.inFeatures ∧ layer.blockSize ∣ layer.inFeatures ∧ layer.corr.col = [] ∧
        (∀ s ∈ layer.stages, s.codebook.length ≤ 2 ^ 15) ∧
          layer.reconstructWeight rationalNumerics = .ok [-1, 3, 3, 4, 4, 3, -1, 3]) = true := by decide +kernel
  cases hbuild : buildVqLinear rationalNumerics pairStore pairMeta none with
  | error e => simp [hbuild, Except.toOption] at hchecks
  | ok layer =>
    obtain ⟨hM, hG, hB, hcorr, hsmall, hvalue⟩ : _ ∧ _ ∧ _ ∧ _ ∧ _ ∧ _ := by simpa [hbuild, Except.toOption] using hchecks
    refine ⟨layer, rfl, (dequantLinear_exportLinear _ _ _ layer hbuild hM).1 hG hB hcorr (fun s hs idxs hidxs => ?_), hvalue⟩
    exact kept_of_small (buildVqLinear_constructed hbuild).1 hs (hsmall s hs) hidxs

/-- The outlier is lost on export. -/
theorem outlier_not_exported :
    ∃ layer, buildVqLinear rationalNumerics soloStore soloMeta none = .ok layer ∧
      (exportLinear layer).bind dequantLinear = .ok [2] ∧ layer.reconstructWeight rationalNumerics = .ok [3] := by
  have hrun : (buildVqLinear rationalNumerics soloStore soloMeta none).toOption.any (fun layer =>
      (exportLinear layer).bind dequantLinear = .ok [2] ∧ layer.reconstructWeight rationalNumerics = .ok [3]) = true := by decide +kernel
  cases hbuild : buildVqLinear rationalNumerics soloStore soloMeta none with
  | error e => simp [hbuild, Except.toOption] at hrun
  | ok layer =>
    rw [hbuild] at hrun
    exact ⟨layer, rfl, of_decide_eq_true hrun⟩

end Orka
