import Orka.Triton
import Orka.Lemmas.Decode

/-!
# What `reconstruct_weight` returns

Where the width is a multiple of the group and of the block, the matrix is read entry by entry: the index of a group, the place
in its codeword and the scale of a block, each from where the layout keeps it.
-/

set_option linter.unusedSectionVars false

namespace Orka

open Flat DecodeAux

namespace VQLinear

section Entry

variable {α : Type} [Ring α] (layer : VQLinear α)

/-- The value a stage has at a row and a column. -/
def stageEntry (s : StageBuffers α) (m k : ℕ) : α :=
  cell (s.codebook.getD (cell s.indices (layer.indexOffset m (k / layer.groupSize))).toNat []) (k % layer.groupSize)

/-- An entry of the matrix: the stages summed, and the scale of the block. -/
def entry (m k : ℕ) : α :=
  (layer.stages.map fun s => layer.stageEntry s m k).sum * cell layer.scales (layer.scaleOffset m (k / layer.blockSize))

end Entry

end VQLinear

namespace VQLinearAux

/-! ## Flat positions -/

/-- Rows and pieces: where a width is a multiple of a piece, the piece of a flat position is the piece of its column. -/
theorem piece_of_flat {m k w g : ℕ} (hg : 0 < g) (hd : g ∣ w) :
    (m * w + k) / g = m * (w / g) + k / g ∧ (m * w + k) % g = k % g := by
  obtain ⟨q, rfl⟩ := hd
  have hm : m * (g * q) = g * (m * q) := by ring
  rw [hm, Nat.mul_div_cancel_left _ hg, Nat.mul_add_div hg, Nat.mul_add_mod]
  exact ⟨rfl, rfl⟩

/-- A column lies in a piece of its row. -/
theorem piece_lt {k w g : ℕ} (hg : 0 < g) (hd : g ∣ w) (hk : k < w) : k / g < w / g := by
  obtain ⟨q, rfl⟩ := hd
  rw [Nat.mul_div_cancel_left _ hg]
  exact Nat.div_lt_of_lt_mul hk

/-- Reading a flat position as a row and a column again. -/
theorem flat_row_col {m k w : ℕ} (hk : k < w) : (m * w + k) / w = m ∧ (m * w + k) % w = k := salient_place hk

/-- How many pieces all rows have together. -/
theorem pieces_total {n w g : ℕ} (hg : 0 < g) (hd : g ∣ w) : ceilDiv (n * w) g = n * (w / g) := by
  rw [ceilDiv_of_dvd hg (Dvd.dvd.mul_left hd n), Nat.mul_div_assoc _ hd]

section Reconstruct

variable {α : Type} [Ring α] {layer : VQLinear α}

theorem viewTransposed_ok {β : Type} [Zero β] {r c : ℕ} {xs : List β} (h : xs.length = r * c) :
    viewTransposed r c xs = .ok (tabulate (c * r) fun i => cell xs (i % r * c + i / r)) := if_pos h

/-- A list read at its own positions, cut into rows. -/
theorem tabulate_rows {β : Type} [Zero β] {n w : ℕ} {xs : List β} (h : xs.length = n * w) :
    xs = tabulate (n * w) fun i => cell xs (i / w * w + i % w) := by
  conv_lhs => rw [← tabulate_cell xs, h]
  exact tabulate_congr fun i _ => by rw [Nat.div_add_mod']

/-- The row-major order of a buffer of `q` pieces a row, in either layout. -/
theorem rowMajor_ok {β : Type} [Zero β] {n q : ℕ} {xs : List β} (groupMajor : Bool) (hn : 0 < n) (h : xs.length = n * q) :
    (if groupMajor = true then viewTransposed (n * q / n) n xs else Except.ok xs) =
      .ok (tabulate (n * q) fun i => cell xs (if groupMajor then i % q * n + i / q else i / q * q + i % q)) := by
  cases groupMajor with
  | false =>
    rw [if_neg (by simp)]
    exact congrArg Except.ok (tabulate_rows h)
  | true => rw [if_pos rfl, Nat.mul_div_cancel_left _ hn, viewTransposed_ok (by rw [h, Nat.mul_comm])]; rfl

/-- The indices in row-major order. -/
theorem rowMajorIndices_ok (hl : Unplaned layer) (hG : layer.groupSize ∣ layer.inFeatures) {s : StageBuffers α}
    (hs : s ∈ layer.stages) :
    layer.rowMajorIndices s =
      .ok (tabulate (layer.outFeatures * layer.gpr) fun i => cell s.indices (layer.indexOffset (i / layer.gpr) (i % layer.gpr))) := by
  have htotal : layer.total / layer.groupSize = layer.outFeatures * layer.gpr := by
    rw [VQLinear.total, VQLinear.gpr, Nat.mul_div_assoc _ hG]
  have hcount : s.indices.length = layer.outFeatures * layer.gpr := by
    rw [hl.index_count s hs, pieces_total hl.group_pos hG]
    rfl
  have hor := rowMajor_ok layer.groupMajor hl.out_pos hcount
  unfold VQLinear.rowMajorIndices StageBuffers.indicesInt VQLinear.indexOffset
  rw [if_pos (hl.plane_width s hs)]
  simp only [Except.bind, htotal, hcount, and_true, if_neg hl.out_pos.ne']
  exact hor

/-- The scales in row-major order. -/
theorem rowMajorScales_ok (hl : Unplaned layer) (hB : layer.blockSize ∣ layer.inFeatures) :
    layer.rowMajorScales =
      .ok (tabulate (layer.outFeatures * layer.bpr) fun i => cell layer.scales (layer.scaleOffset (i / layer.bpr) (i % layer.bpr))) := by
  have htotal : ceilDiv layer.total layer.blockSize = layer.outFeatures * layer.bpr := pieces_total hl.block_pos hB
  have hcount : layer.scales.length = layer.outFeatures * layer.bpr := hl.scale_count.trans htotal
  have hor := rowMajor_ok layer.groupMajor hl.out_pos hcount
  unfold VQLinear.rowMajorScales VQLinear.scaleOffset
  simp only [htotal, hcount, and_true, if_neg hl.out_pos.ne']
  exact hor

/-- A place of the matrix has a row and a column. -/
theorem row_col_of_lt {p : ℕ} (hp : p < layer.total) :
    p / layer.inFeatures < layer.outFeatures ∧ p % layer.inFeatures < layer.inFeatures := by
  have hp' : p < layer.outFeatures * layer.inFeatures := hp
  have hk : 0 < layer.inFeatures := Nat.pos_of_mul_pos_left (by omega : 0 < layer.outFeatures * layer.inFeatures)
  exact ⟨Nat.div_lt_of_lt_mul (by rwa [Nat.mul_comm] at hp'), Nat.mod_lt _ hk⟩

/-- The codewords of a stage, in row-major order of the matrix. -/
theorem stage_gather (hl : Unplaned layer) (hG : layer.groupSize ∣ layer.inFeatures) {s : StageBuffers α}
    (hs : s ∈ layer.stages) :
    ∃ rows, ((layer.rowMajorIndices s).bind fun idxs => takeRows s.codebook idxs) = .ok rows ∧
      rows.flatten = tabulate layer.total fun p => layer.stageEntry s (p / layer.inFeatures) (p % layer.inFeatures) := by
  have htotal : layer.outFeatures * layer.gpr * layer.groupSize = layer.total := by
    rw [Nat.mul_assoc, VQLinear.gpr, Nat.div_mul_cancel hG]
    rfl
  have hcount : s.indices.length = layer.outFeatures * layer.gpr := by
    rw [hl.index_count s hs, pieces_total hl.group_pos hG]
    rfl
  have hmem : ∀ m < layer.outFeatures, ∀ g < layer.gpr, layer.indexOffset m g < s.indices.length := by
    intro m hm g hg
    unfold VQLinear.indexOffset
    rw [hcount]
    split
    · rw [Nat.mul_comm layer.outFeatures]
      exact flat_lt hg hm
    · exact flat_lt hm hg
  have hpos : ∀ i < layer.outFeatures * layer.gpr, 0 < layer.gpr ∧ i / layer.gpr < layer.outFeatures ∧ i % layer.gpr < layer.gpr := by
    intro i hi
    have hg : 0 < layer.gpr := Nat.pos_of_mul_pos_left (by omega : 0 < layer.outFeatures * layer.gpr)
    exact ⟨hg, Nat.div_lt_of_lt_mul (by rwa [Nat.mul_comm] at hi), Nat.mod_lt _ hg⟩
  have hidx : (tabulate (layer.outFeatures * layer.gpr) fun i =>
      cell s.indices (layer.indexOffset (i / layer.gpr) (i % layer.gpr))) =
      ints (tabulate (layer.outFeatures * layer.gpr) fun i =>
        (cell s.indices (layer.indexOffset (i / layer.gpr) (i % layer.gpr))).toNat) := by
    unfold ints tabulate
    rw [List.map_map]
    refine List.map_congr_left fun i hi => ?_
    obtain ⟨-, hm, hg⟩ := hpos i (List.mem_range.1 hi)
    exact (Int.toNat_of_nonneg (hl.index_range s hs _ (cell_mem (hmem _ hm _ hg))).1).symm
  have hlt : ∀ j ∈ tabulate (layer.outFeatures * layer.gpr) fun i =>
      (cell s.indices (layer.indexOffset (i / layer.gpr) (i % layer.gpr))).toNat, j < s.codebook.length := by
    intro j hj
    obtain ⟨i, hi, rfl⟩ := List.mem_map.1 hj
    obtain ⟨-, hm, hg⟩ := hpos i (List.mem_range.1 hi)
    have := hl.index_range s hs _ (cell_mem (hmem _ hm _ hg))
    omega
  refine ⟨_, by rw [rowMajorIndices_ok hl hG hs, Except.bind, hidx, takeRows_ints hlt], ?_⟩
  have hlen : ((tabulate (layer.outFeatures * layer.gpr) fun i =>
      (cell s.indices (layer.indexOffset (i / layer.gpr) (i % layer.gpr))).toNat).map
        fun i => s.codebook.getD i []).flatten.length = layer.total := by
    rw [length_gather (hl.row_width s hs) hlt, length_tabulate, htotal]
  refine ext_cell (by rw [hlen, length_tabulate]) fun p hp => ?_
  rw [hlen] at hp
  obtain ⟨-, hk'⟩ := row_col_of_lt hp
  have hgk := piece_lt hl.group_pos hG hk'
  have hp' := piece_of_flat (m := p / layer.inFeatures) (k := p % layer.inFeatures) hl.group_pos hG
  rw [Nat.div_add_mod'] at hp'
  have hrow := flat_row_col (m := p / layer.inFeatures) hgk
  rw [cell_gather hl.group_pos (hl.row_width s hs) hlt (by rw [length_tabulate, htotal]; exact hp), cell_tabulate _ hp,
    cell_tabulate _ (Nat.div_lt_of_lt_mul (by rw [Nat.mul_comm, htotal]; exact hp)), hp'.1, hp'.2]
  unfold VQLinear.stageEntry VQLinear.gpr
  rw [hrow.1, hrow.2]

/-- The loop over the stages. -/
theorem stages_sum (hl : Unplaned layer) (hG : layer.groupSize ∣ layer.inFeatures) :
    ∀ (ss : List (StageBuffers α)) (f : ℕ → α), (∀ s ∈ ss, s ∈ layer.stages) →
      ss.foldlM (fun decoded s => (layer.rowMajorIndices s).bind fun idxs =>
        (takeRows s.codebook idxs).bind fun rows => addInto decoded rows.flatten) (tabulate layer.total f) =
      .ok (tabulate layer.total fun p =>
        f p + (ss.map fun s => layer.stageEntry s (p / layer.inFeatures) (p % layer.inFeatures)).sum) := by
  intro ss
  induction ss with
  | nil =>
    intro f _
    simp [pure, Except.pure]
  | cons s ss ih =>
    intro f hss
    obtain ⟨rows, hrows, hflat⟩ := stage_gather hl hG (hss s (by simp))
    have hstep : ((layer.rowMajorIndices s).bind fun idxs => (takeRows s.codebook idxs).bind fun rows =>
        addInto (tabulate layer.total f) rows.flatten) =
        .ok (tabulate layer.total fun p => f p + layer.stageEntry s (p / layer.inFeatures) (p % layer.inFeatures)) := by
      cases hi : layer.rowMajorIndices s with
      | error e =>
        rw [hi] at hrows
        cases hrows
      | ok idxs =>
        rw [hi] at hrows
        have htake : takeRows s.codebook idxs = .ok rows := hrows
        simp only [Except.bind, htake, hflat]
        unfold addInto
        rw [if_pos (by simp)]
        refine congrArg Except.ok (ext_cell (by simp) fun p hp => ?_)
        have hp' : p < layer.total := by simpa using hp
        rw [cell_zipWith (by simpa) (by simpa), cell_tabulate _ hp', cell_tabulate _ hp', cell_tabulate _ hp']
    rw [List.foldlM_cons, hstep]
    refine (ih _ fun s hs => hss s (List.mem_cons_of_mem _ hs)).trans ?_
    refine congrArg Except.ok (tabulate_congr fun p _ => ?_)
    rw [List.map_cons, List.sum_cons, add_assoc]

/-- **The matrix of a layer without its correction**, entry by entry. -/
theorem reconstructVq_ok (hl : Unplaned layer) (hG : layer.groupSize ∣ layer.inFeatures)
    (hB : layer.blockSize ∣ layer.inFeatures) :
    layer.reconstructVq =
      .ok (tabulate layer.total fun p => layer.entry (p / layer.inFeatures) (p % layer.inFeatures)) := by
  have hzero : (List.replicate (ceilDiv layer.total layer.groupSize * layer.groupSize) (0 : α)) =
      tabulate layer.total fun _ => 0 := by
    rw [ceilDiv_mul hl.group_pos, padding_eq_zero (show layer.groupSize ∣ layer.total from Dvd.dvd.mul_left hG _), Nat.add_zero]
    simp [tabulate]
  have hblocks : ceilDiv layer.total layer.blockSize = layer.outFeatures * layer.bpr := pieces_total hl.block_pos hB
  have htotal : layer.outFeatures * layer.bpr * layer.blockSize = layer.total := by
    rw [Nat.mul_assoc, VQLinear.bpr, Nat.div_mul_cancel hB]
    rfl
  unfold VQLinear.reconstructVq
  rw [if_neg (by have := hl.group_pos; have := hl.block_pos; omega)]
  simp only [hzero]
  rw [stages_sum hl hG layer.stages _ fun _ hs => hs]
  simp only [Except.bind, rowMajorScales_ok hl hB, hblocks, htotal, Nat.sub_self, List.replicate_zero, List.append_nil]
  rw [List.take_of_length_le (by simp), List.take_of_length_le (by simp), length_tabulate, broadcastMatrix_rows, htotal]
  simp only [Except.map]
  rw [List.take_of_length_le (by simp)]
  refine congrArg Except.ok (tabulate_congr fun p hp => ?_)
  obtain ⟨hm, hk⟩ := row_col_of_lt hp
  have hp' := piece_of_flat (m := p / layer.inFeatures) (k := p % layer.inFeatures) hl.block_pos hB
  rw [Nat.div_add_mod'] at hp'
  have hrow := flat_row_col (m := p / layer.inFeatures) (piece_lt hl.block_pos hB hk)
  rw [cell_tabulate _ hp, zero_add, cell_tabulate _ (Nat.div_lt_of_lt_mul (by rwa [Nat.mul_comm, htotal])), hp'.1]
  unfold VQLinear.entry VQLinear.bpr
  rw [hrow.1, hrow.2]

end Reconstruct

end VQLinearAux

end Orka
