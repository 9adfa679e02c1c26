import Orka.Lemmas.VQLinear

/-!
# What the lanes of the two kernels compute

One lemma for each load a lane makes: behind its mask it stays inside its buffer and reads what the layout keeps there. From
them the value of a lane, and where the single-token kernel leaves the scale buffer.
-/

set_option linter.unusedSectionVars false

namespace Orka

open Flat Steps Tile VQLinearAux

namespace TritonAux

variable {α : Type} [Field α] {layer : VQLinear α}

/-! ## Loads of a lane -/

/-- The index load of a row and a group stays inside the buffer. -/
theorem indexOffset_lt (hl : Unplaned layer) (hG : layer.groupSize ∣ layer.inFeatures) {s : StageBuffers α}
    (hs : s ∈ layer.stages) {m g : ℕ} (hm : m < layer.outFeatures) (hg : g < layer.gpr) :
    layer.indexOffset m g < s.indices.length := by
  rw [hl.index_count s hs, pieces_total hl.group_pos hG]
  unfold VQLinear.indexOffset
  split
  · rw [Nat.mul_comm layer.outFeatures]
    exact flat_lt hg hm
  · exact flat_lt hm hg

/-- The scale load of a row and a block stays inside the buffer. -/
theorem scaleOffset_lt (hl : Unplaned layer) (hB : layer.blockSize ∣ layer.inFeatures) {m b : ℕ}
    (hm : m < layer.outFeatures) (hb : b < layer.bpr) : layer.scaleOffset m b < layer.scales.length := by
  rw [hl.scale_count, pieces_total hl.block_pos hB]
  unfold VQLinear.scaleOffset
  split
  · rw [Nat.mul_comm layer.outFeatures]
    exact flat_lt hb hm
  · exact flat_lt hm hb

/-- A block past the last one is outside the buffer for the last row, in either layout. -/
theorem scaleOffset_ge (hl : Unplaned layer) (hB : layer.blockSize ∣ layer.inFeatures) {b : ℕ} (hb : layer.bpr ≤ b) :
    layer.scales.length ≤ layer.scaleOffset (layer.outFeatures - 1) b := by
  rw [hl.scale_count, pieces_total hl.block_pos hB]
  show layer.outFeatures * layer.bpr ≤ _
  have hM := hl.out_pos
  unfold VQLinear.scaleOffset
  split
  · rw [Nat.mul_comm]
    exact (Nat.mul_le_mul_right _ hb).trans (Nat.le_add_right _ _)
  · calc layer.outFeatures * layer.bpr = (layer.outFeatures - 1 + 1) * layer.bpr := by rw [Nat.sub_add_cancel hM]
      _ = (layer.outFeatures - 1) * layer.bpr + layer.bpr := by ring
      _ ≤ (layer.outFeatures - 1) * layer.bpr + b := by omega

/-- Place `e` of the codeword a stage names for a row and a group. -/
def codeword (layer : VQLinear α) (s : StageBuffers α) (m g e : ℕ) : α :=
  cell (s.codebook.getD (cell s.indices (layer.indexOffset m g)).toNat []) e

/-- Place `e` of the codeword an index names. -/
theorem loadCodeword_ok {s : StageBuffers α} (hwidth : ∀ row ∈ s.codebook, row.length = layer.groupSize) {i : ℤ}
    (hi : 0 ≤ i ∧ i < s.codebook.length) {e : ℕ} (he : e < layer.groupSize) :
    load s.codebook.flatten (i * layer.groupSize + e) true 0 = .ok (cell (s.codebook.getD i.toNat []) e) := by
  have hlen := length_flatten_of_width hwidth
  have hcast : i * (layer.groupSize : ℤ) + (e : ℤ) = ((i.toNat * layer.groupSize + e : ℕ) : ℤ) := by
    push_cast
    rw [Int.toNat_of_nonneg hi.1]
  have hplace := flat_row_col (m := i.toNat) he
  rw [hcast, load_ok (by rw [hlen]; exact flat_lt (by omega) he), cell_flatten (Nat.zero_lt_of_lt he) hwidth, hplace.1, hplace.2]

/-- The codebook entry of a lane. -/
theorem loadEntry_ok (hl : Unplaned layer) (hG : layer.groupSize ∣ layer.inFeatures) {s : StageBuffers α}
    (hs : s ∈ layer.stages) {m g e : ℕ} {mask : Bool} (hmask : mask = true → m < layer.outFeatures ∧ g < layer.gpr)
    (he : e < layer.groupSize) :
    loadEntry layer s (layer.indexOffset m g) e mask = .ok (if mask then codeword layer s m g e else 0) := by
  cases mask with
  | false => rfl
  | true =>
    obtain ⟨hm, hg⟩ := hmask rfl
    have hoff := indexOffset_lt hl hG hs hm hg
    unfold loadEntry
    rw [load_ok hoff, ok_bind, loadCodeword_ok (hl.row_width s hs) (hl.index_range s hs _ (cell_mem hoff)) he]
    rfl

/-- The stages summed, at one place of one group. -/
theorem stages_ok (h3 : layer.stages.length ≤ 3) {f : StageBuffers α → Except Fault α}
    {g : StageBuffers α → α} (h : ∀ s ∈ layer.stages, f s = .ok (g s)) :
    (layer.stages.take 3).foldlM (fun acc s => (f s).map (acc + ·)) 0 = .ok (layer.stages.map g).sum := by
  rw [List.take_of_length_le h3, foldlM_add (g := g), zero_add]
  intro s hs acc
  rw [h s hs]
  rfl

/-! ## The single-token kernel -/

/-- What one group adds to a live lane. -/
def groupTerm (layer : VQLinear α) (x : List α) (groupsPerBlock m g : ℕ) : α :=
  cell layer.scales (layer.scaleOffset m (g / groupsPerBlock)) *
    (layer.stages.map fun s => ((List.range layer.groupSize).map fun e =>
      codeword layer s m g e * cell x (g * layer.groupSize + e)).sum).sum

/-- A stage's product loads inside its buffers. -/
theorem dotStage_ok (hl : Unplaned layer) (hG : layer.groupSize ∣ layer.inFeatures) {s : StageBuffers α}
    (hs : s ∈ layer.stages) {m g : ℕ} (mask : Bool) (hmask : mask = true → m < layer.outFeatures) (hg : g < layer.gpr)
    (y : ℕ → α) :
    dotStage layer ((List.range layer.groupSize).map y) (List.range layer.groupSize) (layer.indexOffset m g) mask s =
      .ok ((List.range layer.groupSize).map fun e => (if mask then codeword layer s m g e else 0) * y e).sum := by
  have hentry : ((List.range layer.groupSize).mapM fun e => loadEntry layer s (layer.indexOffset m g) e mask) =
      .ok ((List.range layer.groupSize).map fun e => if mask then codeword layer s m g e else 0) :=
    mapM_ok fun e he => loadEntry_ok hl hG hs (fun hm => ⟨hmask hm, hg⟩) (List.mem_range.1 he)
  unfold dotStage
  rw [hentry, ok_map, List.zipWith_map, List.zipWith_self]

/-- The values of the token in one group. -/
theorem loadToken_ok (hG : layer.groupSize ∣ layer.inFeatures) {x : List α} (hx : x.length = layer.inFeatures)
    {g : ℕ} (hg : g < layer.gpr) :
    ((List.range layer.groupSize).mapM fun e => load x (g * layer.groupSize + e : ℕ) true 0) =
      .ok ((List.range layer.groupSize).map fun e => cell x (g * layer.groupSize + e)) := by
  have hin : ∀ e ∈ List.range layer.groupSize, load x (g * layer.groupSize + e : ℕ) true 0 =
      .ok (cell x (g * layer.groupSize + e)) := by
    intro e he
    refine load_ok ?_ 0
    rw [hx, ← Nat.div_mul_cancel hG]
    exact flat_lt hg (List.mem_range.1 he)
  exact mapM_ok hin

/-- One group of a lane, where the block it computes is inside the buffer. -/
theorem decodeGroup_ok (hl : Unplaned layer) (h3 : layer.stages.length ≤ 3) (hG : layer.groupSize ∣ layer.inFeatures)
    (hB : layer.blockSize ∣ layer.inFeatures) {x : List α} (hx : x.length = layer.inFeatures) {q m g : ℕ} (hq : 0 < q)
    (hg : g < layer.gpr) (hb : g / q < layer.bpr) (acc : α) :
    decodeGroup layer x (List.range layer.groupSize) q m acc g =
      .ok (acc + if m < layer.outFeatures then groupTerm layer x q m g else 0) := by
  have hscale := load_of_mask layer.scales (layer.scaleOffset m (g / q)) (decide (m < layer.outFeatures))
    (fun hm => scaleOffset_lt hl hB (of_decide_eq_true hm) hb) 0
  have hdot := stages_ok h3 fun s hs => dotStage_ok hl hG hs (m := m) (decide (m < layer.outFeatures))
    (fun hm => of_decide_eq_true hm) hg fun e => cell x (g * layer.groupSize + e)
  unfold decodeGroup
  simp only [loadToken_ok hG hx hg, ok_bind, if_neg hq.ne', hscale, hdot, ok_map]
  by_cases hm : m < layer.outFeatures
  · simp only [hm, decide_true, if_true]
    rfl
  · simp [hm]

/-- A group whose block is past the last one faults. -/
theorem decodeGroup_fault (hl : Unplaned layer) (hB : layer.blockSize ∣ layer.inFeatures) {x : List α} {es : List ℕ} {q g : ℕ}
    (hb : q = 0 ∨ layer.bpr ≤ g / q) (acc v : α) :
    decodeGroup layer x es q (layer.outFeatures - 1) acc g ≠ .ok v := by
  have hM := hl.out_pos
  unfold decodeGroup
  intro he
  obtain ⟨xg, -, he⟩ := bind_eq_ok.1 he
  rcases Nat.eq_zero_or_pos q with h0 | hq
  · rw [if_pos h0] at he
    cases he
  · have hlive : decide (layer.outFeatures - 1 < layer.outFeatures) = true := decide_eq_true (by omega)
    rw [if_neg hq.ne', hlive, load_out (scaleOffset_ge hl hB (hb.resolve_left hq.ne'))] at he
    cases he

/-! ## Blocks and groups -/

/-- Where the group divides the block, the block of a group is the block of each of its columns. -/
theorem block_of_group {G B g e : ℕ} (hG : 0 < G) (hd : G ∣ B) (he : e < G) : (g * G + e) / B = g / (B / G) := by
  obtain ⟨q, rfl⟩ := hd
  rw [Nat.mul_div_cancel_left _ hG, ← Nat.div_div_eq_div_mul, (flat_row_col he).1]

/-- Then the block of a group is inside the buffer. -/
theorem block_lt_bpr (hl : Unplaned layer) (hG : layer.groupSize ∣ layer.inFeatures) (hB : layer.blockSize ∣ layer.inFeatures)
    (hd : layer.groupSize ∣ layer.blockSize ∨ layer.inFeatures = 0) {g : ℕ} (hg : g < layer.gpr) :
    0 < layer.blockSize / layer.groupSize ∧ g / (layer.blockSize / layer.groupSize) < layer.bpr := by
  rcases hd with hd | h0
  · refine ⟨Nat.div_pos (Nat.le_of_dvd hl.block_pos hd) hl.group_pos, ?_⟩
    rw [← block_of_group (e := 0) hl.group_pos hd hl.group_pos]
    refine piece_lt hl.block_pos hB ?_
    calc g * layer.groupSize + 0 < (g + 1) * layer.groupSize := by rw [Nat.succ_mul]; have := hl.group_pos; omega
      _ ≤ layer.gpr * layer.groupSize := Nat.mul_le_mul_right _ hg
      _ = layer.inFeatures := Nat.div_mul_cancel hG
  · rw [VQLinear.gpr, h0, Nat.zero_div] at hg
    omega

/-- Where it does not, the last group of a row computes a block past the last one. -/
theorem last_group_block {G B K : ℕ} (hB : 0 < B) (hK : 0 < K) (hGK : G ∣ K) (hBK : B ∣ K) (hd : ¬ G ∣ B) :
    B / G = 0 ∨ K / B ≤ (K / G - 1) / (B / G) := by
  rcases Nat.eq_zero_or_pos (B / G) with h0 | hq
  · exact .inl h0
  · refine .inr ((Nat.le_div_iff_mul_le hq).2 ?_)
    have hlt : B / G * G < B := by
      refine lt_of_le_of_ne (Nat.div_mul_le_self B G) fun he => hd ⟨B / G, ?_⟩
      rw [Nat.mul_comm]
      exact he.symm
    have hblocks : 0 < K / B := Nat.div_pos (Nat.le_of_dvd hK hBK) hB
    have hmul : K / B * (B / G) * G < K / G * G := by
      calc K / B * (B / G) * G = K / B * (B / G * G) := by ring
        _ < K / B * B := Nat.mul_lt_mul_of_pos_left hlt hblocks
        _ = K / G * G := by rw [Nat.div_mul_cancel hBK, Nat.div_mul_cancel hGK]
    have := lt_of_mul_lt_mul_right hmul (Nat.zero_le G)
    omega

/-! ## A row of the matrix -/

/-- The matrix `reconstructVq` returns. -/
def denseVq (layer : VQLinear α) : List α :=
  tabulate layer.total fun p => layer.entry (p / layer.inFeatures) (p % layer.inFeatures)

theorem cell_denseVq {m k : ℕ} (hm : m < layer.outFeatures) (hk : k < layer.inFeatures) :
    cell (denseVq layer) (m * layer.inFeatures + k) = layer.entry m k := by
  have hrow := flat_row_col (m := m) hk
  rw [denseVq, cell_tabulate _ (show _ < layer.total from flat_lt hm hk), hrow.1, hrow.2]

/-- Summing over the stages first or over the places of a group first. -/
theorem sum_stages_places {ι : Type} (ss : List ι) (es : List ℕ) (c : ι → ℕ → α) (y : ℕ → α) :
    (ss.map fun s => (es.map fun e => c s e * y e).sum).sum = (es.map fun e => (ss.map fun s => c s e).sum * y e).sum := by
  induction ss with
  | nil => simp
  | cons s ss ih =>
    rw [List.map_cons, List.sum_cons, ih, ← List.sum_map_add]
    simp only [List.map_cons, List.sum_cons, add_mul]

/-- The entries of one group. -/
theorem groupTerm_eq (hl : Unplaned layer) (hd : layer.groupSize ∣ layer.blockSize) (x : List α) (m g : ℕ) :
    groupTerm layer x (layer.blockSize / layer.groupSize) m g = ((List.range layer.groupSize).map fun e =>
      cell x (g * layer.groupSize + e) * layer.entry m (g * layer.groupSize + e)).sum := by
  unfold groupTerm
  rw [sum_stages_places, ← List.sum_map_mul_left]
  refine congrArg List.sum (List.map_congr_left fun e he => ?_)
  have hplace := flat_row_col (m := g) (List.mem_range.1 he)
  unfold VQLinear.entry VQLinear.stageEntry codeword
  rw [block_of_group hl.group_pos hd (List.mem_range.1 he), hplace.1, hplace.2]
  ring

/-- The groups of a row, together. -/
theorem sum_groupTerm (hl : Unplaned layer) (hG : layer.groupSize ∣ layer.inFeatures)
    (hd : layer.groupSize ∣ layer.blockSize ∨ layer.inFeatures = 0) (x : List α) (m : ℕ) :
    ((List.range layer.gpr).map fun g => groupTerm layer x (layer.blockSize / layer.groupSize) m g).sum =
      ((List.range layer.inFeatures).map fun k => cell x k * layer.entry m k).sum := by
  rcases hd with hd | h0
  · simp only [groupTerm_eq hl hd]
    rw [sum_tiles fun k => cell x k * layer.entry m k, VQLinear.gpr, Nat.div_mul_cancel hG]
  · simp [VQLinear.gpr, h0]

/-- The product of one token, row by row. -/
theorem matmulT_one (K M : ℕ) (x w : List α) :
    matmulT 1 K M x w = tabulate M fun m => ((List.range K).map fun k => cell x k * cell w (m * K + k)).sum := by
  refine (congrArg (tabulate · _) (Nat.one_mul M)).trans (tabulate_congr fun m hm => ?_)
  rw [Nat.div_eq_of_lt hm, Nat.mod_eq_of_lt hm, Nat.zero_mul]
  simp only [Nat.zero_add]

/-- The product of one token with the matrix of the stages. -/
theorem matmulT_denseVq (x : List α) : matmulT 1 layer.inFeatures layer.outFeatures x (denseVq layer) =
    tabulate layer.outFeatures fun m => ((List.range layer.inFeatures).map fun k => cell x k * layer.entry m k).sum := by
  refine (matmulT_one ..).trans (tabulate_congr fun m hm => congrArg List.sum (List.map_congr_left fun k hk => ?_))
  rw [cell_denseVq hm (List.mem_range.1 hk)]

/-- **The single-token kernel computes the product** where the group divides the block. -/
theorem vqDecodeN1_ok (hl : Unplaned layer) (h3 : layer.stages.length ≤ 3) (hG : layer.groupSize ∣ layer.inFeatures)
    (hB : layer.blockSize ∣ layer.inFeatures) (hpow : layer.groupSize.isPowerOfTwo)
    (hd : layer.groupSize ∣ layer.blockSize ∨ layer.inFeatures = 0) {blockM : ℕ} (hM : blockM.isPowerOfTwo)
    {x out : List α} (hx : x.length = layer.inFeatures) (hout : out.length = layer.outFeatures) :
    vqDecodeN1 layer blockM x out = .ok (matmulT 1 layer.inFeatures layer.outFeatures x (denseVq layer)) := by
  have hlane : ∀ m ∈ blockLanes layer.outFeatures blockM,
      (List.range layer.gpr).foldlM
        (decodeGroup layer x (List.range layer.groupSize) (layer.blockSize / layer.groupSize) m) 0 =
      .ok (0 + ((List.range layer.gpr).map fun g => if m < layer.outFeatures then
        groupTerm layer x (layer.blockSize / layer.groupSize) m g else 0).sum) := by
    intro m _
    refine foldlM_add (fun g hg acc => ?_) 0
    obtain ⟨hq, hb⟩ := block_lt_bpr hl hG hB hd (List.mem_range.1 hg)
    exact decodeGroup_ok hl h3 hG hB hx hq (List.mem_range.1 hg) hb acc
  unfold vqDecodeN1 vqDecodeKernel
  rw [arange_ok hM, ok_bind, arange_ok hpow, ok_bind]
  refine (launch_ok (g := fun m => ((List.range layer.inFeatures).map fun k => cell x k * layer.entry m k).sum)
    hlane ?_ ?_).trans ?_
  · intro m _ hm
    simp only [of_decide_eq_true hm, if_true, zero_add]
    exact sum_groupTerm hl hG hd x m
  · intro p hp
    rw [hout] at hp
    exact ⟨p, mem_blockLanes (Nat.pos_of_isPowerOfTwo hM) hp, decide_eq_true hp, rfl⟩
  · rw [hout, matmulT_denseVq]

/-- **The single-token kernel faults** where the group does not divide the block, or is no width of a block of lanes. -/
theorem vqDecodeN1_fault (hl : Unplaned layer) (hG : layer.groupSize ∣ layer.inFeatures)
    (hB : layer.blockSize ∣ layer.inFeatures) {blockM : ℕ} (hM : blockM.isPowerOfTwo)
    (h : ¬ layer.groupSize.isPowerOfTwo ∨ (¬ layer.groupSize ∣ layer.blockSize ∧ layer.inFeatures ≠ 0))
    (x out ys : List α) : vqDecodeN1 layer blockM x out ≠ .ok ys := by
  unfold vqDecodeN1 vqDecodeKernel
  rw [arange_ok hM, ok_bind]
  by_cases hpow : layer.groupSize.isPowerOfTwo
  · obtain ⟨hd, hK⟩ := h.resolve_left (not_not.2 hpow)
    have hfault := last_group_block hl.block_pos (Nat.pos_of_ne_zero hK) hG hB hd
    have hgpr : 0 < layer.gpr := Nat.div_pos (Nat.le_of_dvd (Nat.pos_of_ne_zero hK) hG) hl.group_pos
    rw [arange_ok hpow, ok_bind]
    refine launch_fault (i := layer.outFeatures - 1) (mem_blockLanes (Nat.pos_of_isPowerOfTwo hM) (by have := hl.out_pos; omega)) ?_ ys
    refine foldlM_fault (x := layer.gpr - 1) (List.mem_range.2 (by omega)) (fun acc v => ?_) 0
    exact decodeGroup_fault hl hB hfault acc v
  · rw [arange_fault hpow, error_bind]
    simp

/-! ## The gather-GEMM -/

/-- One column of a lane: masked lanes contribute nothing. -/
theorem gemmColumn_ok (hl : Unplaned layer) (h3 : layer.stages.length ≤ 3) (hG : layer.groupSize ∣ layer.inFeatures)
    (hB : layer.blockSize ∣ layer.inFeatures) {N : ℕ} {x : List α} (hx : x.length = N * layer.inFeatures) (n m k : ℕ) :
    gemmColumn layer x N n m k =
      .ok (if k < layer.inFeatures then if n < N ∧ m < layer.outFeatures then
        cell x (n * layer.inFeatures + k) * layer.entry m k else 0 else 0) := by
  have hmask : (decide (m < layer.outFeatures) && decide (k < layer.inFeatures)) = true →
      m < layer.outFeatures ∧ k < layer.inFeatures := by simp
  have hw := stages_ok h3 fun s hs => loadEntry_ok hl hG hs
    (fun h => ⟨(hmask h).1, piece_lt hl.group_pos hG (hmask h).2⟩) (Nat.mod_lt k hl.group_pos)
  have hscale := load_of_mask layer.scales (layer.scaleOffset m (k / layer.blockSize)) _
    (fun h => scaleOffset_lt hl hB (hmask h).1 (piece_lt hl.block_pos hB (hmask h).2)) 1
  have hxk := load_of_mask x (n * layer.inFeatures + k) (decide (n < N) && decide (k < layer.inFeatures))
    (fun h => by rw [hx]; simp only [Bool.and_eq_true, decide_eq_true_eq] at h; exact flat_lt h.1 h.2) 0
  unfold gemmColumn
  simp only [hw, hscale, hxk, ok_bind, ok_map]
  by_cases hk : k < layer.inFeatures
  · by_cases hm : m < layer.outFeatures
    · by_cases hn : n < N
      · simp only [hk, hm, hn, decide_true, Bool.and_self, if_true, and_self]
        rfl
      · simp [hk, hm, hn]
    · simp [hm]
  · simp [hk]

/-- One lane: the sum over all columns. -/
theorem gemmLane_ok (hl : Unplaned layer) (h3 : layer.stages.length ≤ 3) (hG : layer.groupSize ∣ layer.inFeatures)
    (hB : layer.blockSize ∣ layer.inFeatures) {N blockK : ℕ} (hK : 0 < blockK) {x : List α}
    (hx : x.length = N * layer.inFeatures) (n m : ℕ) :
    ((List.range (ceilDiv layer.inFeatures blockK)).map (· * blockK)).foldlM (gemmTile layer blockK x N n m) 0 =
      .ok ((List.range layer.inFeatures).map fun k => if n < N ∧ m < layer.outFeatures then
        cell x (n * layer.inFeatures + k) * layer.entry m k else 0).sum := by
  have htile : ∀ k0 ∈ (List.range (ceilDiv layer.inFeatures blockK)).map (· * blockK), ∀ acc : α,
      gemmTile layer blockK x N n m acc k0 = .ok (acc + ((List.range blockK).map fun j =>
        if k0 + j < layer.inFeatures then if n < N ∧ m < layer.outFeatures then
          cell x (n * layer.inFeatures + (k0 + j)) * layer.entry m (k0 + j) else 0 else 0).sum) := by
    intro k0 _ acc
    unfold gemmTile
    rw [mapM_ok fun j _ => gemmColumn_ok hl h3 hG hB hx n m (k0 + j), ok_map]
  rw [foldlM_add htile, zero_add, List.map_map]
  exact congrArg Except.ok (sum_tiles_masked (fun k => if n < N ∧ m < layer.outFeatures then
    cell x (n * layer.inFeatures + k) * layer.entry m k else 0) hK)

/-- **The gather-GEMM computes the product** for every group and block that divide the width. -/
theorem vqGemmKernel_ok (hl : Unplaned layer) (h3 : layer.stages.length ≤ 3) (hG : layer.groupSize ∣ layer.inFeatures)
    (hB : layer.blockSize ∣ layer.inFeatures) {blockM blockN blockK : ℕ} (hM : blockM.isPowerOfTwo)
    (hN : blockN.isPowerOfTwo) (hK : blockK.isPowerOfTwo) {N : ℕ} {x out : List α}
    (hx : x.length = N * layer.inFeatures) (hout : out.length = N * layer.outFeatures) :
    vqGemmKernel layer (blockM, blockN, blockK) N x out =
      .ok (matmulT N layer.inFeatures layer.outFeatures x (denseVq layer)) := by
  unfold vqGemmKernel
  simp only [arange_ok hM, arange_ok hN, arange_ok hK, ok_bind]
  refine (launch_ok
    (g := fun p => ((List.range layer.inFeatures).map fun k =>
      cell x (p / layer.outFeatures * layer.inFeatures + k) * layer.entry (p % layer.outFeatures) k).sum)
    (fun l _ => gemmLane_ok hl h3 hG hB (Nat.pos_of_isPowerOfTwo hK) hx l.1 l.2) ?_ ?_).trans ?_
  · rintro ⟨n, m⟩ _ hlive
    simp only [Bool.and_eq_true, decide_eq_true_eq] at hlive
    have hplace := flat_row_col (m := n) hlive.2
    simp only [hlive, and_self, if_true, hplace.1, hplace.2]
  · intro p hp
    rw [hout] at hp
    have hn : p / layer.outFeatures < N := Nat.div_lt_of_lt_mul (by rwa [Nat.mul_comm] at hp)
    have hm : p % layer.outFeatures < layer.outFeatures := Nat.mod_lt _ hl.out_pos
    refine ⟨(p / layer.outFeatures, p % layer.outFeatures), ?_, by simp [hn, hm], Nat.div_add_mod' p _⟩
    exact List.mem_product.2 ⟨mem_blockLanes (Nat.pos_of_isPowerOfTwo hN) hn, mem_blockLanes (Nat.pos_of_isPowerOfTwo hM) hm⟩
  · rw [hout]
    refine congrArg Except.ok (tabulate_congr fun p hp => ?_)
    have hm : p % layer.outFeatures < layer.outFeatures := Nat.mod_lt _ hl.out_pos
    refine congrArg List.sum (List.map_congr_left fun k hk => ?_)
    rw [cell_denseVq hm (List.mem_range.1 hk)]

end TritonAux

end Orka
