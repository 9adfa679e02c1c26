import Orka.CudaKernels
import Orka.Lemmas.Csr
import Orka.Lemmas.TritonPlanes

/-!
# What the CUDA kernels compute

A warp of `gemv_planes` and the slices of `gemv_f4` add up the groups of a row, `ddense` writes every group of the matrix once, and
`spmv_warp` adds the product with the correction.
-/

set_option linter.unusedSectionVars false

namespace Orka

open Flat Steps Tile Warp VQLinearAux TritonAux

namespace CudaAux

variable {α : Type} [Field α] {layer : VQLinear α}

/-! ## One group -/

/-- Place `j` of the codewords named. -/
theorem addCodewords_ok {stages : List (StageBuffers α)} {i : StageBuffers α → ℤ}
    (hwidth : ∀ s ∈ stages, ∀ row ∈ s.codebook, row.length = layer.groupSize)
    (hrange : ∀ s ∈ stages, 0 ≤ i s ∧ i s < s.codebook.length) {j : ℕ} (hj : j < layer.groupSize) :
    addCodewords layer (stages.map fun s => (s.codebook.flatten, i s)) j =
      .ok (stages.map fun s => cell (s.codebook.getD (i s).toNat []) j).sum := by
  have hload : ∀ s ∈ stages, ∀ w : α, (load s.codebook.flatten (i s * layer.groupSize + j) true 0).map (w + ·) =
      .ok (w + cell (s.codebook.getD (i s).toNat []) j) := by
    intro s hs w
    rw [loadCodeword_ok (hwidth s hs) (hrange s hs) hj, ok_map]
  rw [addCodewords, List.foldlM_map, foldlM_add hload, zero_add]

/-- The product of the codewords named with the token in one group. -/
theorem dotPairs_ok {stages : List (StageBuffers α)} {i : StageBuffers α → ℤ} (heven : 2 ∣ layer.groupSize)
    (hwidth : ∀ s ∈ stages, ∀ row ∈ s.codebook, row.length = layer.groupSize)
    (hrange : ∀ s ∈ stages, 0 ≤ i s ∧ i s < s.codebook.length) {x : List α} {g : ℕ} (hx : (g + 1) * layer.groupSize ≤ x.length) :
    dotPairs layer x (stages.map fun s => (s.codebook.flatten, i s)) g =
      .ok (stages.map fun s => ((List.range layer.groupSize).map fun e =>
        cell (s.codebook.getD (i s).toNat []) e * cell x (g * layer.groupSize + e)).sum).sum := by
  obtain ⟨h, hh⟩ := heven
  have hhalf : layer.groupSize / 2 = h := by omega
  have hplace : ∀ e, 2 * (g * (layer.groupSize / 2) + e) = g * layer.groupSize + 2 * e := by
    intro e
    rw [hhalf, hh]
    ring
  set word : ℕ → α := fun j => (stages.map fun s => cell (s.codebook.getD (i s).toNat []) j).sum with hword
  have hpair : ∀ e ∈ List.range (layer.groupSize / 2), ∀ dot : α,
      ((addCodewords layer (stages.map fun s => (s.codebook.flatten, i s)) (2 * e)).bind fun w0 =>
        (addCodewords layer (stages.map fun s => (s.codebook.flatten, i s)) (2 * e + 1)).bind fun w1 =>
          (load x (2 * (g * (layer.groupSize / 2) + e) : ℕ) true 0).bind fun x0 =>
            (load x (2 * (g * (layer.groupSize / 2) + e) + 1 : ℕ) true 0).map fun x1 => dot + (w0 * x0 + w1 * x1)) =
        .ok (dot + (word (2 * e) * cell x (g * layer.groupSize + 2 * e) +
          word (2 * e + 1) * cell x (g * layer.groupSize + (2 * e + 1)))) := by
    intro e he dot
    have he' := List.mem_range.1 he
    rw [Nat.succ_mul] at hx
    rw [addCodewords_ok hwidth hrange (by omega), addCodewords_ok hwidth hrange (by omega), ok_bind, ok_bind, hplace,
      load_ok (by omega), load_ok (by omega), ok_bind, ok_map]
    rfl
  rw [dotPairs, foldlM_add hpair, zero_add, sum_pairs fun j => word j * cell x (g * layer.groupSize + j), hhalf, ← hh]
  exact congrArg Except.ok (sum_stages_places stages _ _ _).symm

/-- **One group of a row**: the scale of its block by the product. -/
theorem gemvGroup_ok {stages : List (StageBuffers α)} (index : StageBuffers α → ℕ → Except Fault ℤ) (i : StageBuffers α → ℤ)
    (scaleAt : ℕ → ℕ) {x : List α} {g : ℕ} (hgpb : layer.blockSize / layer.groupSize ≠ 0) (heven : 2 ∣ layer.groupSize)
    (hscale : scaleAt (g / (layer.blockSize / layer.groupSize)) < layer.scales.length)
    (hindex : ∀ s ∈ stages, index s g = .ok (i s)) (hwidth : ∀ s ∈ stages, ∀ row ∈ s.codebook, row.length = layer.groupSize)
    (hrange : ∀ s ∈ stages, 0 ≤ i s ∧ i s < s.codebook.length) (hx : (g + 1) * layer.groupSize ≤ x.length) (acc : α) :
    gemvGroup layer x stages index scaleAt acc g =
      .ok (acc + cell layer.scales (scaleAt (g / (layer.blockSize / layer.groupSize))) *
        (stages.map fun s => ((List.range layer.groupSize).map fun e =>
          cell (s.codebook.getD (i s).toNat []) e * cell x (g * layer.groupSize + e)).sum).sum) := by
  have hwords : (stages.mapM fun st => (index st g).map fun i => (st.codebook.flatten, i)) =
      .ok (stages.map fun s => (s.codebook.flatten, i s)) := mapM_ok fun s hs => by rw [hindex s hs, ok_map]
  unfold gemvGroup
  simp only [if_neg hgpb, load_ok hscale, hwords, dotPairs_ok heven hwidth hrange hx, ok_bind, ok_map]

/-- The values of the token in a group are there. -/
theorem group_le (hG : layer.groupSize ∣ layer.inFeatures) {x : List α} (hx : x.length = layer.inFeatures) {g : ℕ} (hg : g < layer.gpr) :
    (g + 1) * layer.groupSize ≤ x.length := by
  rw [hx, ← Nat.div_mul_cancel hG]
  exact Nat.mul_le_mul_right _ hg

/-! ## Indices in planes -/

/-- One group of `gemv_planes`. -/
theorem gemvPlanesGroup_ok (hr : Readable layer) (hp : Planed layer) (h3 : layer.stages.length ≤ 3) (hmajor : layer.groupMajor = false)
    (heven : 2 ∣ layer.groupSize) (hG : layer.groupSize ∣ layer.inFeatures) (hB : layer.blockSize ∣ layer.inFeatures)
    (hd : layer.groupSize ∣ layer.blockSize ∨ layer.inFeatures = 0) {x : List α} (hx : x.length = layer.inFeatures) {m : ℕ}
    (hm : m < layer.outFeatures) {g : ℕ} (hg : g < layer.gpr) (acc : α) :
    gemvPlanesGroup layer x m acc g = .ok (acc + groupTerm layer.joined x (layer.blockSize / layer.groupSize) m g) := by
  have hl := PlanesAux.unplaned_joined hr
  obtain ⟨hgpb, hblock⟩ := block_lt_bpr hl hG hB hd hg
  have hoffset : layer.joined.indexOffset m g = m * layer.gpr + g := if_neg (by simp [VQLinear.joined, hmajor])
  have hindex : ∀ s ∈ layer.stages, (cudaPlaneIndex s.lo s.hi layer.hiBits (m * layer.gpr + g)).map (fun i : ℕ => (i : ℤ)) =
      .ok (cell s.joined.indices (m * layer.gpr + g)) := by
    intro s hs
    obtain ⟨idxs, hidxs, hcount, -⟩ := hr.indices s hs
    have hoff : m * layer.gpr + g < idxs.length := by
      rw [hcount, pieces_total hr.group_pos hG]
      exact flat_lt hm hg
    have hfit : (m * layer.gpr + g) * (s.planeWidth - 8) < 2 ^ 31 := by
      rw [hp.uniform s hs]
      refine (Nat.mul_lt_mul_of_pos_right (flat_lt hm hg) ?_).trans_le hp.bits
      rcases hp.high_bits with h | h <;> omega
    have hbits : s.planeWidth - 8 = 2 ∨ s.planeWidth - 8 = 4 := by
      rw [hp.uniform s hs]
      exact hp.high_bits
    obtain ⟨i, hcuda, -, hcell⟩ := PlanesAux.planeIndex_of_indicesInt hbits hidxs hoff hfit
    rw [hp.uniform s hs] at hcuda
    rw [hcuda, ok_map, PlanesAux.indicesInt_joined hidxs, hcell]
  have hrange : ∀ s ∈ layer.stages, 0 ≤ cell s.joined.indices (m * layer.gpr + g) ∧
      cell s.joined.indices (m * layer.gpr + g) < s.codebook.length := by
    intro s hs
    have hoff := indexOffset_lt hl hG (List.mem_map_of_mem hs) hm hg
    rw [hoffset] at hoff
    exact hl.index_range _ (List.mem_map_of_mem hs) _ (cell_mem hoff)
  have hplace : layer.joined.scaleOffset m (g / (layer.blockSize / layer.groupSize)) =
      m * layer.bpr + g / (layer.blockSize / layer.groupSize) := if_neg (by simp [VQLinear.joined, hmajor])
  have hscale : m * layer.bpr + g / (layer.blockSize / layer.groupSize) < layer.scales.length :=
    hplace ▸ scaleOffset_lt hl hB hm hblock
  have hstages : layer.joined.stages = layer.stages.map StageBuffers.joined := rfl
  rw [gemvPlanesGroup, List.take_of_length_le h3]
  refine (gemvGroup_ok (fun s g => (cudaPlaneIndex s.lo s.hi layer.hiBits (m * layer.gpr + g)).map fun i : ℕ => (i : ℤ))
    (fun s => cell s.joined.indices (m * layer.gpr + g)) (fun b => m * layer.bpr + b) hgpb.ne' heven hscale hindex hr.row_width hrange
    (group_le hG hx hg) acc).trans ?_
  unfold groupTerm codeword
  rw [hplace, hoffset, hstages, List.map_map]
  rfl

/-- **The CUDA plane kernel computes the product** of a layer in rows, where the group is even and divides the block. -/
theorem decodePlanes_ok (hr : Readable layer) (hp : Planed layer) (h3 : layer.stages.length ≤ 3) (hmajor : layer.groupMajor = false)
    (heven : 2 ∣ layer.groupSize) (hG : layer.groupSize ∣ layer.inFeatures) (hB : layer.blockSize ∣ layer.inFeatures)
    (hd : layer.groupSize ∣ layer.blockSize ∨ layer.inFeatures = 0) {x : List α} (hx : x.length = layer.inFeatures) :
    decodePlanes layer x = .ok (matmulT 1 layer.inFeatures layer.outFeatures x (denseVq layer.joined)) := by
  have hl := PlanesAux.unplaned_joined hr
  have hrow : ∀ m < layer.outFeatures, gemvPlanesRow layer x m =
      .ok ((List.range layer.inFeatures).map fun k => cell x k * layer.joined.entry m k).sum := by
    intro m hm
    rw [gemvPlanesRow, warp_ok fun g hg acc => gemvPlanesGroup_ok hr hp h3 hmajor heven hG hB hd hx hm hg acc]
    exact congrArg Except.ok (sum_groupTerm hl hG hd x m)
  unfold decodePlanes
  refine (launch_ok (f := fun m => if m < layer.outFeatures then
      ((List.range layer.inFeatures).map fun k => cell x k * layer.joined.entry m k).sum else 0)
    (g := fun m => ((List.range layer.inFeatures).map fun k => cell x k * layer.joined.entry m k).sum) ?_ ?_ ?_).trans ?_
  · intro m _
    by_cases hm : m < layer.outFeatures
    · rw [if_pos hm, if_pos hm, hrow m hm]
    · rw [if_neg hm, if_neg hm]
  · intro m _ hm
    exact if_pos (of_decide_eq_true hm)
  · intro m hm
    rw [List.length_replicate] at hm
    have hcover := le_ceilDiv_mul (n := layer.outFeatures * 32) (b := 256) (by decide)
    exact ⟨m, List.mem_range.2 (by omega), decide_eq_true hm, rfl⟩
  · rw [List.length_replicate]
    exact congrArg Except.ok (matmulT_denseVq _).symm

/-! ## Plain indices, group-major -/

/-- The index of a group, read as an unsigned one. -/
theorem ushortIndex_ok (hl : Unplaned layer) (hmajor : layer.groupMajor = true) (hG : layer.groupSize ∣ layer.inFeatures)
    {s : StageBuffers α} (hs : s ∈ layer.stages) (hcount : s.codebook.length ≤ 2 ^ 16) {m g : ℕ} (hm : m < layer.outFeatures)
    (hg : g < layer.gpr) : ushortIndex layer m s g = .ok (cell s.indices (layer.indexOffset m g)) := by
  have hoffset : layer.indexOffset m g = g * layer.outFeatures + m := if_pos hmajor
  have hoff := indexOffset_lt hl hG hs hm hg
  have hrange := hl.index_range s hs _ (cell_mem hoff)
  rw [hoffset] at hoff hrange ⊢
  rw [ushortIndex, load_ok hoff, ok_map, Int.emod_eq_of_lt hrange.1 (by omega)]

/-- One group of `gemv_f4`. -/
theorem gemvF4Group_ok (hl : Unplaned layer) (h2 : layer.stages.length ≤ 2) (hmajor : layer.groupMajor = true)
    (hcount : ∀ s ∈ layer.stages, s.codebook.length ≤ 2 ^ 16)
    (heven : 2 ∣ layer.groupSize) (hG : layer.groupSize ∣ layer.inFeatures) (hB : layer.blockSize ∣ layer.inFeatures)
    (hd : layer.groupSize ∣ layer.blockSize ∨ layer.inFeatures = 0) {x : List α} (hx : x.length = layer.inFeatures) {m : ℕ}
    (hm : m < layer.outFeatures) {g : ℕ} (hg : g < layer.gpr) (acc : α) :
    gemvF4Group layer x m acc g = .ok (acc + groupTerm layer x (layer.blockSize / layer.groupSize) m g) := by
  obtain ⟨hgpb, hblock⟩ := block_lt_bpr hl hG hB hd hg
  have hplace : ∀ b, layer.scaleOffset m b = b * layer.outFeatures + m := fun b => if_pos hmajor
  have hscale := scaleOffset_lt hl hB hm hblock
  rw [hplace] at hscale
  rw [gemvF4Group, List.take_of_length_le h2]
  refine (gemvGroup_ok (ushortIndex layer m) (fun s => cell s.indices (layer.indexOffset m g)) (fun b => b * layer.outFeatures + m)
    hgpb.ne' heven hscale (fun s hs => ushortIndex_ok hl hmajor hG hs (hcount s hs) hm hg) hl.row_width
    (fun s hs => hl.index_range s hs _ (cell_mem (indexOffset_lt hl hG hs hm hg))) (group_le hG hx hg) acc).trans ?_
  unfold groupTerm codeword
  rw [hplace]

/-- **The CUDA decoder computes the product** of a layer that is group-major. -/
theorem cudaDecode_ok (hl : Unplaned layer) (h2 : layer.stages.length ≤ 2) (hmajor : layer.groupMajor = true)
    (hcount : ∀ s ∈ layer.stages, s.codebook.length ≤ 2 ^ 16)
    (heven : 2 ∣ layer.groupSize) (hG : layer.groupSize ∣ layer.inFeatures) (hB : layer.blockSize ∣ layer.inFeatures)
    (hd : layer.groupSize ∣ layer.blockSize ∨ layer.inFeatures = 0) {config : ℕ × ℕ} (hconfig : config ∈ cudaConfigs) {x : List α}
    (hx : x.length = layer.inFeatures) :
    cudaDecode layer config x = .ok (matmulT 1 layer.inFeatures layer.outFeatures x (denseVq layer)) := by
  obtain ⟨ksplit, th⟩ := config
  have hpos : ∀ c ∈ cudaConfigs, 0 < c.1 ∧ 0 < c.2 := by decide
  obtain ⟨hks, hth⟩ := hpos _ hconfig
  set gps := ceilDiv layer.gpr ksplit with hgps
  have hslice : ∀ k, ∀ m < layer.outFeatures,
      ((List.range (min (k * gps + gps) layer.gpr - k * gps)).map (k * gps + ·)).foldlM (gemvF4Group layer x m) 0 =
        .ok ((List.range (min (k * gps + gps) layer.gpr - k * gps)).map fun j =>
          groupTerm layer x (layer.blockSize / layer.groupSize) m (k * gps + j)).sum := by
    intro k m hm
    have hgroup : ∀ g ∈ (List.range (min (k * gps + gps) layer.gpr - k * gps)).map (k * gps + ·), ∀ acc : α,
        gemvF4Group layer x m acc g = .ok (acc + groupTerm layer x (layer.blockSize / layer.groupSize) m g) := by
      intro g hg acc
      obtain ⟨j, hj, rfl⟩ := List.mem_map.1 hg
      have hj' := List.mem_range.1 hj
      exact gemvF4Group_ok hl h2 hmajor hcount heven hG hB hd hx hm (by omega) acc
    rw [foldlM_add hgroup, zero_add, List.map_map]
    rfl
  unfold cudaDecode
  refine (launchAdd_slices (f := fun l => if l.2 < layer.outFeatures then
      ((List.range (min (l.1 * gps + gps) layer.gpr - l.1 * gps)).map fun j =>
        groupTerm layer x (layer.blockSize / layer.groupSize) l.2 (l.1 * gps + j)).sum else 0)
    (g := fun k m => ((List.range (min (k * gps + gps) layer.gpr - k * gps)).map fun j =>
      groupTerm layer x (layer.blockSize / layer.groupSize) m (k * gps + j)).sum) ?_ ?_ (le_ceilDiv_mul hth)).trans ?_
  · intro k _ m _
    by_cases hm : m < layer.outFeatures
    · rw [if_pos hm, if_pos hm, hslice k m hm]
    · rw [if_neg hm, if_neg hm]
  · intro k _ m hm
    exact if_pos hm
  · rw [matmulT_denseVq]
    refine congrArg Except.ok (tabulate_congr fun m _ => ?_)
    rw [sum_slices (fun g => groupTerm layer x (layer.blockSize / layer.groupSize) m g)
      (by rw [Nat.mul_comm]; exact le_ceilDiv_mul hks)]
    exact sum_groupTerm hl hG hd x m

/-- One value of `ddense` is an entry of the matrix. -/
theorem ddenseValue_ok (hl : Unplaned layer) (h2 : layer.stages.length ≤ 2) (hmajor : layer.groupMajor = true)
    (hcount : ∀ s ∈ layer.stages, s.codebook.length ≤ 2 ^ 16) (hG : layer.groupSize ∣ layer.inFeatures)
    (hB : layer.blockSize ∣ layer.inFeatures) (hd : layer.groupSize ∣ layer.blockSize) {m g e : ℕ} (hm : m < layer.outFeatures)
    (hg : g < layer.gpr) (he : e < layer.groupSize) :
    ddenseValue layer (g * layer.outFeatures + m) e = .ok (layer.entry m (g * layer.groupSize + e)) := by
  obtain ⟨hgpb, hblock⟩ := block_lt_bpr hl hG hB (.inl hd) hg
  have hthread := flat_row_col (m := g) hm
  have hplace : ∀ b, layer.scaleOffset m b = b * layer.outFeatures + m := fun b => if_pos hmajor
  have hscale := scaleOffset_lt hl hB hm hblock
  rw [hplace] at hscale
  have hwords : (layer.stages.mapM fun st => (ushortIndex layer m st g).map fun i => (st.codebook.flatten, i)) =
      .ok (layer.stages.map fun s => (s.codebook.flatten, cell s.indices (layer.indexOffset m g))) :=
    mapM_ok fun s hs => by rw [ushortIndex_ok hl hmajor hG hs (hcount s hs) hm hg, ok_map]
  have hword := addCodewords_ok (i := fun s => cell s.indices (layer.indexOffset m g)) hl.row_width
    (fun s hs => hl.index_range s hs _ (cell_mem (indexOffset_lt hl hG hs hm hg))) he
  have hcolumn := flat_row_col (m := g) he
  unfold ddenseValue
  simp only [hthread, List.take_of_length_le h2, if_neg hgpb.ne', hwords, load_ok hscale, hword, ok_bind, ok_map]
  unfold VQLinear.entry VQLinear.stageEntry
  rw [hcolumn.1, hcolumn.2, block_of_group hl.group_pos hd he, hplace, mul_comm]

/-- **`decode_dense` decodes the matrix** of a layer that is group-major. -/
theorem decodeDense_ok (hl : Unplaned layer) (h2 : layer.stages.length ≤ 2) (hmajor : layer.groupMajor = true)
    (hcount : ∀ s ∈ layer.stages, s.codebook.length ≤ 2 ^ 16) (height : layer.groupSize = 8) (hG : layer.groupSize ∣ layer.inFeatures)
    (hB : layer.blockSize ∣ layer.inFeatures) (hd : layer.groupSize ∣ layer.blockSize) {out : List α}
    (hout : out.length = layer.outFeatures * layer.inFeatures) : decodeDense layer out = .ok (denseVq layer) := by
  have hK : layer.gpr * 8 = layer.inFeatures := by
    rw [VQLinear.gpr, height]
    exact Nat.div_mul_cancel (height ▸ hG)
  -- a thread is a row and a group, and fills eight columns of the row
  have hthread : ∀ {t : ℕ}, t < layer.outFeatures * layer.gpr →
      t % layer.outFeatures < layer.outFeatures ∧ t / layer.outFeatures < layer.gpr := fun ht =>
    ⟨Nat.mod_lt _ hl.out_pos, Nat.div_lt_of_lt_mul ht⟩
  have hcolumn : ∀ {g e : ℕ}, g < layer.gpr → e < 8 → g * 8 + e < layer.inFeatures := fun hg he => hK ▸ flat_lt hg he
  have hvalue : ∀ l ∈ List.range (ceilDiv (layer.outFeatures * layer.gpr) 256 * 256) ×ˢ List.range 8,
      (if l.1 < layer.outFeatures * layer.gpr then ddenseValue layer l.1 l.2 else .ok 0) =
        .ok (if l.1 < layer.outFeatures * layer.gpr then
          layer.entry (l.1 % layer.outFeatures) (l.1 / layer.outFeatures * 8 + l.2) else 0) := by
    rintro ⟨t, e⟩ hl'
    have he := List.mem_range.1 (List.mem_product.1 hl').2
    by_cases ht : t < layer.outFeatures * layer.gpr
    · obtain ⟨hm, hg⟩ := hthread ht
      have hvalue := ddenseValue_ok hl h2 hmajor hcount hG hB hd hm hg (height.symm ▸ he : e < layer.groupSize)
      rw [Nat.div_add_mod', height] at hvalue
      simp only [if_pos ht, hvalue]
    · simp only [if_neg ht]
  unfold decodeDense
  refine (launch_ok (g := fun p => layer.entry (p / layer.inFeatures) (p % layer.inFeatures)) hvalue ?_ ?_).trans ?_
  · rintro ⟨t, e⟩ hl' hlive
    have ht := of_decide_eq_true hlive
    obtain ⟨hm, hg⟩ := hthread ht
    have hplace := flat_row_col (m := t % layer.outFeatures) (hcolumn hg (List.mem_range.1 (List.mem_product.1 hl').2))
    simp only [if_pos ht, hK, Nat.add_assoc, hplace]
  · intro p hp
    rw [hout] at hp
    have hm : p / layer.inFeatures < layer.outFeatures := Nat.div_lt_of_lt_mul (by rwa [Nat.mul_comm] at hp)
    have hk : p % layer.inFeatures < layer.inFeatures := Nat.mod_lt _ (Nat.pos_of_ne_zero fun h => by simp [h] at hp)
    have hg : p % layer.inFeatures / 8 < layer.gpr := Nat.div_lt_of_lt_mul (by rwa [Nat.mul_comm, hK])
    have ht : p % layer.inFeatures / 8 * layer.outFeatures + p / layer.inFeatures < layer.outFeatures * layer.gpr := by
      rw [Nat.mul_comm layer.outFeatures]
      exact flat_lt hg hm
    have hplace := flat_row_col (m := p % layer.inFeatures / 8) hm
    refine ⟨(p % layer.inFeatures / 8 * layer.outFeatures + p / layer.inFeatures, p % layer.inFeatures % 8), ?_, decide_eq_true ht, ?_⟩
    · exact List.mem_product.2 ⟨List.mem_range.2 (ht.trans_le (le_ceilDiv_mul (by decide))), List.mem_range.2 (Nat.mod_lt _ (by decide))⟩
    · simp only [hplace, hK, Nat.add_assoc, Nat.div_add_mod']
  · rw [hout]
    rfl

/-! ## The correction -/

open CsrAux

/-- The entries of a row, each at its column. -/
theorem sum_row (x : List α) {inFeatures m : ℕ} {ws : List (ℕ × α)} (hw : ∀ d ∈ ws, d.1 % inFeatures < inFeatures) :
    ((ws.filter fun d => d.1 / inFeatures = m).map fun d => d.2 * cell x (d.1 % inFeatures)).sum =
      ((List.range inFeatures).map fun k => cell x k * ((ws.filter fun d => d.1 = m * inFeatures + k).map Prod.snd).sum).sum := by
  induction ws with
  | nil => simp
  | cons d ws ih =>
    have hd := hw d (List.mem_cons_self ..)
    have ih := ih fun e he => hw e (List.mem_cons_of_mem _ he)
    have hcons : ∀ k, ((((d :: ws).filter fun d => d.1 = m * inFeatures + k).map Prod.snd).sum : α) =
        (if d.1 = m * inFeatures + k then d.2 else 0) + ((ws.filter fun d => d.1 = m * inFeatures + k).map Prod.snd).sum := by
      intro k
      by_cases hk : d.1 = m * inFeatures + k
      · rw [List.filter_cons_of_pos (by simpa using hk), List.map_cons, List.sum_cons, if_pos hk]
      · rw [List.filter_cons_of_neg (by simpa using hk), if_neg hk, zero_add]
    have hone : ((List.range inFeatures).map fun k => cell x k * if d.1 = m * inFeatures + k then d.2 else 0).sum =
        if d.1 / inFeatures = m then d.2 * cell x (d.1 % inFeatures) else 0 := by
      have hsplit := Nat.div_add_mod' d.1 inFeatures
      by_cases hm : d.1 / inFeatures = m
      · rw [if_pos hm]
        have hat : ∀ k ∈ List.range inFeatures, (cell x k * if d.1 = m * inFeatures + k then d.2 else 0) =
            if k = d.1 % inFeatures then d.2 * cell x (d.1 % inFeatures) else 0 := by
          intro k _
          rw [hm] at hsplit
          by_cases hk : k = d.1 % inFeatures
          · rw [if_pos hk, if_pos (by omega), hk, mul_comm]
          · rw [if_neg hk, if_neg (by omega), mul_zero]
        rw [List.map_congr_left hat]
        exact (Finset.sum_ite_eq' (Finset.range inFeatures) (d.1 % inFeatures) fun _ => d.2 * cell x (d.1 % inFeatures)).trans
          (if_pos (Finset.mem_range.2 hd))
      · rw [if_neg hm]
        refine List.sum_eq_zero fun v hv => ?_
        obtain ⟨k, hk, rfl⟩ := List.mem_map.1 hv
        refine (congrArg (cell x k * ·) (if_neg fun h => hm ?_)).trans (mul_zero _)
        rw [h]
        exact (flat_row_col (List.mem_range.1 hk)).1
    simp only [hcons, mul_add]
    rw [List.sum_map_add, hone, ← ih]
    by_cases hm : d.1 / inFeatures = m
    · rw [List.filter_cons_of_pos (by simpa using hm), List.map_cons, List.sum_cons, if_pos hm]
    · rw [List.filter_cons_of_neg (by simpa using hm), if_neg hm, zero_add]

section Spmv

variable {outFeatures inFeatures : ℕ} {deltas : List (ℕ × α)}

/-- **The warp of a row** computes the product with the row of the correction. -/
theorem spmvRow_ok (h : ∀ d ∈ deltas, d.1 < outFeatures * inFeatures) (hn : (deltas.map Prod.fst).Nodup) {x : List α}
    (hx : x.length = inFeatures) {m : ℕ} (hm : m < outFeatures) :
    spmvRow (toCsr outFeatures inFeatures deltas) x m = .ok ((List.range inFeatures).map fun k =>
      cell x k * (lastWrite (sortedDeltas inFeatures deltas) (m * inFeatures + k)).getD 0).sum := by
  set sorted := sortedDeltas inFeatures deltas with hsorted
  have hn' : (sorted.map Prod.fst).Nodup := ((perm_sortedDeltas inFeatures deltas).map Prod.fst).nodup_iff.2 hn
  have hpairwise : sorted.Pairwise fun a b => a.1 / inFeatures ≤ b.1 / inFeatures :=
    (stablySorted_mergeSort (fun d : ℕ × α => d.1 / inFeatures) deltas).sorted
  have hcolumn : ∀ d ∈ sorted, d.1 % inFeatures < inFeatures := fun d hd => Nat.mod_lt _ (Nat.pos_of_ne_zero fun h0 => by
    have := h d ((perm_sortedDeltas inFeatures deltas).subset hd)
    simp [h0] at this)
  set below := sorted.filter fun d => d.1 / inFeatures < m with hbelow
  set run := sorted.filter fun d => d.1 / inFeatures = m with hrun
  obtain ⟨above, hsplit⟩ := exists_run hpairwise m
  rw [← hbelow, ← hrun] at hsplit
  have hptr : ∀ r, r < outFeatures + 1 → load (toCsr outFeatures inFeatures deltas).rowptr (r : ℕ) true 0 =
      .ok (((sorted.map fun d => d.1 / inFeatures).countP fun row => decide (row < r) : ℕ) : ℤ) := by
    intro r hr
    have hrow : (toCsr outFeatures inFeatures deltas).rowptr = tabulate (outFeatures + 1) fun r =>
        (((sorted.map fun d => d.1 / inFeatures).countP fun row => decide (row < r) : ℕ) : ℤ) := rfl
    rw [hrow, load_ok (by simpa using hr), cell_tabulate _ hr]
  have hstart : (sorted.map fun d => d.1 / inFeatures).countP (fun row => decide (row < m)) = below.length := by
    rw [List.countP_map, List.countP_eq_length_filter]
    rfl
  have hend : (sorted.map fun d => d.1 / inFeatures).countP (fun row => decide (row < m + 1)) = below.length + run.length := by
    rw [countP_lt_succ, hstart]
  have hturn : ∀ j (hj : j < run.length) (acc : α),
      ((load (toCsr outFeatures inFeatures deltas).val ((below.length : ℤ) + j) true 0).bind fun v =>
        (load (toCsr outFeatures inFeatures deltas).col ((below.length : ℤ) + j) true 0).bind fun k =>
          (load x k true 0).map fun xk => acc + v * xk) =
        .ok (acc + run[j].2 * cell x (run[j].1 % inFeatures)) := by
    intro j hj acc
    have hval : (toCsr outFeatures inFeatures deltas).val = sorted.map Prod.snd := rfl
    have hcol : (toCsr outFeatures inFeatures deltas).col = sorted.map fun d => ((d.1 % inFeatures : ℕ) : ℤ) := rfl
    have hlength : below.length + j < sorted.length := by
      rw [hsplit, List.length_append, List.length_append]
      omega
    have hat : cell sorted (below.length + j) = run[j] := by
      rw [cell_eq_getElem hlength, List.getElem_of_eq hsplit, List.getElem_append_right (by omega), List.getElem_append_left (by omega)]
      simp
    have hin : run[j].1 % inFeatures < x.length := hx ▸ hcolumn _ (List.mem_filter.1 (List.getElem_mem hj)).1
    rw [hval, hcol, ← Nat.cast_add, load_ok (by simpa using hlength), load_ok (by simpa using hlength), ok_bind, ok_bind,
      cell_map hlength, cell_map hlength, hat, load_ok hin, ok_map]
  unfold spmvRow
  rw [hptr m (by omega), hptr (m + 1) (by omega), ok_bind, ok_bind, hstart, hend]
  have hcount : (((below.length + run.length : ℕ) : ℤ) - (below.length : ℕ)).toNat = run.length := by omega
  rw [hcount, warp_ok (t := fun j => (run[j]?.map fun d => d.2 * cell x (d.1 % inFeatures)).getD 0) fun j hj acc => by
    rw [hturn j hj acc, List.getElem?_eq_getElem hj, Option.map_some, Option.getD_some]]
  simp only [← sum_filter_of_nodup hn']
  rw [← sum_row x hcolumn, ← hrun]
  have hterms : ((List.range run.length).map fun j => (run[j]?.map fun d => d.2 * cell x (d.1 % inFeatures)).getD 0) =
      run.map fun d => d.2 * cell x (d.1 % inFeatures) := by
    refine List.ext_getElem (by simp) fun j hj _ => ?_
    simp only [List.length_map, List.length_range] at hj
    simp [hj]
  rw [hterms]

/-- **The CUDA correction** adds the product with the matrix the correction stands for. -/
theorem cudaCorrect_ok (h : ∀ d ∈ deltas, d.1 < outFeatures * inFeatures) (hn : (deltas.map Prod.fst).Nodup) {x y : List α}
    (hx : x.length = inFeatures) (hy : y.length = outFeatures) :
    cudaCorrect outFeatures (toCsr outFeatures inFeatures deltas) x y = .ok (List.zipWith (· + ·) y (tabulate outFeatures fun m =>
      ((List.range inFeatures).map fun k =>
        cell x k * (lastWrite (sortedDeltas inFeatures deltas) (m * inFeatures + k)).getD 0).sum)) := by
  set f : ℕ → α := fun m => ((List.range inFeatures).map fun k =>
    cell x k * (lastWrite (sortedDeltas inFeatures deltas) (m * inFeatures + k)).getD 0).sum with hf
  unfold cudaCorrect
  refine (launch_ok (f := fun m => if m < outFeatures then f m + cell y m else 0) (g := fun m => f m + cell y m) ?_ ?_ ?_).trans ?_
  · intro m _
    by_cases hm : m < outFeatures
    · rw [if_pos hm, if_pos hm, spmvRow_ok h hn hx hm, ok_bind, load_ok (hy ▸ hm), ok_map, add_comm]
    · rw [if_neg hm, if_neg hm]
  · intro m _ hm
    exact if_pos (of_decide_eq_true hm)
  · intro m hm
    have hcover := le_ceilDiv_mul (n := outFeatures * 32) (b := 128) (by decide)
    exact ⟨m, List.mem_range.2 (by omega), decide_eq_true (hy ▸ hm), rfl⟩
  · refine congrArg Except.ok (ext_cell (by simp [hy]) fun m hm => ?_)
    rw [length_tabulate, hy] at hm
    rw [hy, cell_tabulate _ hm, cell_zipWith (hy ▸ hm) (by simpa using hm), cell_tabulate _ hm, add_comm]

end Spmv

end CudaAux

end Orka
