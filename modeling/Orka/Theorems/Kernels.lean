import Orka.Lemmas.Triton

/-!
# The Triton kernels against the dense weight

The gather-GEMM counts the scale block of a column by the column. The single-token kernel counts it by the group, with
`B // G` groups to a block, which is the same block only where the group divides the block.
-/

namespace Orka

open Flat Tile VQLinearAux TritonAux

/-- **When both kernels compute `x * W^T`.** For every layer whose stages are not in planes, with at most three of them, in
either layout, and every width that the assertions of `vq_linear_forward` admit: both kernels return the product with the
matrix of `reconstruct_weight` without its correction, with every read inside its buffer, if and only if the group size is a
power of two and divides the block size, or the layer has no columns at all. -/
theorem kernels_compute_iff {α : Type} [Field α] (layer : VQLinear α) (hl : Unplaned layer) (h3 : layer.stages.length ≤ 3)
    (hcheck : forwardChecks layer = .ok ()) (blockM : ℕ) (hM : blockM ∈ decodeConfigs) (config : ℕ × ℕ × ℕ)
    (hconfig : config ∈ gemmConfigs) (N : ℕ) (x out xs outs : List α) (hx : x.length = layer.inFeatures)
    (hout : out.length = layer.outFeatures) (hxs : xs.length = N * layer.inFeatures)
    (houts : outs.length = N * layer.outFeatures) :
    (∃ w, layer.reconstructVq = .ok w ∧
      vqDecodeN1 layer blockM x out = .ok (matmulT 1 layer.inFeatures layer.outFeatures x w) ∧
      vqGemmKernel layer config N xs outs = .ok (matmulT N layer.inFeatures layer.outFeatures xs w)) ↔
      layer.groupSize.isPowerOfTwo ∧ (layer.groupSize ∣ layer.blockSize ∨ layer.inFeatures = 0) := by
  obtain ⟨hG, hB⟩ : layer.groupSize ∣ layer.inFeatures ∧ layer.blockSize ∣ layer.inFeatures := by
    unfold forwardChecks at hcheck
    split at hcheck
    · cases hcheck
    · split at hcheck
      · cases hcheck
      · next hg =>
        split at hcheck
        · cases hcheck
        · next hb => exact ⟨Nat.dvd_of_mod_eq_zero (not_not.1 hg), Nat.dvd_of_mod_eq_zero (not_not.1 hb)⟩
  have hblockM : blockM.isPowerOfTwo := by
    have hall : ∀ b ∈ decodeConfigs, b.isPowerOfTwo := by decide
    exact hall blockM hM
  obtain ⟨bm, bn, bk⟩ := config
  obtain ⟨hbm, hbn, hbk⟩ : bm.isPowerOfTwo ∧ bn.isPowerOfTwo ∧ bk.isPowerOfTwo := by
    have hall : ∀ c ∈ gemmConfigs, c.1.isPowerOfTwo ∧ c.2.1.isPowerOfTwo ∧ c.2.2.isPowerOfTwo := by decide
    exact hall (bm, bn, bk) hconfig
  constructor
  · rintro ⟨w, -, hn1, -⟩
    by_contra hcond
    refine vqDecodeN1_fault hl hG hB hblockM ?_ x out _ hn1
    rcases not_and_or.1 hcond with hpow | hd
    · exact .inl hpow
    · exact .inr (not_or.1 hd)
  · rintro ⟨hpow, hd⟩
    exact ⟨denseVq layer, reconstructVq_ok hl hG hB, vqDecodeN1_ok hl h3 hG hB hpow hd hblockM hx hout,
      vqGemmKernel_ok hl h3 hG hB hbm hbn hbk hxs houts⟩

/-- One output row of eight columns: groups of two, blocks of four. -/
def evenLayer : VQLinear ℚ where
  outFeatures := 1
  inFeatures := 8
  groupSize := 2
  blockSize := 4
  stages := [{ planeWidth := 0, indices := [0, 1, 1, 0], lo := [], hi := [], codebook := [[1, 2], [3, 4]] }]
  scales := [1, 2]
  corr := ⟨[0, 0], [], []⟩
  corrSpCache := none
  bias := none
  groupMajor := false
  n1Ok := none

/-- A layer whose groups divide its blocks, through each kernel. -/
theorem kernels_compute_iff_even :
    (∃ w, evenLayer.reconstructVq = .ok w ∧
      vqDecodeN1 evenLayer 64 [1, 1, 1, 1, 1, 1, 1, 1] [0] = .ok (matmulT 1 8 1 [1, 1, 1, 1, 1, 1, 1, 1] w) ∧
      vqGemmKernel evenLayer (64, 64, 64) 2 (List.replicate 16 1) [0, 0] =
        .ok (matmulT 2 8 1 (List.replicate 16 1) w)) ↔
      Nat.isPowerOfTwo 2 ∧ (2 ∣ 4 ∨ 8 = 0) :=
  kernels_compute_iff evenLayer
    { out_pos := by decide, group_pos := by decide, block_pos := by decide, plane_width := by decide,
      index_count := by decide, index_range := by decide, row_width := by decide, scale_count := by decide }
    (by decide) (by decide) 64 (by decide) (64, 64, 64) (by decide) 2 [1, 1, 1, 1, 1, 1, 1, 1] [0] (List.replicate 16 1) [0, 0]
    (by decide) (by decide) (by decide) (by decide)

/-- One output row of six columns: groups of two, blocks of three. -/
def oddLayer : VQLinear ℚ where
  outFeatures := 1
  inFeatures := 6
  groupSize := 2
  blockSize := 3
  stages := [{ planeWidth := 0, indices := [0, 1, 0], lo := [], hi := [], codebook := [[1, 2], [3, 4]] }]
  scales := [1, 2]
  corr := ⟨[0, 0], [], []⟩
  corrSpCache := none
  bias := none
  groupMajor := false
  n1Ok := none

/-- The third group of two computes block 2 of two blocks, and its scale is read outside the buffer. -/
theorem vqDecodeN1_oddLayer :
    Unplaned oddLayer ∧ forwardChecks oddLayer = .ok () ∧ oddLayer.reconstructVq = .ok [1, 2, 3, 8, 2, 4] ∧
      vqDecodeN1 oddLayer 64 [1, 1, 1, 1, 1, 1] [0] = .error .outOfBounds := by
  refine ⟨{ out_pos := by decide, group_pos := by decide, block_pos := by decide, plane_width := by decide,
            index_count := by decide, index_range := by decide, row_width := by decide, scale_count := by decide },
    rfl, by decide +kernel, by decide +kernel⟩

end Orka
