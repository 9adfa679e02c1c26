import Orka.Lemmas.Decode
import Orka.Lemmas.Verify

/-!
# The length of what is decoded

Every step of the numpy decoder keeps the number of values of a tensor that is stored whole.
-/

namespace Orka

open Flat Steps

section DecodeLength

variable {α : Type} {num : Numerics α} {store : Store α} {tm : TensorMeta} {x y : List α}

/-- Putting salient values back keeps the length. -/
theorem length_of_decodeSalient (h : decodeSalient num store tm x = .ok y) : y.length = x.length := by
  unfold decodeSalient at h
  split at h
  · rw [Except.ok.inj h]
  · obtain ⟨⟨sIdx, sVal⟩, -, h⟩ := bind_eq_ok.1 h
    simp only at h
    split at h
    · rw [Except.ok.inj h]
    · unfold injectSalient at h
      split at h
      · cases h
      · exact length_of_assignAt h

section Steps

variable [Field α]

/-- The stages cover the padded values. -/
theorem le_length_of_decodeStages (h : decodeStages num store tm = .ok y) : tm.paddedValues ≤ y.length := by
  unfold decodeStages at h
  split at h
  · cases h
  · next hg =>
    refine foldlM_keeps (P := fun acc : List α => tm.paddedValues ≤ acc.length) (fun stage _ acc b hacc hb => ?_) ?_ h
    · obtain ⟨⟨cb, idxs⟩, -, hb⟩ := bind_eq_ok.1 hb
      obtain ⟨rows, -, hb⟩ := bind_eq_ok.1 hb
      rwa [length_of_addInto hb]
    · rw [List.length_replicate]
      exact le_ceilDiv_mul (Nat.pos_of_ne_zero hg)

/-- Undoing a rotation keeps the length. -/
theorem length_of_unrotate {backend : Backend} {rotation : Rotation} {rows cols seed : ℕ} (hx : x.length = rows * cols)
    (h : unrotate num backend rotation rows cols seed x = .ok y) : y.length = rows * cols := by
  have horthogonal : (unrotateOrthogonal num rows cols seed x).length = rows * cols := length_tabulate _ _
  cases rotation with
  | none => rwa [← Except.ok.inj h]
  | orthogonal => rwa [← Except.ok.inj h]
  | hadamard =>
    obtain ⟨b, hb, h⟩ := bind_eq_ok.1 h
    have hcols : 0 < cols := by
      rcases Nat.eq_zero_or_pos cols with rfl | hpos
      · -- a block size of zero is refused
        obtain rfl := Except.ok.inj hb
        cases h
      · exact hpos
    obtain ⟨m, rfl, hdvd⟩ := RotateAux.hadamardBlockSize_spec hcols hb
    rw [RotateAux.blockFwht_ok num backend hdvd x] at h
    have hroom : rows * (cols / 2 ^ m) * 2 ^ m ≤ x.length := by rw [RotateAux.length_blocks hdvd, hx]
    rw [← Except.ok.inj h, length_flatten_of_width (RotateAux.width_fwht (length_of_mem_rowsOf hroom)), List.length_map, length_rowsOf,
      RotateAux.length_blocks hdvd]

/-- A matrix has as many values as its shape. -/
theorem prod_of_rowsCols {shape : List ℕ} {rows cols : ℕ} (h : rowsCols shape = .ok (rows, cols)) : rows * cols = shape.prod := by
  cases shape with
  | nil => cases h
  | cons r rest =>
    obtain ⟨rfl, rfl⟩ := Prod.mk.inj (Except.ok.inj h)
    rw [List.prod_cons]

/-- Column scales keep the length of a whole tensor. -/
theorem length_of_applyColScales_whole {scales : List α} (hx : x.length = tm.shape.prod)
    (h : applyColScales .numpy x tm.shape scales = .ok y) : y.length = tm.shape.prod := by
  unfold applyColScales applyColL2ScalesNumpy at h
  obtain ⟨⟨rows, cols⟩, hshape, h⟩ := bind_eq_ok.1 h
  simp only at h
  split at h
  · cases h
  · split at h
    · cases h
    · rw [← Except.ok.inj h, scaleCols, length_tabulate, List.length_take, hx, prod_of_rowsCols hshape, Nat.min_self]

/-- On torch the shape is checked at the end. -/
theorem length_of_decodeTensorTorch (h : decodeTensorTorch num store tm = .ok y) : y.length = tm.shape.prod := by
  unfold decodeTensorTorch at h
  obtain ⟨x₁, -, h⟩ := bind_eq_ok.1 h
  obtain ⟨x₂, -, h⟩ := bind_eq_ok.1 h
  obtain ⟨x₃, -, h⟩ := bind_eq_ok.1 h
  obtain ⟨x₄, -, h⟩ := bind_eq_ok.1 h
  obtain ⟨x₅, -, h⟩ := bind_eq_ok.1 h
  obtain ⟨x₆, -, h⟩ := bind_eq_ok.1 h
  obtain ⟨x₇, -, h⟩ := bind_eq_ok.1 h
  split at h
  · next hlen => rwa [← Except.ok.inj h]
  · cases h

/-- Undoing the rotation keeps the length of a whole tensor. -/
theorem length_of_decodeRotation_whole (hx : x.length = tm.shape.prod) (h : decodeRotation num tm x = .ok y) :
    y.length = tm.shape.prod := by
  unfold decodeRotation at h
  split at h
  · rwa [← Except.ok.inj h]
  · unfold unrotateFlat at h
    obtain ⟨⟨rows, cols⟩, hshape, h⟩ := bind_eq_ok.1 h
    simp only at h
    split at h
    · cases h
    · next hlen => rw [← prod_of_rowsCols hshape, length_of_unrotate (not_not.1 hlen) h]

/-- The factors of a low-rank correction belong to the shape of the tensor. -/
def LowrankFits (num : Numerics α) (store : Store α) (tm : TensorMeta) : Prop :=
  ∀ lr, tm.lowrank = some lr → ∀ a b, readLowrank num store lr = .ok (a, b) →
    ∀ rows cols, rowsCols tm.shape = .ok (rows, cols) → a.length = rows ∧ b.length = cols

/-- The correction keeps the length of a whole tensor. -/
theorem length_of_decodeLowrank (hfits : LowrankFits num store tm) (hx : x.length = tm.shape.prod)
    (h : decodeLowrank num store tm x = .ok y) : y.length = tm.shape.prod := by
  unfold decodeLowrank at h
  split at h
  · rwa [← Except.ok.inj h]
  · next lr hlr =>
    obtain ⟨⟨a, b⟩, hread, h⟩ := bind_eq_ok.1 h
    unfold applyLowrankNumpy at h
    obtain ⟨⟨rows, cols⟩, hshape, h⟩ := bind_eq_ok.1 h
    obtain ⟨mat, hmat, h⟩ := bind_eq_ok.1 h
    obtain ⟨ha, hb⟩ := hfits lr hlr a b hread rows cols hshape
    unfold reshape at hmat
    split at hmat
    · next hlen =>
      have hproduct : (matmulT rows lr.rank cols a.flatten b.flatten).length = rows * cols := length_tabulate _ _
      rw [← Except.ok.inj hmat, flatten_rowsOf hlen, ha, hb, DecodeAux.broadcastMatrix_same hlen hproduct] at h
      rw [← Except.ok.inj h, List.length_zipWith, hlen, hproduct, Nat.min_self, prod_of_rowsCols hshape]
    · cases hmat

end Steps

variable [Field α] [LinearOrder α] [IsStrictOrderedRing α] [FloorRing α]

theorem length_of_decodeOutliers (h : decodeOutliers num store tm x = .ok y) : y.length = x.length := by
  unfold decodeOutliers at h
  split at h
  · rw [Except.ok.inj h]
  · obtain ⟨⟨positions, values⟩, -, h⟩ := bind_eq_ok.1 h
    exact length_of_put h

theorem length_of_decodePillars (h : decodePillars num store tm x = .ok y) : y.length = x.length := by
  unfold decodePillars at h
  split at h
  · rw [Except.ok.inj h]
  · obtain ⟨⟨positions, values⟩, -, h⟩ := bind_eq_ok.1 h
    exact length_of_put h

theorem length_of_applyBlockScales' {scales : List α} {blockSize : ℕ} (h : applyBlockScales .numpy x scales blockSize = .ok y) :
    y.length = x.length := by
  rcases Nat.eq_zero_or_pos blockSize with rfl | hb
  · cases h
  · exact length_of_applyBlockScales hb h

/-- The scales keep the length of a whole tensor. -/
theorem length_of_decodeScales (hx : x.length = tm.shape.prod) (h : decodeScales num store tm x = .ok y) :
    y.length = tm.shape.prod := by
  unfold decodeScales at h
  split at h
  · rwa [← Except.ok.inj h]
  · obtain ⟨scales, -, h⟩ := bind_eq_ok.1 h
    exact length_of_applyColScales_whole hx h
  iterate 3
    · obtain ⟨scales, -, h⟩ := bind_eq_ok.1 h
      rwa [length_of_applyBlockScales' h]
  · obtain ⟨scales, -, h⟩ := bind_eq_ok.1 h
    obtain ⟨z, hz, h⟩ := bind_eq_ok.1 h
    have hz : z.length = tm.shape.prod := (length_of_applyBlockScales' hz).trans hx
    split at h
    · rwa [← Except.ok.inj h]
    · obtain ⟨awq, -, h⟩ := bind_eq_ok.1 h
      exact length_of_applyColScales_whole hz h

/-- **A tensor that is stored whole decodes to as many values as its shape has.** -/
theorem length_of_decodeTensor (hfull : tm.packedValues = tm.shape.prod) (hle : tm.packedValues ≤ tm.paddedValues)
    (hfits : LowrankFits num store tm) (h : decodeTensor num store tm = .ok y) : y.length = tm.shape.prod := by
  unfold decodeTensor at h
  obtain ⟨sum, hsum, h⟩ := bind_eq_ok.1 h
  have hcut : (sum.take tm.packedValues).length = tm.shape.prod := by
    have := le_length_of_decodeStages hsum
    rw [List.length_take]
    omega
  obtain ⟨x₁, h₁, h⟩ := bind_eq_ok.1 h
  obtain ⟨x₂, h₂, h⟩ := bind_eq_ok.1 h
  obtain ⟨x₃, h₃, h⟩ := bind_eq_ok.1 h
  obtain ⟨x₄, h₄, h⟩ := bind_eq_ok.1 h
  obtain ⟨x₅, h₅, h⟩ := bind_eq_ok.1 h
  have hlen₂ : x₂.length = tm.shape.prod := by rw [length_of_decodePillars h₂, length_of_decodeOutliers h₁, hcut]
  have hlen₄ : x₄.length = tm.shape.prod := length_of_decodeScales (length_of_decodeRotation_whole hlen₂ h₃) h₄
  exact length_of_decodeLowrank hfits ((length_of_decodeSalient h₅).trans hlen₄) h

end DecodeLength

end Orka
