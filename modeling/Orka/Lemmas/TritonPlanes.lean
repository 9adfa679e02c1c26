import Orka.Lemmas.Planes
import Orka.Lemmas.Triton
import Orka.TritonPlanes

/-!
# Layers in planes as layers without

A layer in planes decodes to what it decodes to once its indices are joined and laid out plainly, and the Triton plane kernels compute
on it, lane by lane, what the plain kernels compute on the joined layer.
-/

set_option linter.unusedSectionVars false

namespace Orka

open Flat Steps Tile VQLinearAux

/-- A stage with its indices joined. -/
def StageBuffers.joined {α : Type} (s : StageBuffers α) : StageBuffers α :=
  { s with planeWidth := 0, indices := s.indicesInt.toOption.getD [] }

/-- A layer with the indices of every stage joined. -/
def VQLinear.joined {α : Type} (layer : VQLinear α) : VQLinear α := { layer with stages := layer.stages.map StageBuffers.joined }

/-- The constructor's sizes, and indices that name codewords, in planes or not. -/
structure Readable {α : Type} (layer : VQLinear α) : Prop where
  out_pos : 0 < layer.outFeatures
  group_pos : 0 < layer.groupSize
  block_pos : 0 < layer.blockSize
  indices : ∀ s ∈ layer.stages, ∃ idxs, s.indicesInt = .ok idxs ∧
    idxs.length = ceilDiv (layer.outFeatures * layer.inFeatures) layer.groupSize ∧ ∀ i ∈ idxs, 0 ≤ i ∧ i < s.codebook.length
  row_width : ∀ s ∈ layer.stages, ∀ row ∈ s.codebook, row.length = layer.groupSize
  scale_count : layer.scales.length = ceilDiv (layer.outFeatures * layer.inFeatures) layer.blockSize

/-- Planes of two or four high bits, the same in every stage, whose bits an `int32` counts. -/
structure Planed {α : Type} (layer : VQLinear α) : Prop where
  high_bits : layer.hiBits = 2 ∨ layer.hiBits = 4
  uniform : ∀ s ∈ layer.stages, s.planeWidth - 8 = layer.hiBits
  bits : layer.outFeatures * layer.gpr * layer.hiBits ≤ 2 ^ 31

namespace PlanesAux

variable {α : Type} [Field α] {layer : VQLinear α}

/-! ## The joined layer -/

/-- Joined indices are the indices. -/
theorem indicesInt_joined {s : StageBuffers α} {idxs : List ℤ} (h : s.indicesInt = .ok idxs) : s.joined.indices = idxs := by
  rw [StageBuffers.joined, h]
  rfl

/-- A readable layer is plain once joined. -/
theorem unplaned_joined (hr : Readable layer) : Unplaned layer.joined where
  out_pos := hr.out_pos
  group_pos := hr.group_pos
  block_pos := hr.block_pos
  plane_width s hs := by
    obtain ⟨s', -, rfl⟩ := List.mem_map.1 hs
    rfl
  index_count s hs := by
    obtain ⟨s', hs', rfl⟩ := List.mem_map.1 hs
    obtain ⟨idxs, hidxs, hcount, -⟩ := hr.indices s' hs'
    rw [indicesInt_joined hidxs]
    exact hcount
  index_range s hs := by
    obtain ⟨s', hs', rfl⟩ := List.mem_map.1 hs
    obtain ⟨idxs, hidxs, -, hrange⟩ := hr.indices s' hs'
    rw [indicesInt_joined hidxs]
    exact hrange
  row_width s hs := by
    obtain ⟨s', hs', rfl⟩ := List.mem_map.1 hs
    exact hr.row_width s' hs'
  scale_count := hr.scale_count

/-- Joining the indices keeps what the layer decodes to. -/
theorem reconstructVq_joined (hr : Readable layer) : layer.joined.reconstructVq = layer.reconstructVq := by
  have hstage : ∀ s ∈ layer.stages, ∀ decoded : List α,
      ((layer.joined.rowMajorIndices s.joined).bind fun idxs =>
        (takeRows s.joined.codebook idxs).bind fun rows => addInto decoded rows.flatten) =
      (layer.rowMajorIndices s).bind fun idxs => (takeRows s.codebook idxs).bind fun rows => addInto decoded rows.flatten := by
    intro s hs decoded
    obtain ⟨idxs, hidxs, -, -⟩ := hr.indices s hs
    have hjoined : s.joined.indicesInt = s.indicesInt := by
      rw [StageBuffers.indicesInt, if_pos (show s.joined.planeWidth = 0 from rfl), indicesInt_joined hidxs, hidxs]
    unfold VQLinear.rowMajorIndices
    rw [hjoined]
    rfl
  have hfold : ∀ init : List α, layer.joined.stages.foldlM (fun decoded s => (layer.joined.rowMajorIndices s).bind fun idxs =>
      (takeRows s.codebook idxs).bind fun rows => addInto decoded rows.flatten) init =
      layer.stages.foldlM (fun decoded s => (layer.rowMajorIndices s).bind fun idxs =>
        (takeRows s.codebook idxs).bind fun rows => addInto decoded rows.flatten) init := by
    intro init
    rw [VQLinear.joined, List.foldlM_map]
    exact foldlM_congr hstage init
  unfold VQLinear.reconstructVq
  simp only [hfold]
  rfl

/-! ## Loads of a lane -/

/-- The index out of the planes is the joined one. -/
theorem loadPlaneEntry_eq (hr : Readable layer) (hp : Planed layer) (hG : layer.groupSize ∣ layer.inFeatures) {s : StageBuffers α}
    (hs : s ∈ layer.stages) {iOff e : ℕ} {mask : Bool} (hmask : mask = true → iOff < layer.outFeatures * layer.gpr) :
    loadPlaneEntry layer s iOff e mask = loadEntry layer.joined s.joined iOff e mask := by
  obtain ⟨idxs, hidxs, hcount, -⟩ := hr.indices s hs
  cases mask with
  | false => simp only [loadPlaneEntry, loadEntry, tritonPlaneIndex, load, Bool.false_eq_true, if_false, ok_bind, ok_map]
  | true =>
    have hoff : iOff < idxs.length := by
      rw [hcount, pieces_total hr.group_pos hG]
      exact hmask rfl
    have hbits : s.planeWidth - 8 = 2 ∨ s.planeWidth - 8 = 4 := by
      rw [hp.uniform s hs]
      exact hp.high_bits
    have hfit : iOff * (s.planeWidth - 8) < 2 ^ 31 := by
      refine (Nat.mul_lt_mul_of_pos_right (hmask rfl) ?_).trans_le (by rw [hp.uniform s hs]; exact hp.bits)
      rcases hbits with h | h <;> omega
    obtain ⟨i, -, htriton, hcell⟩ := planeIndex_of_indicesInt hbits hidxs hoff hfit
    rw [hp.uniform s hs] at htriton
    unfold loadPlaneEntry loadEntry
    rw [htriton, indicesInt_joined hidxs, load_ok hoff, ok_bind, ok_bind, hcell, Nat.cast_add, Nat.cast_mul]
    rfl

/-- A place of the layout is inside the index buffer. -/
theorem indexOffset_lt_count {m g : ℕ} (h : m < layer.outFeatures ∧ g < layer.gpr) :
    layer.indexOffset m g < layer.outFeatures * layer.gpr := by
  unfold VQLinear.indexOffset
  split
  · rw [Nat.mul_comm layer.outFeatures]
    exact flat_lt h.2 h.1
  · exact flat_lt h.1 h.2

/-- Two stages, folded over the layer or over the joined layer. -/
theorem foldlM_joined (h2 : layer.stages.length = 2) {f g : StageBuffers α → Except Fault α}
    (h : ∀ s ∈ layer.stages, f s = g s.joined) :
    (layer.stages.take 2).foldlM (fun acc s => (f s).map (acc + ·)) 0 =
      (layer.joined.stages.take 3).foldlM (fun acc s => (g s).map (acc + ·)) (0 : α) := by
  rw [List.take_of_length_le h2.le, List.take_of_length_le (by rw [VQLinear.joined, List.length_map, h2]; decide), VQLinear.joined,
    List.foldlM_map]
  exact foldlM_congr (fun s hs acc => by rw [h s hs]) 0

/-! ## The kernels -/

/-- **The single-token plane kernel** computes what the plain one computes on the joined layer. -/
theorem vqDecodePlanesN1_eq (hr : Readable layer) (hp : Planed layer) (h2 : layer.stages.length = 2)
    (hG : layer.groupSize ∣ layer.inFeatures) (blockM : ℕ) (x out : List α) :
    vqDecodePlanesN1 layer blockM x out = vqDecodeN1 layer.joined blockM x out := by
  have hgroup : ∀ m, ∀ g ∈ List.range layer.gpr, ∀ (es : List ℕ) (acc : α),
      decodePlanesGroup layer x es (layer.blockSize / layer.groupSize) m acc g =
        decodeGroup layer.joined x es (layer.blockSize / layer.groupSize) m acc g := by
    intro m g hg es acc
    have hdot : ∀ xg : List α, ∀ s ∈ layer.stages,
        dotPlaneStage layer xg es (layer.indexOffset m g) (decide (m < layer.outFeatures)) s =
          dotStage layer.joined xg es (layer.indexOffset m g) (decide (m < layer.outFeatures)) s.joined := by
      intro xg s hs
      unfold dotPlaneStage dotStage
      have hentry : ∀ e, loadPlaneEntry layer s (layer.indexOffset m g) e (decide (m < layer.outFeatures)) =
          loadEntry layer.joined s.joined (layer.indexOffset m g) e (decide (m < layer.outFeatures)) := fun e =>
        loadPlaneEntry_eq hr hp hG hs fun hm =>
          indexOffset_lt_count ⟨of_decide_eq_true hm, List.mem_range.1 hg⟩
      simp only [hentry]
    unfold decodePlanesGroup decodeGroup
    simp only [foldlM_joined h2 (hdot _)]
    rfl
  have hrow : ∀ (es : List ℕ) (m : ℕ), (List.range layer.gpr).foldlM
      (decodePlanesGroup layer x es (layer.blockSize / layer.groupSize) m) 0 =
      (List.range layer.gpr).foldlM (decodeGroup layer.joined x es (layer.blockSize / layer.groupSize) m) 0 := fun es m =>
    foldlM_congr (fun g hg acc => hgroup m g hg es acc) 0
  unfold vqDecodePlanesN1 vqDecodeN1 vqDecodePlanesKernel vqDecodeKernel
  simp only [hrow]
  rfl

/-- **The gather-GEMM over planes** computes what the plain one computes on the joined layer. -/
theorem vqGemmPlanesKernel_eq (hr : Readable layer) (hp : Planed layer) (h2 : layer.stages.length = 2)
    (hG : layer.groupSize ∣ layer.inFeatures) (config : ℕ × ℕ × ℕ) (N : ℕ) (x out : List α) :
    vqGemmPlanesKernel layer config N x out = vqGemmKernel layer.joined config N x out := by
  have hcolumn : ∀ n m k, gemmPlanesColumn layer x N n m k = gemmColumn layer.joined x N n m k := by
    intro n m k
    have hsum := foldlM_joined h2 (f := fun s => loadPlaneEntry layer s (layer.indexOffset m (k / layer.groupSize))
        (k % layer.groupSize) (decide (m < layer.outFeatures) && decide (k < layer.inFeatures)))
      (g := fun s => loadEntry layer.joined s (layer.indexOffset m (k / layer.groupSize)) (k % layer.groupSize)
        (decide (m < layer.outFeatures) && decide (k < layer.inFeatures))) fun s hs => by
      refine loadPlaneEntry_eq hr hp hG hs fun hmask => ?_
      rw [Bool.and_eq_true, decide_eq_true_eq, decide_eq_true_eq] at hmask
      exact indexOffset_lt_count ⟨hmask.1, piece_lt hr.group_pos hG hmask.2⟩
    unfold gemmPlanesColumn gemmColumn
    simp only [hsum]
    rfl
  have htile : gemmPlanesTile layer config.2.2 x N = gemmTile layer.joined config.2.2 x N := by
    funext n m acc k0
    unfold gemmPlanesTile gemmTile
    simp only [hcolumn]
  unfold vqGemmPlanesKernel vqGemmKernel
  simp only [htile]
  rfl

end PlanesAux

end Orka
