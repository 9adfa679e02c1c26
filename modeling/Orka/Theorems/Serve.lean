import Orka.Lemmas.Serve
import Orka.Theorems.Export

/-!
# A served layer

What a layer returns over any run of calls and moves between devices, and when it loses its correction. What a run leaves of the
layer depends on which kernels raise, never on what they return. An answer is what the kernels of its own call compute.
-/

set_option linter.unusedSectionVars false

namespace Orka

open Flat Steps Tile CsrAux

variable {α : Type}

/-! ## A layer as it is built -/

section Build

variable [Field α]

/-- A layer nobody has called yet: `w` is what its stages decode to, and `c` what its correction stands for. -/
structure Cold (num : Numerics α) (layer : VQLinear α) (w c : List α) : Prop where
  constructed : Constructed layer
  vq : layer.reconstructVq = .ok w
  dense : csrDense layer.outFeatures layer.inFeatures layer.corr = .ok c
  added : layer.addCorrection num layer.corr w = .ok (List.zipWith (· + ·) w c)
  length_vq : w.length = layer.outFeatures * layer.inFeatures
  length_dense : c.length = layer.outFeatures * layer.inFeatures
  none_stored : layer.corr.col.length = 0 → List.zipWith (· + ·) w c = w
  spmv : ∀ x y : List α, x.length = layer.inFeatures → y.length = layer.outFeatures →
    cudaCorrect layer.outFeatures layer.corr x y =
      .ok (List.zipWith (· + ·) y (matmulT 1 layer.inFeatures layer.outFeatures x c))
  cache : layer.corrSpCache = none
  memo : layer.n1Ok = none

end Build

section Built

variable [Field α] [LinearOrder α] [IsStrictOrderedRing α] [FloorRing α]
variable (num : Numerics α) {store : Store α} {tm : TensorMeta}

/-- The row-major scales are as many as the stored ones. -/
theorem length_rowMajorScales {layer : VQLinear α} {sc : List α} (h : layer.rowMajorScales = .ok sc) :
    sc.length = layer.scales.length := by
  unfold VQLinear.rowMajorScales at h
  simp only at h
  split at h
  · split at h
    · cases h
    · unfold viewTransposed at h
      split at h
      · next hlength =>
        obtain rfl := Except.ok.inj h
        rw [length_tabulate, hlength, Nat.mul_comm]
      · cases h
  · obtain rfl := Except.ok.inj h
    rfl

/-- A layer decodes to as many values as its matrix has. -/
theorem length_reconstructVq {layer : VQLinear α} (hlayer : Constructed layer) {w : List α} (h : layer.reconstructVq = .ok w) :
    w.length = layer.outFeatures * layer.inFeatures := by
  unfold VQLinear.reconstructVq at h
  split at h
  · cases h
  simp only at h
  obtain ⟨decoded, -, h⟩ := bind_eq_ok.1 h
  obtain ⟨sc, hsc, h⟩ := bind_eq_ok.1 h
  obtain ⟨scaled, hscaled, rfl⟩ := map_eq_ok.1 h
  have hcount : (sc.take (ceilDiv layer.total layer.blockSize)).length = ceilDiv layer.total layer.blockSize := by
    rw [List.length_take, length_rowMajorScales hsc, hlayer.scale_count]
    exact Nat.min_self _
  rw [hcount, DecodeAux.broadcastMatrix_rows] at hscaled
  obtain rfl := Except.ok.inj hscaled
  rw [List.length_take, length_tabulate]
  exact Nat.min_eq_left (le_ceilDiv_mul hlayer.block_pos)

/-- **A layer `build_vq_linear` returns** is cold. -/
theorem exists_cold {bias : Option (List α)} {layer : VQLinear α} (hbuild : buildVqLinear num store tm bias = .ok layer) {w : List α}
    (hvq : layer.reconstructVq = .ok w) : ∃ c, Cold num layer w c := by
  have hconstructed := (buildVqLinear_constructed hbuild).1
  have hlength := length_reconstructVq hconstructed hvq
  unfold buildVqLinear at hbuild
  obtain ⟨⟨m, k⟩, -, hbuild⟩ := bind_eq_ok.1 hbuild
  simp only at hbuild
  split at hbuild
  · cases hbuild
  obtain ⟨stages, -, hbuild⟩ := bind_eq_ok.1 hbuild
  obtain ⟨⟨buf, scales⟩, -, hbuild⟩ := bind_eq_ok.1 hbuild
  obtain ⟨corr, hcorr, rfl⟩ := map_eq_ok.1 hbuild
  obtain ⟨deltas, hlt, hnodup, rfl⟩ := exists_deltas hcorr
  obtain ⟨stages', scales', groupMajor, hmajor⟩ := exists_toGroupMajor
    { outFeatures := m, inFeatures := k, groupSize := tm.groupSize, blockSize := tm.blockSize, stages := stages, scales := buf,
      corr := toCsr m k deltas, corrSpCache := none, bias := bias.map (·.map Binary16.round16), groupMajor := false, n1Ok := none }
  rw [hmajor] at hconstructed hvq hlength ⊢
  refine ⟨_, hconstructed, hvq, csrDense_toCsr hlt hnodup, addCorrection_toCsr num hlt hnodup hlength, hlength, length_tabulate _ _,
    fun hnone => ?_, fun x y hx hy => ?_, rfl, rfl⟩
  · -- a correction without columns has no entries
    have hempty : sortedDeltas k deltas = [] := by
      rw [← List.length_eq_zero_iff, ← hnone]
      exact (List.length_map _).symm
    apply ext_cell
    · rw [List.length_zipWith, length_tabulate, hlength, Nat.min_self]
    intro p hp
    have hp' : p < m * k := by
      rw [List.length_zipWith, length_tabulate, hlength, Nat.min_self] at hp
      exact hp
    rw [cell_zipWith (hlength ▸ hp') (by simpa using hp'), cell_tabulate _ hp']
    simp only [hempty]
    exact add_zero _
  · rw [CudaAux.cudaCorrect_ok hlt hnodup hx hy, TritonAux.matmulT_one]
    refine congrArg (fun row => Except.ok (List.zipWith (· + ·) y row)) (tabulate_congr fun i hi => ?_)
    refine congrArg List.sum (List.map_congr_left fun j hj => ?_)
    rw [cell_tabulate _ (flat_lt hi (List.mem_range.1 hj))]

end Built

/-! ## A run -/

section Run

variable [Field α] {num : Numerics α} {layer : VQLinear α} {w c : List α}

/-- A layer the CUDA planes read where its buffers hold no correction. -/
structure GemvReads (layer : VQLinear α) : Prop where
  stages : layer.stages.length ≤ 3
  uniform : layer.uniformPlanes = true
  even : 2 ∣ layer.groupSize
  major : layer.groupMajor = false

/-- A served layer: its correction is still in the buffers, or it is in the sparse tensor that was made of them. The memo of the CUDA
planes is never true while the buffers hold a correction, and what the CUDA decoder has cached is the layer's own correction. -/
inductive Serving (layer : VQLinear α) : Bool → Served α → Prop where
  | live (memo : Option Bool) (isCuda : Bool) (cache : Option (Option (Csr α)))
      (hmemo : memo = some true → GemvReads layer ∧ layer.corr.col.length = 0)
      (hcache : ∀ csr, cache = some csr → csr = if 0 < layer.corr.col.length then some layer.corr else none) :
      Serving layer false ⟨{ layer with n1Ok := memo }, isCuda, cache⟩
  | moved (memo : Option Bool) (isCuda : Bool) (cache : Option (Option (Csr α))) (hstored : 0 < layer.corr.col.length)
      (hmemo : memo = some true → GemvReads layer)
      (hcache : ∀ csr, cache = some csr → csr = if 0 < layer.corr.col.length then some layer.corr else none) :
      Serving layer true
        ⟨{ layer with corr := ⟨[], [], []⟩, corrSpCache := some layer.corr, n1Ok := memo }, isCuda, cache⟩

variable (layer w c) in
/-- `x * (W_vq + C)^T + bias`. -/
def fullOutput (x : List (List α)) : List (List α) :=
  addBias layer.bias (linear layer.outFeatures layer.inFeatures (List.zipWith (· + ·) w c) x)

variable (layer w) in
/-- `x * W_vq^T + bias`. -/
def bareOutput (x : List (List α)) : List (List α) := addBias layer.bias (linear layer.outFeatures layer.inFeatures w x)

/-- A layer without a correction gives the bare product. -/
theorem Cold.bare_eq_full (h : Cold num layer w c) (hnone : layer.corr.col.length = 0) (x : List (List α)) :
    bareOutput layer w x = fullOutput layer w c x := by
  rw [bareOutput, fullOutput, h.none_stored hnone]

/-- The sparse correction brings a bare product up to the full one. -/
theorem Cold.sparse_output (h : Cold num layer w c) (x : List (List α)) :
    (sparseMm layer.outFeatures layer.inFeatures layer.corr x).map (fun z =>
      addBias layer.bias (addOutputs (linear layer.outFeatures layer.inFeatures w x) z)) = .ok (fullOutput layer w c x) := by
  rw [sparseMm, h.dense, ok_map, ok_map, fullOutput, linear_add h.length_vq h.length_dense]

/-! ## What the kernels of a call give -/

/-- A layer and tokens the kernels are right for: rows of tokens as wide as the matrix, indices that name codewords, and for a single
token groups that divide the block. Without planes there are at most three stages; in planes the groups and the blocks divide the
width, and an `int32` counts the bits of a plane. -/
structure KernelFits (layer : VQLinear α) (x : List (List α)) : Prop where
  token_width : ∀ row ∈ x, row.length = layer.inFeatures
  out_pos : 0 < layer.outFeatures
  index_range : ∀ s ∈ layer.stages, ∀ idxs, s.indicesInt = .ok idxs → ∀ i ∈ idxs, 0 ≤ i ∧ i < s.codebook.length
  group_dvd : x.length = 1 → layer.groupSize ∣ layer.blockSize ∨ layer.inFeatures = 0
  stages : layer.planed = false → layer.stages.length ≤ 3
  planes : layer.planed = true → layer.groupSize ∣ layer.inFeatures ∧ layer.blockSize ∣ layer.inFeatures ∧
    layer.outFeatures * layer.gpr * layer.hiBits ≤ 2 ^ 31

/-- A call that meets the kernels where it may use one: on CUDA for uniform planes, and under the dispatcher without planes. -/
def CallFits (host : ServeHost) (layer : VQLinear α) (isCuda : Bool) (call : ServeCall α) : Prop :=
  (if layer.planed = true then isCuda = true ∧ layer.uniformPlanes = true else host.dispatch = true) → KernelFits layer call.x

/-- A launch of a Triton kernel raises: for a reason of its own, or for a group that is no width of a block of lanes. -/
def LaunchFails (layer : VQLinear α) (call : ServeCall α) (kernel : Kernel) : Prop :=
  call.raises kernel = true ∨ NoBlock layer call

/-- A layer that fits the kernels has indices they can read. -/
theorem KernelFits.readable {x : List (List α)} (hfits : KernelFits layer x) (hlayer : Constructed layer) : Readable layer where
  out_pos := hfits.out_pos
  group_pos := hlayer.group_pos
  block_pos := hlayer.block_pos
  indices s hs := by
    obtain ⟨idxs, hidxs, hcount, -⟩ := hlayer.indices s hs
    exact ⟨idxs, hidxs, hcount, hfits.index_range s hs idxs hidxs⟩
  row_width := hlayer.row_width
  scale_count := hlayer.scale_count

/-- A layer without planes that fits the kernels meets their assumptions. -/
theorem KernelFits.unplaned {x : List (List α)} (hfits : KernelFits layer x) (hlayer : Constructed layer)
    (hplaned : layer.planed = false) : Unplaned layer where
  out_pos := hfits.out_pos
  group_pos := hlayer.group_pos
  block_pos := hlayer.block_pos
  plane_width s hs := by simpa using List.any_eq_false.1 hplaned s hs
  index_count s hs := by
    obtain ⟨idxs, hidxs, hcount, -⟩ := hlayer.indices s hs
    have hwidth : s.planeWidth = 0 := by simpa using List.any_eq_false.1 hplaned s hs
    rw [StageBuffers.indicesInt, if_pos hwidth] at hidxs
    rw [Except.ok.inj hidxs, hcount]
  index_range s hs := by
    have hwidth : s.planeWidth = 0 := by simpa using List.any_eq_false.1 hplaned s hs
    exact hfits.index_range s hs s.indices (if_pos hwidth)
  row_width := hlayer.row_width
  scale_count := hlayer.scale_count

/-- Uniform planes make a layer planed. -/
theorem planed_of_uniform (h : layer.uniformPlanes = true) : layer.planed = true := by
  unfold VQLinear.uniformPlanes at h
  split at h
  · cases h
  · next s ss hstages =>
    rw [VQLinear.planed, hstages, List.any_cons, bne_iff_ne.2 (of_decide_eq_true h).1, Bool.true_or]

/-- A layer of uniform planes that fits the kernels has planes they can read. -/
theorem KernelFits.hasPlanes {x : List (List α)} (hfits : KernelFits layer x) (h : layer.uniformPlanes = true) : Planed layer := by
  have hbits := (hfits.planes (planed_of_uniform h)).2.2
  unfold VQLinear.uniformPlanes at h
  split at h
  · cases h
  · next s ss hstages =>
    obtain ⟨-, hall, hwidth⟩ := of_decide_eq_true h
    have hhi : layer.hiBits = s.planeWidth - 8 := by rw [VQLinear.hiBits, hstages]; rfl
    refine ⟨hhi ▸ hwidth, fun t ht => ?_, hbits⟩
    rw [hstages] at ht
    rcases List.mem_cons.1 ht with rfl | ht
    · exact hhi.symm
    · rw [hall t ht, hhi]

/-- Without planes, `W_vq` is the matrix the kernels read. -/
theorem Cold.eq_denseVq (h : Cold num layer w c) (hl : Unplaned layer) (hG : layer.groupSize ∣ layer.inFeatures)
    (hB : layer.blockSize ∣ layer.inFeatures) : TritonAux.denseVq layer = w :=
  Except.ok.inj ((VQLinearAux.reconstructVq_ok hl hG hB).symm.trans h.vq)

/-- In planes it is the one of the joined layer. -/
theorem Cold.eq_denseVq_joined (h : Cold num layer w c) {x : List (List α)} (hfits : KernelFits layer x) (hplaned : layer.planed = true) :
    TritonAux.denseVq layer.joined = w := by
  obtain ⟨hG, hB, -⟩ := hfits.planes hplaned
  have hr := hfits.readable h.constructed
  exact Except.ok.inj ((VQLinearAux.reconstructVq_ok (PlanesAux.unplaned_joined hr) hG hB).symm.trans
    ((PlanesAux.reconstructVq_joined hr).trans h.vq))

/-- **The Triton kernels** give the product with `W_vq`, or do not compile. -/
theorem Cold.tritonProduct (h : Cold num layer w c) (hplaned : layer.planed = false) (hG : layer.groupSize ∣ layer.inFeatures)
    (hB : layer.blockSize ∣ layer.inFeatures) (call : ServeCall α) (hfits : KernelFits layer call.x) :
    Answers (linear layer.outFeatures layer.inFeatures w call.x) (LaunchFails layer call .triton) (layer.tritonProduct call) := by
  have hl := hfits.unplaned h.constructed hplaned
  rw [← h.eq_denseVq hl hG hB]
  exact answers_tritonProduct hl (hfits.stages hplaned) hG hB call hfits.token_width hfits.group_dvd

/-- **The Triton plane kernels** give the product with `W_vq`, or do not compile. -/
theorem Cold.planesProduct (h : Cold num layer w c) (h2 : layer.stages.length = 2) (huniform : layer.uniformPlanes = true)
    (call : ServeCall α) (kernel : Kernel) (hfits : KernelFits layer call.x) :
    Answers (linear layer.outFeatures layer.inFeatures w call.x) (LaunchFails layer call kernel) (layer.planesProduct call kernel) := by
  have hplaned := planed_of_uniform huniform
  obtain ⟨hG, hB, -⟩ := hfits.planes hplaned
  rw [← h.eq_denseVq_joined hfits hplaned]
  exact answers_planesProduct (hfits.readable h.constructed) (hfits.hasPlanes huniform) h2 hG hB call kernel hfits.token_width
    hfits.group_dvd

/-- **The CUDA plane kernel** gives the product with `W_vq`. -/
theorem Cold.cudaPlanesProduct (h : Cold num layer w c) (hreads : GemvReads layer) (call : ServeCall α) (hone : call.x.length = 1)
    (hfits : KernelFits layer call.x) {y : List (List α)} (hy : layer.cudaPlanesProduct call = .ok y) :
    y = linear layer.outFeatures layer.inFeatures w call.x := by
  have hplaned := planed_of_uniform hreads.uniform
  obtain ⟨hG, hB, -⟩ := hfits.planes hplaned
  rw [← h.eq_denseVq_joined hfits hplaned]
  exact (answers_cudaPlanesProduct (hfits.readable h.constructed) (hfits.hasPlanes hreads.uniform) hreads.stages hreads.major hreads.even
    hG hB (hfits.group_dvd hone) call hfits.token_width hone).eq_of_ok hy

/-- **The CUDA decoder** gives the product with `W_vq + C`, where it is given the layer's correction. -/
theorem Cold.cudaDecodeProduct (h : Cold num layer w c) (hplaned : layer.planed = false) (hreads : F4Reads layer)
    (hG : layer.groupSize ∣ layer.inFeatures) (hB : layer.blockSize ∣ layer.inFeatures) (call : ServeCall α) (hone : call.x.length = 1)
    (hfits : KernelFits layer call.x) {y : List (List α)}
    (hy : layer.cudaDecodeProduct call (if 0 < layer.corr.col.length then some layer.corr else none) = .ok y) :
    addBias layer.bias y = fullOutput layer w c call.x := by
  have hl := hfits.unplaned h.constructed hplaned
  by_cases hstored : 0 < layer.corr.col.length
  · rw [if_pos hstored] at hy
    obtain ⟨row, hrow⟩ := List.length_eq_one_iff.1 hone
    have hwidth : row.length = layer.inFeatures := hfits.token_width row (by rw [hrow]; exact List.mem_singleton_self row)
    have hc : (linear layer.outFeatures layer.inFeatures c call.x).flatten =
        matmulT 1 layer.inFeatures layer.outFeatures row c := by
      rw [flatten_linear hfits.out_pos c hfits.token_width, hrow, List.flatten_singleton]
      rfl
    have hsum := cudaDecodeProduct_eq hl hreads hG hB call hfits.token_width hone
      (z := linear layer.outFeatures layer.inFeatures (List.zipWith (· + ·) w c) call.x) (by rw [linear_length, hone])
      (linear_width _ _ _ _) ?_ hy
    · rw [hsum]
      rfl
    · rw [h.eq_denseVq hl hG hB, linear_add h.length_vq h.length_dense]
      have hcorrect := h.spmv row (linear layer.outFeatures layer.inFeatures w call.x).flatten hwidth
        (by rw [length_flatten_of_width (linear_width _ _ _ _), linear_length, hone, Nat.one_mul])
      rw [← hc] at hcorrect
      rw [hrow] at hcorrect ⊢
      simpa [linear, addOutputs] using hcorrect
  · rw [if_neg hstored] at hy
    have hsum := cudaDecodeProduct_eq hl hreads hG hB call hfits.token_width hone
      (z := linear layer.outFeatures layer.inFeatures w call.x) (by rw [linear_length, hone]) (linear_width _ _ _ _)
      (by rw [h.eq_denseVq hl hG hB]; rfl) hy
    rw [hsum]
    exact h.bare_eq_full (by omega) call.x

/-- What the kernels read never changes. -/
theorem Serving.products {freed : Bool} {st : Served α} (hst : Serving layer freed st) (call : ServeCall α) :
    st.layer.tritonProduct call = layer.tritonProduct call ∧ st.layer.cudaDense call = layer.cudaDense call ∧
      st.layer.cudaPlanesProduct call = layer.cudaPlanesProduct call ∧
        (∀ kernel, st.layer.planesProduct call kernel = layer.planesProduct call kernel) ∧
          ∀ csr, st.layer.cudaDecodeProduct call csr = layer.cudaDecodeProduct call csr := by
  cases hst with
  | live => exact ⟨rfl, rfl, rfl, fun _ => rfl, fun _ => rfl⟩
  | moved => exact ⟨rfl, rfl, rfl, fun _ => rfl, fun _ => rfl⟩

/-- **The decoded matrix** never loses the correction. -/
theorem Serving.reconstructWeight (h : Cold num layer w c) {freed : Bool} {st : Served α} (hst : Serving layer freed st) :
    st.layer.reconstructWeight num = .ok (List.zipWith (· + ·) w c) := by
  cases hst with
  | live memo isCuda cache hmemo hcache =>
    by_cases hnone : layer.corr.col.length = 0
    · have hcsr : ({ layer with n1Ok := memo } : VQLinear α).correctionCsr = none := by
        rw [VQLinear.correctionCsr, if_neg (by simp [hnone])]
        exact h.cache
      rw [VQLinear.reconstructWeight, hcsr, h.none_stored hnone]
      exact congrArg (Except.bind · _) h.vq
    · have hcsr : ({ layer with n1Ok := memo } : VQLinear α).correctionCsr = some layer.corr :=
        if_pos (Nat.pos_of_ne_zero hnone)
      rw [VQLinear.reconstructWeight, hcsr]
      exact (congrArg (Except.bind · _) h.vq).trans h.added
  | moved memo isCuda cache hstored hmemo hcache =>
    exact (congrArg (Except.bind · _) h.vq).trans h.added

/-- The Python path gives the full product, cached weight or not. -/
theorem Serving.forwardPython (h : Cold num layer w c) {freed : Bool} {st : Served α} (hst : Serving layer freed st)
    (x : List (List α)) : st.layer.forwardPython num x = .ok (fullOutput layer w c x) := by
  rw [VQLinear.forwardPython, hst.reconstructWeight h]
  cases hst with
  | live => rfl
  | moved => rfl

/-- **Asking for the sparse correction** moves it, if there is one, and gives it. -/
theorem Serving.correctionSparse (h : Cold num layer w c) {freed : Bool} {st : Served α} (hst : Serving layer freed st)
    (x : List (List α)) :
    Serving layer (decide (0 < layer.corr.col.length)) { st with layer := st.layer.correctionSparse.1 } ∧
      st.layer.correctionSparse.1.correctedOutput st.layer.correctionSparse.2 x (linear layer.outFeatures layer.inFeatures w x) =
        .ok (fullOutput layer w c x) := by
  cases hst with
  | live memo isCuda cache hmemo hcache =>
    by_cases hnone : layer.corr.col.length = 0
    · have hsparse : ({ layer with n1Ok := memo } : VQLinear α).correctionSparse = ({ layer with n1Ok := memo }, none) := by
        unfold VQLinear.correctionSparse
        simp only [h.cache, if_pos hnone]
      rw [hsparse, decide_eq_false (by omega)]
      exact ⟨.live memo isCuda cache hmemo hcache, congrArg Except.ok (h.bare_eq_full hnone x)⟩
    · have hsparse : ({ layer with n1Ok := memo } : VQLinear α).correctionSparse =
          ({ layer with corr := ⟨[], [], []⟩, corrSpCache := some layer.corr, n1Ok := memo }, some layer.corr) := by
        unfold VQLinear.correctionSparse
        simp only [h.cache, if_neg hnone]
      rw [hsparse, decide_eq_true (Nat.pos_of_ne_zero hnone)]
      exact ⟨.moved memo isCuda cache (Nat.pos_of_ne_zero hnone) (fun hm => (hmemo hm).1) hcache, h.sparse_output x⟩
  | moved memo isCuda cache hstored hmemo hcache =>
    rw [decide_eq_true hstored]
    exact ⟨.moved memo isCuda cache hstored hmemo hcache, h.sparse_output x⟩

/-- Serving never changes the bias. -/
theorem Serving.bias_eq {freed : Bool} {st : Served α} (hst : Serving layer freed st) : st.layer.bias = layer.bias := by
  cases hst with
  | live => rfl
  | moved => rfl

/-- Moving the layer keeps what it serves. -/
theorem Serving.isCuda_eq {freed : Bool} {st : Served α} (hst : Serving layer freed st) (isCuda : Bool) :
    Serving layer freed { st with isCuda := isCuda } := by
  cases hst with
  | live memo _ cache hmemo hcache => exact .live memo isCuda cache hmemo hcache
  | moved memo _ cache hstored hmemo hcache => exact .moved memo isCuda cache hstored hmemo hcache

/-! ## Layers without planes -/

/-- The Triton path gives the full product where the kernel computes it. -/
theorem Serving.forwardTriton (h : Cold num layer w c) {freed : Bool} {st : Served α} (hst : Serving layer freed st)
    (call : ServeCall α) :
    (∃ freed', Serving layer freed' (forwardTriton st call).1) ∧ (forwardTriton st call).1.isCuda = st.isCuda ∧
      (Answers (linear layer.outFeatures layer.inFeatures w call.x) (LaunchFails layer call .triton) (layer.tritonProduct call) →
        Answers (fullOutput layer w c call.x) (LaunchFails layer call .triton) (forwardTriton st call).2) := by
  unfold Orka.forwardTriton
  rw [(hst.products call).1]
  obtain ⟨hserving, hout⟩ := hst.correctionSparse h call.x
  cases layer.tritonProduct call with
  | error e =>
    refine ⟨⟨freed, hst⟩, rfl, fun hanswer => ?_⟩
    obtain hok | ⟨hfails, -⟩ := hanswer
    · cases hok
    · exact .inr ⟨hfails, e, rfl⟩
  | ok y =>
    refine ⟨⟨_, hserving⟩, rfl, fun hanswer => ?_⟩
    obtain hok | ⟨-, e, he⟩ := hanswer
    · rw [Except.ok.inj hok]
      exact .inl hout
    · cases he

/-- The CUDA decoder is asked only while the buffers hold the correction. -/
theorem Serving.cudaForwardN1 {st : Served α} (hst : Serving layer false st) (call : ServeCall α) :
    Serving layer false (cudaForwardN1 st call).1 ∧ (cudaForwardN1 st call).1.isCuda = st.isCuda ∧
      (cudaForwardN1 st call).2 = ((layer.cudaDecodeProduct call (if 0 < layer.corr.col.length then some layer.corr else none)).map
        (addBias layer.bias)).toOption := by
  have hproduct := (hst.products call).2.2.2.2
  cases hst with
  | live memo isCuda cache hmemo hcache =>
    have hcsr : cache.getD (if 0 < layer.corr.col.length then some layer.corr else none) =
        if 0 < layer.corr.col.length then some layer.corr else none := by
      cases cache with
      | none => rfl
      | some csr => exact hcache csr rfl
    unfold Orka.cudaForwardN1
    simp only
    rw [hcsr, hproduct]
    exact ⟨.live memo isCuda _ hmemo fun csr hcsr => (Option.some.inj hcsr).symm, trivial, rfl⟩

/-- The CUDA prefill adds the correction of the buffers to the matrix it decodes. -/
theorem Serving.cudaForwardPrefill (h : Cold num layer w c) {st : Served α} (hst : Serving layer false st) (call : ServeCall α)
    (hright : ∀ v, layer.cudaDense call = .ok v → v.flatten = w) :
    cudaForwardPrefill num st call = none ∨ cudaForwardPrefill num st call = some (fullOutput layer w c call.x) := by
  have hproduct := (hst.products call).2.1
  cases hst with
  | live memo isCuda cache hmemo hcache =>
    unfold Orka.cudaForwardPrefill
    rw [hproduct]
    cases hdense : layer.cudaDense call with
    | error e => exact .inl rfl
    | ok v =>
      refine .inr ?_
      simp only [hright v hdense, ok_bind]
      by_cases hstored : 0 < layer.corr.col.length
      · have hadd : ({ layer with n1Ok := memo } : VQLinear α).addCorrection num layer.corr w = .ok (List.zipWith (· + ·) w c) := h.added
        rw [if_pos hstored, hadd]
        rfl
      · rw [if_neg hstored]
        exact congrArg some (h.bare_eq_full (by omega) call.x)

/-- What the CUDA decoder reads is in the buffers, group-major. -/
theorem Serving.cudaDecodeReads (host : ServeHost) {freed : Bool} {st : Served α} (hst : Serving layer freed st)
    (hreads : cudaDecodeReads host st = true) : freed = false ∧ F4Reads layer := by
  obtain ⟨h2, hgroup, hblock, hmajor, -, -, hread, -⟩ := of_decide_eq_true hreads
  cases hst with
  | live => exact ⟨rfl, h2, hgroup, hblock, hmajor⟩
  | moved => simp at hread

/-- Where `vq_linear_forward` raises. -/
def DispatchFails (layer : VQLinear α) (call : ServeCall α) : Prop :=
  LaunchFails layer call .triton ∨ layer.groupSize = 0 ∨ layer.blockSize = 0 ∨ layer.inFeatures % layer.groupSize ≠ 0 ∨
    layer.inFeatures % layer.blockSize ≠ 0

/-- Serving never changes the sizes of the layer. -/
theorem Serving.sizes {freed : Bool} {st : Served α} (hst : Serving layer freed st) :
    st.layer.groupSize = layer.groupSize ∧ st.layer.blockSize = layer.blockSize ∧ st.layer.inFeatures = layer.inFeatures ∧
      st.layer.stages = layer.stages := by
  cases hst with
  | live => exact ⟨rfl, rfl, rfl, rfl⟩
  | moved => exact ⟨rfl, rfl, rfl, rfl⟩

/-- **The dispatcher** adds the correction on every path. -/
theorem Serving.vqLinearForward (host : ServeHost) (h : Cold num layer w c) (hplaned : layer.planed = false) {freed : Bool}
    {st : Served α} (hst : Serving layer freed st) (call : ServeCall α) :
    (∃ freed', Serving layer freed' (vqLinearForward num host st call).1) ∧ (vqLinearForward num host st call).1.isCuda = st.isCuda ∧
      (KernelFits layer call.x →
        Answers (fullOutput layer w c call.x) (DispatchFails layer call) (vqLinearForward num host st call).2) := by
  obtain ⟨hgroup, hblock, hin, -⟩ := hst.sizes
  unfold Orka.vqLinearForward
  rw [hgroup, hblock, hin]
  split
  · next hzero => exact ⟨⟨freed, hst⟩, rfl, fun _ => .inr ⟨.inr (hzero.imp_right .inl), _, rfl⟩⟩
  split
  · next hragged => exact ⟨⟨freed, hst⟩, rfl, fun _ => .inr ⟨.inr (.inr (.inr hragged)), _, rfl⟩⟩
  next hdvd =>
  obtain ⟨hG, hB⟩ : layer.groupSize ∣ layer.inFeatures ∧ layer.blockSize ∣ layer.inFeatures :=
    ⟨Nat.dvd_of_mod_eq_zero (not_not.1 (not_or.1 hdvd).1), Nat.dvd_of_mod_eq_zero (not_not.1 (not_or.1 hdvd).2)⟩
  have htriton : ∀ {freed' : Bool} {st' : Served α}, Serving layer freed' st' → st'.isCuda = st.isCuda →
      (∃ freed', Serving layer freed' (Orka.forwardTriton st' call).1) ∧ (Orka.forwardTriton st' call).1.isCuda = st.isCuda ∧
        (KernelFits layer call.x →
          Answers (fullOutput layer w c call.x) (DispatchFails layer call) (Orka.forwardTriton st' call).2) := by
    intro freed' st' hst' hsame
    obtain ⟨hserving, hcuda, hout⟩ := hst'.forwardTriton h call
    exact ⟨hserving, hcuda.trans hsame, fun hfits => (hout (h.tritonProduct hplaned hG hB call hfits)).mono .inl⟩
  split
  · next hone =>
    split
    · next hsupported =>
      obtain ⟨rfl, hreads⟩ := hst.cudaDecodeReads host (of_decide_eq_true hsupported).2.2
      obtain ⟨hserving, hcuda, hout⟩ := hst.cudaForwardN1 call
      cases hproduct : layer.cudaDecodeProduct call (if 0 < layer.corr.col.length then some layer.corr else none) with
      | error e =>
        rw [hproduct] at hout
        simp only [hout]
        exact htriton hserving hcuda
      | ok y =>
        rw [hproduct] at hout
        simp only [hout]
        exact ⟨⟨_, hserving⟩, hcuda, fun hfits =>
          .inl (congrArg Except.ok (h.cudaDecodeProduct hplaned hreads hG hB call hone hfits hproduct))⟩
    · exact htriton hst rfl
  · split
    · next hsupported =>
      obtain ⟨rfl, hreads⟩ := hst.cudaDecodeReads host (of_decide_eq_true hsupported).2
      cases hprefill : Orka.cudaForwardPrefill num st call with
      | none => exact htriton hst rfl
      | some y =>
        refine ⟨⟨_, hst⟩, rfl, fun hfits => .inl ?_⟩
        have hl := hfits.unplaned h.constructed hplaned
        rcases hst.cudaForwardPrefill h call fun v hv => (cudaDense_eq hl hreads hG hB call hv).trans (h.eq_denseVq hl hG hB) with
          hnone | hsome
        · rw [hprefill] at hnone
          cases hnone
        · rw [hprefill] at hsome
          exact congrArg Except.ok (Option.some.inj hsome)
    · exact htriton hst rfl

/-! ## Layers with planes -/

/-- Two stages with the same planes: what the plane kernels read. -/
def TwoPlanes (layer : VQLinear α) : Prop := layer.stages.length = 2 ∧ layer.uniformPlanes = true

instance (layer : VQLinear α) : Decidable (TwoPlanes layer) := inferInstanceAs (Decidable (_ ∧ _))

/-- A call on a layer whose Triton plane kernel adds the correction. -/
def moves (host : ServeHost) (layer : VQLinear α) (isCuda : Bool) (call : ServeCall α) : Bool :=
  isCuda = true ∧ TwoPlanes layer ∧ 0 < layer.corr.col.length ∧ host.planeOps = true ∧
    (layer.planesProduct call .tritonPlanes).isOk = true

/-- Where `_forward_planed` raises. -/
def PlanedFails (host : ServeHost) (layer : VQLinear α) (call : ServeCall α) : Prop :=
  host.planeOps = false ∨ LaunchFails layer call .planeOp

variable (layer w c) in
/-- A call on a planed layer: it loses the correction on CUDA once it has been moved. -/
def planedOutput (isCuda freed : Bool) (x : List (List α)) : List (List α) :=
  if isCuda = true ∧ freed = true then bareOutput layer w x else fullOutput layer w c x

/-- Serving never changes whether a layer has two uniform planes. -/
theorem Serving.twoPlanes_iff {freed : Bool} {st : Served α} (hst : Serving layer freed st) :
    (st.layer.stages.length = 2 ∧ st.layer.uniformPlanes = true) ↔ TwoPlanes layer := by
  cases hst with
  | live => exact Iff.rfl
  | moved => exact Iff.rfl

/-- Empty buffers: the correction has been moved, or there is none. -/
theorem Serving.planedOutput_of_empty (h : Cold num layer w c) {freed : Bool} {st : Served α} (hst : Serving layer freed st)
    (hempty : st.layer.corr.col.length = 0) (hcuda : st.isCuda = true) (host : ServeHost) (call : ServeCall α) :
    planedOutput layer w c st.isCuda freed call.x = bareOutput layer w call.x ∧ (freed || moves host layer st.isCuda call) = freed := by
  cases hst with
  | live memo isCuda cache hmemo hcache =>
    have hmoves : moves host layer isCuda call = false :=
      decide_eq_false fun hm => absurd hm.2.2.1 (by simp only at hempty; omega)
    exact ⟨(if_neg (by simp)).trans (h.bare_eq_full hempty call.x).symm, hmoves⟩
  | moved memo isCuda cache hstored hmemo hcache => exact ⟨if_pos ⟨hcuda, rfl⟩, rfl⟩

/-- The eager path gives the full product where no plane operation is taken. -/
theorem Serving.forwardEager (host : ServeHost) (h : Cold num layer w c) {freed : Bool} {st : Served α} (hst : Serving layer freed st)
    (hfreed : freed = true → TwoPlanes layer) (hops : host.planeOps = true) (call : ServeCall α)
    (hop : ¬ (st.isCuda && st.layer.planeOpSupported) = true) :
    Serving layer (freed || moves host layer st.isCuda call) (forwardEager num st call).1 ∧
      (forwardEager num st call).1.isCuda = st.isCuda ∧
        ((st.isCuda = true ∧ layer.uniformPlanes = true → KernelFits layer call.x) →
          (forwardEager num st call).2 = .ok (planedOutput layer w c st.isCuda freed call.x)) := by
  have hpython := hst.forwardPython h call.x
  unfold Orka.forwardEager
  by_cases hcuda : st.isCuda = true
  · by_cases hplanes : TwoPlanes layer
    · -- the plane op would have been taken, had the correction been moved already
      have hempty : ¬ st.layer.corr.col.length = 0 := fun hempty =>
        hop (by rw [Bool.and_eq_true]; exact ⟨hcuda, decide_eq_true (and_assoc.1 ⟨hst.twoPlanes_iff.2 hplanes, hempty⟩)⟩)
      obtain ⟨rfl, hstored⟩ : freed = false ∧ 0 < layer.corr.col.length := by
        cases hst with
        | live => exact ⟨rfl, Nat.pos_of_ne_zero hempty⟩
        | moved => exact absurd rfl hempty
      have htriton : tritonPlanes st.layer call = (layer.planesProduct call .tritonPlanes).toOption := by
        rw [← (hst.products call).2.2.2.1]
        exact if_pos (hst.twoPlanes_iff.2 hplanes)
      have hfull : planedOutput layer w c st.isCuda false call.x = fullOutput layer w c call.x := if_neg (by simp)
      rw [if_pos hcuda, htriton, hfull]
      cases hproduct : layer.planesProduct call .tritonPlanes with
      | error e =>
        have hmoves : moves host layer st.isCuda call = false :=
          decide_eq_false fun hm => absurd hm.2.2.2.2 (by simp [hproduct, Except.isOk, Except.toBool])
        rw [hmoves]
        exact ⟨hst, rfl, fun _ => hpython⟩
      | ok y =>
        have hmoves : moves host layer st.isCuda call = true :=
          decide_eq_true ⟨hcuda, hplanes, hstored, hops, by rw [hproduct]; rfl⟩
        obtain ⟨hserving, hout⟩ := hst.correctionSparse h call.x
        rw [decide_eq_true hstored] at hserving
        rw [hmoves]
        simp only [Except.toOption, if_pos (Nat.pos_of_ne_zero hempty)]
        refine ⟨hserving, trivial, fun hfits => ?_⟩
        rw [(h.planesProduct hplanes.1 hplanes.2 call .tritonPlanes (hfits ⟨hcuda, hplanes.2⟩)).eq_of_ok hproduct]
        exact hout
    · obtain rfl : freed = false := Bool.eq_false_iff.2 fun hf => hplanes (hfreed hf)
      have hfull : planedOutput layer w c st.isCuda false call.x = fullOutput layer w c call.x := if_neg (by simp)
      have hmoves : moves host layer st.isCuda call = false := decide_eq_false fun hm => hplanes hm.2.1
      have htriton : tritonPlanes st.layer call = none := if_neg fun hp => hplanes (hst.twoPlanes_iff.1 hp)
      rw [if_pos hcuda, htriton, hmoves, hfull]
      exact ⟨hst, rfl, fun _ => hpython⟩
  · have hmoves : moves host layer st.isCuda call = false := decide_eq_false fun hm => hcuda hm.1
    have hfull : planedOutput layer w c st.isCuda freed call.x = fullOutput layer w c call.x := if_neg fun hp => hcuda hp.1
    rw [if_neg hcuda, hmoves, hfull, Bool.or_false]
    exact ⟨hst, rfl, fun _ => hpython⟩

/-- The plane operation gives the full product, or a decoded weight does. -/
theorem Serving.forwardPlaneOp (host : ServeHost) (h : Cold num layer w c) {freed : Bool} {st : Served α}
    (hst : Serving layer freed st) (hfreed : freed = true → TwoPlanes layer) (call : ServeCall α) :
    Serving layer (freed || moves host layer st.isCuda call) (forwardPlaneOp num host st call).1 ∧
      (forwardPlaneOp num host st call).1.isCuda = st.isCuda ∧
        ((st.isCuda = true ∧ layer.uniformPlanes = true → KernelFits layer call.x) →
          Answers (planedOutput layer w c st.isCuda freed call.x) (PlanedFails host layer call) (forwardPlaneOp num host st call).2) := by
  unfold Orka.forwardPlaneOp
  by_cases hops : host.planeOps = false
  · have hmoves : moves host layer st.isCuda call = false :=
      decide_eq_false fun hm => absurd hm.2.2.2.1 (by simp [hops])
    rw [if_pos hops, hmoves, Bool.or_false]
    exact ⟨hst, rfl, fun _ => .inr ⟨.inl hops, _, rfl⟩⟩
  rw [if_neg hops]
  by_cases hop : (st.isCuda && st.layer.planeOpSupported) = true
  · obtain ⟨hcuda, hsupported⟩ := Bool.and_eq_true_iff.1 hop
    obtain ⟨hout, hmoves⟩ := hst.planedOutput_of_empty h (of_decide_eq_true hsupported).2.2 hcuda host call
    rw [if_pos hop, hmoves, hout]
    have hplanes : TwoPlanes layer := hst.twoPlanes_iff.1 ⟨(of_decide_eq_true hsupported).1, (of_decide_eq_true hsupported).2.1⟩
    refine ⟨hst, rfl, fun hfits => ?_⟩
    rw [(hst.products call).2.2.2.1 .planeOp, hst.bias_eq]
    obtain hok | ⟨hfails, e, he⟩ := h.planesProduct hplanes.1 hplanes.2 call .planeOp (hfits ⟨hcuda, hplanes.2⟩)
    · rw [hok]
      exact .inl rfl
    · rw [he]
      exact .inr ⟨.inr hfails, e, rfl⟩
  · rw [if_neg hop]
    obtain ⟨hserving, hcuda, hout⟩ := hst.forwardEager host h hfreed (by simpa using hops) call hop
    exact ⟨hserving, hcuda, fun hfits => .inl (hout hfits)⟩

/-- The CUDA planes are used only on a layer they read, where there is nothing in the buffers to add. -/
theorem Serving.gemvReads (host : ServeHost) {freed : Bool} {st : Served α} (hst : Serving layer freed st)
    (hok : st.layer.n1Ok.getD (cudaPlanesSupported host st) = true) : GemvReads layer ∧ st.layer.corr.col.length = 0 := by
  cases hst with
  | live memo isCuda cache hmemo hcache =>
    cases memo with
    | none =>
      obtain ⟨hcount, huniform, heven, hmajor, hempty, -⟩ := of_decide_eq_true hok
      exact ⟨⟨by rcases hcount with h | h | h <;> exact h.le.trans (by decide), huniform, Nat.dvd_of_mod_eq_zero heven, hmajor⟩, hempty⟩
    | some b => exact hmemo (congrArg some hok)
  | moved memo isCuda cache hstored hmemo hcache =>
    cases memo with
    | none =>
      obtain ⟨hcount, huniform, heven, hmajor, hempty, -⟩ := of_decide_eq_true hok
      exact ⟨⟨by rcases hcount with h | h | h <;> exact h.le.trans (by decide), huniform, Nat.dvd_of_mod_eq_zero heven, hmajor⟩, hempty⟩
    | some b => exact ⟨hmemo (congrArg some hok), rfl⟩

/-- The planed path gives the full product on every branch. -/
theorem Serving.forwardPlaned (host : ServeHost) (h : Cold num layer w c) {freed : Bool} {st : Served α}
    (hst : Serving layer freed st) (hfreed : freed = true → TwoPlanes layer) (call : ServeCall α) :
    Serving layer (freed || moves host layer st.isCuda call) (forwardPlaned num host st call).1 ∧
      (forwardPlaned num host st call).1.isCuda = st.isCuda ∧
        ((st.isCuda = true ∧ layer.uniformPlanes = true → KernelFits layer call.x) →
          Answers (planedOutput layer w c st.isCuda freed call.x) (PlanedFails host layer call) (forwardPlaned num host st call).2) := by
  unfold Orka.forwardPlaned
  split
  · next hn1 =>
    set ok := st.layer.n1Ok.getD (cudaPlanesSupported host st) with hok
    have hreads := hst.gemvReads host
    rw [← hok] at hreads
    have hst' : Serving layer freed { st with layer := { st.layer with n1Ok := some ok } } := by
      cases hst with
      | live memo isCuda cache hmemo hcache => exact .live (some ok) isCuda cache (fun hm => hreads (Option.some.inj hm)) hcache
      | moved memo isCuda cache hstored hmemo hcache =>
        exact .moved (some ok) isCuda cache hstored (fun hm => (hreads (Option.some.inj hm)).1) hcache
    have hrest := hst'.forwardPlaneOp host h hfreed call
    by_cases hplanes : ok = true
    · obtain ⟨hgemv, hempty⟩ := hreads hplanes
      obtain ⟨hout, hmoves⟩ := hst.planedOutput_of_empty h hempty hn1.2 host call
      simp only [if_pos hplanes]
      rw [(hst'.products call).2.2.1]
      cases hproduct : layer.cudaPlanesProduct call with
      | error e => exact hrest
      | ok y =>
        rw [hmoves, hout, bareOutput, ← hst.bias_eq]
        refine ⟨hst', rfl, fun hfits => .inl ?_⟩
        rw [h.cudaPlanesProduct hgemv call hn1.1 (hfits ⟨hn1.2, hgemv.uniform⟩) hproduct]
        rfl
    · simp only [if_neg hplanes]
      exact hrest
  · exact hst.forwardPlaneOp host h hfreed call

/-! ## Runs -/

/-- The device after a run. -/
def onCuda (isCuda : Bool) : List (ServeEvent α) → Bool
  | [] => isCuda
  | .call _ :: events => onCuda isCuda events
  | .move isCuda :: events => onCuda isCuda events

/-- Some call of a run has moved the correction. -/
def movedIn (host : ServeHost) (layer : VQLinear α) (isCuda : Bool) : List (ServeEvent α) → Bool
  | [] => false
  | .call call :: events => moves host layer isCuda call || movedIn host layer isCuda events
  | .move isCuda :: events => movedIn host layer isCuda events

/-- Serving never changes whether a layer has planes. -/
theorem Serving.planed_eq {freed : Bool} {st : Served α} (hst : Serving layer freed st) : st.layer.planed = layer.planed := by
  cases hst with
  | live => rfl
  | moved => rfl

/-- Only a layer of two uniform planes is moved. -/
theorem twoPlanes_of_movedIn {host : ServeHost} {isCuda : Bool} {events : List (ServeEvent α)}
    (h : movedIn host layer isCuda events = true) : TwoPlanes layer := by
  induction events generalizing isCuda with
  | nil => cases h
  | cons event events ih =>
    cases event with
    | call call =>
      rcases Bool.or_eq_true_iff.1 h with h | h
      · exact (of_decide_eq_true h).2.1
      · exact ih h
    | move isCuda => exact ih h

/-- **A run of a planed layer.** -/
theorem Serving.serve_planed (host : ServeHost) (h : Cold num layer w c) (hplaned : layer.planed = true) {freed : Bool} {st : Served α}
    (hst : Serving layer freed st) (hfreed : freed = true → TwoPlanes layer) (events : List (ServeEvent α)) :
    Serving layer (freed || movedIn host layer st.isCuda events) (serve num host st events) ∧
      (serve num host st events).isCuda = onCuda st.isCuda events := by
  induction events generalizing freed st with
  | nil => exact ⟨by rwa [movedIn, Bool.or_false], rfl⟩
  | cons event events ih =>
    cases event with
    | call call =>
      obtain ⟨hserving, hcuda, -⟩ := hst.forwardPlaned host h hfreed call
      have hfreed' : (freed || moves host layer st.isCuda call) = true → TwoPlanes layer := by
        rw [Bool.or_eq_true_iff]
        rintro (hf | hm)
        · exact hfreed hf
        · exact (of_decide_eq_true hm).2.1
      have hforward : Orka.forward num host st call = Orka.forwardPlaned num host st call := by
        rw [Orka.forward, if_pos (hst.planed_eq.trans hplaned)]
      have hrest := ih hserving hfreed'
      rw [hcuda, Bool.or_assoc] at hrest
      rw [serve, List.foldl_cons, serveStep, hforward]
      exact hrest
    | move isCuda => exact ih (hst.isCuda_eq isCuda) hfreed

/-- **A run of a layer without planes.** -/
theorem Serving.serve_plain (host : ServeHost) (h : Cold num layer w c) (hplaned : ¬ layer.planed = true) {freed : Bool} {st : Served α}
    (hst : Serving layer freed st) (events : List (ServeEvent α)) : ∃ freed', Serving layer freed' (serve num host st events) := by
  induction events generalizing freed st with
  | nil => exact ⟨freed, hst⟩
  | cons event events ih =>
    cases event with
    | call call =>
      have hnot : ¬ st.layer.planed = true := hst.planed_eq ▸ hplaned
      rw [serve, List.foldl_cons, serveStep, Orka.forward, if_neg hnot]
      by_cases hdispatch : host.dispatch = true
      · obtain ⟨⟨freed', hserving⟩, -, -⟩ := hst.vqLinearForward host h (by simpa using hplaned) call
        rw [if_pos hdispatch]
        exact ih hserving
      · rw [if_neg hdispatch]
        exact ih hst
    | move isCuda => exact ih (hst.isCuda_eq isCuda)

/-- The correction that is saved is the layer's own. -/
theorem Serving.savedCorrection (h : Cold num layer w c) {freed : Bool} {st : Served α} (hst : Serving layer freed st) :
    st.layer.savedCorrection = layer.corr := by
  cases hst with
  | live memo isCuda cache hmemo hcache =>
    rw [VQLinear.savedCorrection]
    split
    · rfl
    · next hnone =>
      rw [VQLinear.correctionCsr, if_neg hnone]
      exact congrArg (Option.getD · layer.corr) h.cache
  | moved => rfl

end Run

/-- **What a served layer returns.** After any run of calls and moves, whatever its kernels have raised or returned, the layer still
decodes to `W_vq + C` and saves its own correction. A call that meets the kernels it may use returns `x * (W_vq + C)^T + bias`; only on
CUDA, once the Triton plane kernel has served a call of a layer of two equal planes, every later call returns `x * W_vq^T + bias`. Where
a call raises, a launch without a fallback has failed, or the layer is not one the path takes. -/
theorem serve_run [Field α] [LinearOrder α] [IsStrictOrderedRing α] [FloorRing α] {num : Numerics α} {store : Store α} {tm : TensorMeta}
    {bias : Option (List α)} {layer : VQLinear α} (hbuild : buildVqLinear num store tm bias = .ok layer) {w : List α}
    (hvq : layer.reconstructVq = .ok w) (host : ServeHost) (isCuda : Bool) (events : List (ServeEvent α)) :
    ∃ c, csrDense layer.outFeatures layer.inFeatures layer.corr = .ok c ∧
      (serve num host ⟨layer, isCuda, none⟩ events).layer.savedCorrection = layer.corr ∧
      (serve num host ⟨layer, isCuda, none⟩ events).layer.reconstructWeight num = .ok (List.zipWith (· + ·) w c) ∧
      ∀ call, CallFits host layer (onCuda isCuda events) call → Answers
        (if onCuda isCuda events = true ∧ movedIn host layer isCuda events = true then bareOutput layer w call.x
          else fullOutput layer w c call.x)
        (if layer.planed = true then PlanedFails host layer call else host.dispatch = true ∧ DispatchFails layer call)
        (forward num host (serve num host ⟨layer, isCuda, none⟩ events) call).2 := by
  obtain ⟨c, h⟩ := exists_cold num hbuild hvq
  have hcold : Serving layer false ⟨layer, isCuda, none⟩ := by
    have hmemo : layer = { layer with n1Ok := none } := by rw [← h.memo]
    rw [hmemo]
    exact .live none isCuda none (fun hm => by cases hm) (fun _ hc => by cases hc)
  by_cases hplaned : layer.planed = true
  · obtain ⟨hserving, hcuda⟩ := hcold.serve_planed host h hplaned (fun hf => by cases hf) events
    rw [Bool.false_or] at hserving
    refine ⟨c, h.dense, hserving.savedCorrection h, hserving.reconstructWeight h, fun call hfits => ?_⟩
    obtain ⟨-, -, hout⟩ := hserving.forwardPlaned host h twoPlanes_of_movedIn call
    rw [forward, if_pos (hserving.planed_eq.trans hplaned), if_pos hplaned, ← hcuda]
    rw [CallFits, if_pos hplaned, ← hcuda] at hfits
    exact hout hfits
  · obtain ⟨freed, hserving⟩ := hcold.serve_plain host h hplaned events
    refine ⟨c, h.dense, hserving.savedCorrection h, hserving.reconstructWeight h, fun call hfits => ?_⟩
    have hnot : ¬ (onCuda isCuda events = true ∧ movedIn host layer isCuda events = true) := fun hm =>
      hplaned (planed_of_uniform (twoPlanes_of_movedIn hm.2).2)
    have hplain : ¬ (serve num host ⟨layer, isCuda, none⟩ events).layer.planed = true := fun hp =>
      hplaned (hserving.planed_eq.symm.trans hp)
    rw [if_neg hnot, if_neg hplaned, forward, if_neg hplain]
    by_cases hdispatch : host.dispatch = true
    · obtain ⟨-, -, hout⟩ := hserving.vqLinearForward host h (by simpa using hplaned) call
      rw [CallFits, if_neg hplaned] at hfits
      rw [if_pos hdispatch]
      exact (hout (hfits hdispatch)).mono fun hfails => ⟨hdispatch, hfails⟩
    · rw [if_neg hdispatch]
      exact .inl (hserving.forwardPython h call.x)

/-- An entry of two values with two stages in planes, and an outlier. -/
def planedMeta : TensorMeta where
  name := "a.weight"
  shape := [1, 2]
  packedValues := 2
  paddedValues := 2
  groupSize := 1
  stages := [{ codebook := "cb", codebookSize := 513, codebookDtype := some .float16, indexBits := 16, indices := "idx" },
    { codebook := "cb", codebookSize := 513, codebookDtype := some .float16, indexBits := 16, indices := "idx" }]
  codebook := "cb"
  codebookSize := 513
  indexBits := 16
  indices := "idx"
  blockScaleSize := some 1
  outliers := some ⟨1, "pos", "val", none, none⟩

def planedStore : Store ℚ := fun path =>
  if path = "cb" then some (.floats .float16 (List.replicate 512 0 ++ [1]))
  else if path = "idx" then some (.stream .raw [0, 2, 1, 0])
  else if path = "pos" then some (.unsigned .uint32 [1])
  else if path = "val" then some (.floats .float32 [5])
  else none

/-- Every index of a layer names a codeword, as a run can check it. -/
def namesCodewords {α : Type} (layer : VQLinear α) : Bool :=
  layer.stages.all fun s => s.indicesInt.toOption.any fun idxs => idxs.all fun i => decide (0 ≤ i ∧ i < s.codebook.length)

/-- What the check says. -/
theorem namesCodewords_range {α : Type} {layer : VQLinear α} (h : namesCodewords layer = true) :
    ∀ s ∈ layer.stages, ∀ idxs, s.indicesInt = .ok idxs → ∀ i ∈ idxs, 0 ≤ i ∧ i < s.codebook.length := by
  intro s hs idxs hidxs i hi
  have hall := List.all_eq_true.1 h s hs
  rw [hidxs] at hall
  exact of_decide_eq_true (List.all_eq_true.1 hall i hi)

/-- The example's layer with planes, built. -/
theorem planedMeta_built :
    ∃ layer, buildVqLinear rationalNumerics planedStore planedMeta none = .ok layer ∧ layer.reconstructVq = .ok [2, 0] ∧
      layer.outFeatures = 1 ∧ layer.inFeatures = 2 ∧ layer.groupSize = 1 ∧ layer.blockSize = 1 ∧ layer.hiBits = 2 ∧
        layer.bias = none ∧ csrDense 1 2 layer.corr = .ok [0, 5] ∧ 0 < layer.corr.col.length ∧ TwoPlanes layer ∧
          namesCodewords layer = true := by
  have hrun : (buildVqLinear rationalNumerics planedStore planedMeta none).toOption.any (fun layer =>
      layer.reconstructVq = .ok [2, 0] ∧ layer.outFeatures = 1 ∧ layer.inFeatures = 2 ∧ layer.groupSize = 1 ∧
        layer.blockSize = 1 ∧ layer.hiBits = 2 ∧ layer.bias = none ∧ csrDense 1 2 layer.corr = .ok [0, 5] ∧
          0 < layer.corr.col.length ∧ TwoPlanes layer ∧ namesCodewords layer = true) = true := by
    decide +kernel
  cases hbuild : buildVqLinear rationalNumerics planedStore planedMeta none with
  | error e => simp [hbuild, Except.toOption] at hrun
  | ok layer =>
    rw [hbuild] at hrun
    exact ⟨layer, rfl, of_decide_eq_true hrun⟩

/-- An entry of two values with one stage that is not in planes, and an outlier. -/
def plainMeta : TensorMeta where
  name := "a.weight"
  shape := [1, 2]
  packedValues := 2
  paddedValues := 2
  groupSize := 2
  stages := [{ codebook := "cb", codebookSize := 2, codebookDtype := some .float16, indexBits := 8, indices := "idx" }]
  codebook := "cb"
  codebookSize := 2
  indexBits := 8
  indices := "idx"
  blockScaleSize := some 2
  outliers := some ⟨1, "pos", "val", none, none⟩

def plainStore : Store ℚ := fun path =>
  if path = "cb" then some (.floats .float16 [1, 2, 3, 4])
  else if path = "idx" then some (.stream .raw [1])
  else if path = "pos" then some (.unsigned .uint32 [1])
  else if path = "val" then some (.floats .float32 [5])
  else none

/-- The example's layer without planes, built. -/
theorem plainMeta_built :
    ∃ layer, buildVqLinear rationalNumerics plainStore plainMeta none = .ok layer ∧ layer.reconstructVq = .ok [3, 4] ∧
      layer.outFeatures = 1 ∧ layer.inFeatures = 2 ∧ layer.groupSize = 2 ∧ layer.blockSize = 2 ∧ layer.bias = none ∧
        csrDense 1 2 layer.corr = .ok [0, 1] ∧ layer.planed = false ∧ layer.stages.length ≤ 3 ∧ namesCodewords layer = true := by
  have hrun : (buildVqLinear rationalNumerics plainStore plainMeta none).toOption.any (fun layer =>
      layer.reconstructVq = .ok [3, 4] ∧ layer.outFeatures = 1 ∧ layer.inFeatures = 2 ∧ layer.groupSize = 2 ∧ layer.blockSize = 2 ∧
        layer.bias = none ∧ csrDense 1 2 layer.corr = .ok [0, 1] ∧ layer.planed = false ∧ layer.stages.length ≤ 3 ∧
          namesCodewords layer = true) = true := by
    decide +kernel
  cases hbuild : buildVqLinear rationalNumerics plainStore plainMeta none with
  | error e => simp [hbuild, Except.toOption] at hrun
  | ok layer =>
    rw [hbuild] at hrun
    exact ⟨layer, rfl, of_decide_eq_true hrun⟩

/-- Two tokens, with kernels that do not raise. -/
def twoTokens : ServeCall ℚ where
  x := [[1, 1], [0, 0]]
  decodeConfig := ⟨64, by decide⟩
  gemmConfig := ⟨(64, 64, 64), by decide⟩
  decodePlanesConfig := ⟨64, by decide⟩
  gemmPlanesConfig := ⟨(64, 64, 64), by decide⟩
  cudaConfig := ⟨(8, 128), by decide⟩
  memory _ := 0
  raises _ := false
  undefined := .error .indexError

/-- Kernels that do not raise do not fail for two tokens. -/
theorem not_launchFails (layer : VQLinear ℚ) (kernel : Kernel) : ¬ LaunchFails layer twoTokens kernel := by
  simp [LaunchFails, NoBlock, twoTokens]

/-- The second prefill of the layer in planes leaves the correction out on CUDA: a token `[1, 1]` gives `2` and not `7`. The layer
without planes keeps it: the Triton kernels leave `7`, and the answer is `8`. -/
theorem serve_run_planed :
    (∃ layer, buildVqLinear rationalNumerics planedStore planedMeta none = .ok layer ∧
      (forward rationalNumerics ⟨true, true, true, true, 256⟩
        (serve rationalNumerics ⟨true, true, true, true, 256⟩ ⟨layer, true, none⟩ [.call twoTokens]) twoTokens).2 = .ok [[2], [0]]) ∧
    ∃ layer, buildVqLinear rationalNumerics plainStore plainMeta none = .ok layer ∧
      (forward rationalNumerics ⟨true, true, true, true, 256⟩
        (serve rationalNumerics ⟨true, true, true, true, 256⟩ ⟨layer, true, none⟩ [.call twoTokens]) twoTokens).2 = .ok [[8], [0]] := by
  constructor
  · obtain ⟨layer, hbuild, hvq, hout, hin, hgroup, hblock, hhi, hbias, hdense, hstored, hplanes, hrange⟩ := planedMeta_built
    have hfits : KernelFits layer twoTokens.x :=
      { token_width := by rw [hin]; decide, out_pos := by rw [hout]; decide, index_range := namesCodewords_range hrange,
        group_dvd := fun hone => absurd hone (by decide),
        stages := fun hplain => absurd (planed_of_uniform hplanes.2) (by simp [hplain]),
        planes := fun _ => by rw [VQLinear.gpr, hgroup, hblock, hin, hout, hhi]; decide }
    obtain ⟨c, h⟩ := exists_cold rationalNumerics hbuild hvq
    have hserves : (layer.planesProduct twoTokens .tritonPlanes).isOk = true := by
      rcases h.planesProduct hplanes.1 hplanes.2 twoTokens .tritonPlanes hfits with hok | ⟨hfails, -⟩
      · rw [hok]
        rfl
      · exact absurd hfails (not_launchFails layer _)
    have hmoved : movedIn ⟨true, true, true, true, 256⟩ layer true [.call twoTokens] = true :=
      Bool.or_eq_true_iff.2 (.inl (decide_eq_true ⟨rfl, hplanes, hstored, rfl, hserves⟩))
    obtain ⟨c, -, -, -, hcalls⟩ := serve_run hbuild hvq ⟨true, true, true, true, 256⟩ true [.call twoTokens]
    have hanswer := hcalls twoTokens fun _ => hfits
    rw [if_pos ⟨rfl, hmoved⟩, if_pos (planed_of_uniform hplanes.2)] at hanswer
    refine ⟨layer, hbuild, ?_⟩
    rcases hanswer with hanswer | ⟨hops | hfails, -⟩
    · rw [hanswer, bareOutput, hout, hin, hbias]
      decide +kernel
    · cases hops
    · exact absurd hfails (not_launchFails layer _)
  · obtain ⟨layer, hbuild, hvq, hout, hin, hgroup, hblock, hbias, hdense, hplain, hstages, hrange⟩ := plainMeta_built
    have hfits : KernelFits layer twoTokens.x :=
      { token_width := by rw [hin]; decide, out_pos := by rw [hout]; decide, index_range := namesCodewords_range hrange,
        group_dvd := fun hone => absurd hone (by decide), stages := fun _ => hstages,
        planes := fun hplaned => absurd hplaned (by simp [hplain]) }
    obtain ⟨c, hc, -, -, hcalls⟩ := serve_run hbuild hvq ⟨true, true, true, true, 256⟩ true [.call twoTokens]
    rw [hout, hin, hdense] at hc
    obtain rfl := Except.ok.inj hc
    have hanswer := hcalls twoTokens fun _ => hfits
    have hkept : ¬ movedIn ⟨true, true, true, true, 256⟩ layer true [.call twoTokens] = true := fun hmoved =>
      absurd (planed_of_uniform (twoPlanes_of_movedIn hmoved).2) (by simp [hplain])
    rw [if_neg fun h => hkept h.2, if_neg (by simp [hplain])] at hanswer
    refine ⟨layer, hbuild, ?_⟩
    rcases hanswer with hanswer | ⟨⟨-, hfails | hsizes⟩, -⟩
    · rw [hanswer, fullOutput, hout, hin, hbias]
      decide +kernel
    · exact absurd hfails (not_launchFails layer _)
    · rw [hgroup, hblock, hin] at hsizes
      exact absurd hsizes (by decide)

end Orka
