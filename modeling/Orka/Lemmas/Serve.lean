import Orka.Lemmas.CudaKernels

/-!
# What the launches of a call give

The launch of each kernel on a layer it is right for, as the product of the tokens with the matrix: what a call may still do is raise.
-/

set_option linter.unusedSectionVars false

namespace Orka

open Flat Steps Tile CsrAux

variable {α : Type}

/-- What a call may do: it returns a value, or, where it can fail, it raises. -/
def Answers (value : List (List α)) (fails : Prop) (out : Except PyErr (List (List α))) : Prop :=
  out = .ok value ∨ fails ∧ ∃ e, out = .error e

/-- Where a call may fail in more ways, it still answers. -/
theorem Answers.mono {value : List (List α)} {P Q : Prop} {out : Except PyErr (List (List α))} (h : Answers value P out) (hPQ : P → Q) :
    Answers value Q out := h.imp_right (And.imp_left hPQ)

/-- What is returned is the value. -/
theorem Answers.eq_of_ok {value y : List (List α)} {P : Prop} {out : Except PyErr (List (List α))} (h : Answers value P out)
    (hout : out = .ok y) : y = value := by
  obtain hvalue | ⟨-, e, he⟩ := h
  · exact Except.ok.inj (hout.symm.trans hvalue)
  · rw [hout] at he
    cases he

/-- **A launch** that fills its output with rows gives them, unless it raises or does not compile. -/
theorem answers_launched {call : ServeCall α} {kernel : Kernel} {rows cols : ℕ} {y : List (List α)} (hrows : y.length = rows)
    (hcols : ∀ row ∈ y, row.length = cols) {P : Prop} {run : Except Fault (List α)}
    (hrun : run = .ok y.flatten ∨ P ∧ run = .error .arangeWidth) :
    Answers y (call.raises kernel = true ∨ P) (call.launched kernel rows cols run) := by
  unfold ServeCall.launched
  by_cases hraises : call.raises kernel = true
  · rw [if_pos hraises]
    exact .inr ⟨.inl hraises, _, rfl⟩
  rw [if_neg hraises]
  obtain rfl | ⟨hP, rfl⟩ := hrun
  · exact .inl (congrArg Except.ok (hrows ▸ rowsOf_flatten hcols))
  · exact .inr ⟨.inr hP, _, rfl⟩

section Products

variable [Ring α]

/-- The product with a sum of matrices. -/
theorem linear_add {outFeatures inFeatures : ℕ} {w c : List α} (hw : w.length = outFeatures * inFeatures)
    (hc : c.length = outFeatures * inFeatures) (x : List (List α)) :
    linear outFeatures inFeatures (List.zipWith (· + ·) w c) x =
      addOutputs (linear outFeatures inFeatures w x) (linear outFeatures inFeatures c x) := by
  rw [linear, linear, linear, addOutputs, List.zipWith_map, List.zipWith_self]
  refine List.map_congr_left fun row _ => ?_
  apply ext_cell
  · simp
  intro m hm
  have hm' : m < outFeatures := by simpa using hm
  rw [cell_zipWith (by simpa) (by simpa), cell_tabulate _ hm', cell_tabulate _ hm', cell_tabulate _ hm', ← List.sum_map_add]
  refine congrArg List.sum (List.map_congr_left fun k hk => ?_)
  have hplace : m * inFeatures + k < outFeatures * inFeatures := flat_lt hm' (List.mem_range.1 hk)
  rw [cell_zipWith (hw ▸ hplace) (hc ▸ hplace), mul_add]

/-- A row of the product has a value for every output. -/
theorem linear_width (outFeatures inFeatures : ℕ) (w : List α) (x : List (List α)) :
    ∀ row ∈ linear outFeatures inFeatures w x, row.length = outFeatures := by
  intro row hrow
  obtain ⟨_, -, rfl⟩ := List.mem_map.1 hrow
  exact length_tabulate _ _

/-- The product has a row for every token. -/
theorem linear_length (outFeatures inFeatures : ℕ) (w : List α) (x : List (List α)) :
    (linear outFeatures inFeatures w x).length = x.length := List.length_map _

end Products

section Launches

variable [Field α] {layer : VQLinear α} {x : List (List α)}

/-- The product of rows of tokens, as the flat product that the kernels fill a buffer with. -/
theorem flatten_linear {outFeatures inFeatures : ℕ} (hout : 0 < outFeatures) (w : List α) (hx : ∀ row ∈ x, row.length = inFeatures) :
    (linear outFeatures inFeatures w x).flatten = matmulT x.length inFeatures outFeatures x.flatten w := by
  have hwidth := linear_width outFeatures inFeatures w x
  have hlength : (linear outFeatures inFeatures w x).flatten.length = x.length * outFeatures := by
    rw [length_flatten_of_width hwidth, linear_length]
  apply ext_cell
  · rw [hlength, matmulT, length_tabulate]
  intro p hp
  rw [hlength] at hp
  have hrow : p / outFeatures < x.length := Nat.div_lt_of_lt_mul (by rwa [Nat.mul_comm] at hp)
  rw [cell_flatten hout hwidth, matmulT, cell_tabulate _ hp, linear, List.getD_eq_getElem _ _ (by simpa using hrow),
    List.getElem_map, cell_tabulate _ (Nat.mod_lt _ hout)]
  refine congrArg List.sum (List.map_congr_left fun k hk => ?_)
  have hk' := List.mem_range.1 hk
  have hplace := VQLinearAux.flat_row_col (m := p / outFeatures) hk'
  rw [cell_flatten (Nat.zero_lt_of_lt hk') hx, hplace.1, hplace.2, List.getD_eq_getElem _ _ hrow]

/-- A Triton kernel for one token does not compile where the group is no width of a block of lanes. -/
def NoBlock (layer : VQLinear α) (call : ServeCall α) : Prop := call.x.length = 1 ∧ ¬ layer.groupSize.isPowerOfTwo

/-- The single-token kernel over the memory it is given. -/
theorem vqDecodeN1_linear (hl : Unplaned layer) (h3 : layer.stages.length ≤ 3) (hG : layer.groupSize ∣ layer.inFeatures)
    (hB : layer.blockSize ∣ layer.inFeatures) (hd : layer.groupSize ∣ layer.blockSize ∨ layer.inFeatures = 0)
    (hwidth : ∀ row ∈ x, row.length = layer.inFeatures) (hone : x.length = 1) {blockM : ℕ} (hM : blockM.isPowerOfTwo)
    (memory : ℕ → α) :
    vqDecodeN1 layer blockM x.flatten (tabulate layer.outFeatures memory) =
        .ok (linear layer.outFeatures layer.inFeatures (TritonAux.denseVq layer) x).flatten ∨
      ¬ layer.groupSize.isPowerOfTwo ∧
        vqDecodeN1 layer blockM x.flatten (tabulate layer.outFeatures memory) = .error .arangeWidth := by
  have hflat : x.flatten.length = layer.inFeatures := by rw [length_flatten_of_width hwidth, hone, Nat.one_mul]
  by_cases hpow : layer.groupSize.isPowerOfTwo
  · rw [TritonAux.vqDecodeN1_ok hl h3 hG hB hpow hd hM hflat (length_tabulate layer.outFeatures memory),
      flatten_linear hl.out_pos _ hwidth, hone]
    exact .inl rfl
  · refine .inr ⟨hpow, ?_⟩
    unfold vqDecodeN1 vqDecodeKernel
    rw [arange_ok hM, ok_bind, arange_fault hpow, error_bind]

/-- The gather-GEMM over the memory it is given. -/
theorem vqGemmKernel_linear (hl : Unplaned layer) (h3 : layer.stages.length ≤ 3) (hG : layer.groupSize ∣ layer.inFeatures)
    (hB : layer.blockSize ∣ layer.inFeatures) (hwidth : ∀ row ∈ x, row.length = layer.inFeatures) {config : ℕ × ℕ × ℕ}
    (hconfig : config.1.isPowerOfTwo ∧ config.2.1.isPowerOfTwo ∧ config.2.2.isPowerOfTwo) (memory : ℕ → α) :
    vqGemmKernel layer config x.length x.flatten (tabulate (x.length * layer.outFeatures) memory) =
      .ok (linear layer.outFeatures layer.inFeatures (TritonAux.denseVq layer) x).flatten := by
  have hrun := TritonAux.vqGemmKernel_ok hl h3 hG hB hconfig.1 hconfig.2.1 hconfig.2.2 (length_flatten_of_width hwidth)
    (length_tabulate (x.length * layer.outFeatures) memory)
  rw [flatten_linear hl.out_pos _ hwidth]
  exact hrun

/-- **The Triton kernels of a layer without planes** give the product. -/
theorem answers_tritonProduct (hl : Unplaned layer) (h3 : layer.stages.length ≤ 3) (hG : layer.groupSize ∣ layer.inFeatures)
    (hB : layer.blockSize ∣ layer.inFeatures) (call : ServeCall α) (hwidth : ∀ row ∈ call.x, row.length = layer.inFeatures)
    (hd : call.x.length = 1 → layer.groupSize ∣ layer.blockSize ∨ layer.inFeatures = 0) :
    Answers (linear layer.outFeatures layer.inFeatures (TritonAux.denseVq layer) call.x)
      (call.raises .triton = true ∨ NoBlock layer call) (layer.tritonProduct call) := by
  refine answers_launched (linear_length ..) (linear_width _ _ _ _) ?_
  unfold VQLinear.tritonLaunch
  by_cases hone : call.x.length = 1
  · have hM : ∀ b ∈ decodeConfigs, b.isPowerOfTwo := by decide
    rw [if_pos hone]
    exact (vqDecodeN1_linear hl h3 hG hB (hd hone) hwidth hone (hM _ call.decodeConfig.2) call.memory).imp_right
      (And.imp_left fun hpow => ⟨hone, hpow⟩)
  · have hconfig : ∀ c ∈ gemmConfigs, c.1.isPowerOfTwo ∧ c.2.1.isPowerOfTwo ∧ c.2.2.isPowerOfTwo := by decide
    rw [if_neg hone]
    exact .inl (vqGemmKernel_linear hl h3 hG hB hwidth (hconfig _ call.gemmConfig.2) call.memory)

/-- **The Triton kernels of a layer in planes** give the product. -/
theorem answers_planesProduct (hr : Readable layer) (hp : Planed layer) (h2 : layer.stages.length = 2)
    (hG : layer.groupSize ∣ layer.inFeatures) (hB : layer.blockSize ∣ layer.inFeatures) (call : ServeCall α) (kernel : Kernel)
    (hwidth : ∀ row ∈ call.x, row.length = layer.inFeatures)
    (hd : call.x.length = 1 → layer.groupSize ∣ layer.blockSize ∨ layer.inFeatures = 0) :
    Answers (linear layer.outFeatures layer.inFeatures (TritonAux.denseVq layer.joined) call.x)
      (call.raises kernel = true ∨ NoBlock layer call) (layer.planesProduct call kernel) := by
  have hl := PlanesAux.unplaned_joined hr
  have h3 : layer.joined.stages.length ≤ 3 := by
    rw [VQLinear.joined, List.length_map, h2]
    decide
  refine answers_launched (linear_length ..) (linear_width _ _ _ _) ?_
  unfold VQLinear.planesLaunch
  by_cases hone : call.x.length = 1
  · have hM : ∀ b ∈ decodePlanesConfigs, b.isPowerOfTwo := by decide
    rw [if_pos hone, PlanesAux.vqDecodePlanesN1_eq hr hp h2 hG]
    exact (vqDecodeN1_linear hl h3 hG hB (hd hone) hwidth hone (hM _ call.decodePlanesConfig.2) call.memory).imp_right
      (And.imp_left fun hpow => ⟨hone, hpow⟩)
  · have hconfig : ∀ c ∈ gemmPlanesConfigs, c.1.isPowerOfTwo ∧ c.2.1.isPowerOfTwo ∧ c.2.2.isPowerOfTwo := by decide
    rw [if_neg hone, PlanesAux.vqGemmPlanesKernel_eq hr hp h2 hG]
    exact .inl (vqGemmKernel_linear hl h3 hG hB hwidth (hconfig _ call.gemmPlanesConfig.2) call.memory)

/-- **The CUDA plane kernel** gives the product. -/
theorem answers_cudaPlanesProduct (hr : Readable layer) (hp : Planed layer) (h3 : layer.stages.length ≤ 3)
    (hmajor : layer.groupMajor = false) (heven : 2 ∣ layer.groupSize) (hG : layer.groupSize ∣ layer.inFeatures)
    (hB : layer.blockSize ∣ layer.inFeatures) (hd : layer.groupSize ∣ layer.blockSize ∨ layer.inFeatures = 0) (call : ServeCall α)
    (hwidth : ∀ row ∈ call.x, row.length = layer.inFeatures) (hone : call.x.length = 1) :
    Answers (linear layer.outFeatures layer.inFeatures (TritonAux.denseVq layer.joined) call.x)
      (call.raises .cudaPlanes = true ∨ False) (layer.cudaPlanesProduct call) := by
  refine answers_launched ((linear_length ..).trans hone) (linear_width _ _ _ _) (.inl ?_)
  rw [CudaAux.decodePlanes_ok hr hp h3 hmajor heven hG hB hd (by rw [length_flatten_of_width hwidth, hone, Nat.one_mul]),
    flatten_linear hr.out_pos _ hwidth, hone]

/-- A layer the CUDA decoder reads: two stages, groups of eight in blocks of thirty-two, group-major. -/
structure F4Reads (layer : VQLinear α) : Prop where
  stages : layer.stages.length = 2
  group : layer.groupSize = 8
  block : layer.blockSize = 32
  major : layer.groupMajor = true

/-- Indices that are all `int16`, or pointers that raise. -/
theorem shortPointers_cases (layer : VQLinear α) :
    (layer.shortPointers = .ok () ∧ ∀ s ∈ layer.stages, s.codebook.length ≤ 2 ^ 16) ∨ ∃ e, layer.shortPointers = .error e := by
  unfold VQLinear.shortPointers
  split
  · next hall =>
    refine .inl ⟨rfl, fun s hs => ?_⟩
    have := (of_decide_eq_true (List.all_eq_true.1 hall s hs)).2.2
    omega
  · exact .inr ⟨_, rfl⟩

/-- **The CUDA decoder** gives the product, with the correction it is given. -/
theorem cudaDecodeProduct_eq (hl : Unplaned layer) (hreads : F4Reads layer) (hG : layer.groupSize ∣ layer.inFeatures)
    (hB : layer.blockSize ∣ layer.inFeatures) (call : ServeCall α) (hwidth : ∀ row ∈ call.x, row.length = layer.inFeatures)
    (hone : call.x.length = 1) {csr : Option (Csr α)} {z : List (List α)} (hrows : z.length = 1)
    (hcols : ∀ row ∈ z, row.length = layer.outFeatures)
    (hcsr : csr.elim (.ok (linear layer.outFeatures layer.inFeatures (TritonAux.denseVq layer) call.x).flatten) (fun csr =>
      cudaCorrect layer.outFeatures csr call.x.flatten
        (linear layer.outFeatures layer.inFeatures (TritonAux.denseVq layer) call.x).flatten) = .ok z.flatten) {y : List (List α)}
    (hy : layer.cudaDecodeProduct call csr = .ok y) : y = z := by
  unfold VQLinear.cudaDecodeProduct at hy
  obtain ⟨hshort, hcount⟩ | ⟨e, he⟩ := shortPointers_cases layer
  · have hd : layer.groupSize ∣ layer.blockSize := by rw [hreads.group, hreads.block]; decide
    have heven : 2 ∣ layer.groupSize := by rw [hreads.group]; decide
    have hrun := CudaAux.cudaDecode_ok hl hreads.stages.le hreads.major hcount heven hG hB (.inl hd) call.cudaConfig.2
      (by rw [length_flatten_of_width hwidth, hone, Nat.one_mul])
    rw [hshort, ok_bind, hrun, ok_bind, ← hone, ← flatten_linear hl.out_pos _ hwidth, hcsr, hone] at hy
    exact (answers_launched (P := False) hrows hcols (.inl rfl)).eq_of_ok hy
  · rw [he, error_bind] at hy
    cases hy

/-- **`decode_dense`** gives the matrix. -/
theorem cudaDense_eq (hl : Unplaned layer) (hreads : F4Reads layer) (hG : layer.groupSize ∣ layer.inFeatures)
    (hB : layer.blockSize ∣ layer.inFeatures) (call : ServeCall α) {y : List (List α)} (hy : layer.cudaDense call = .ok y) :
    y.flatten = TritonAux.denseVq layer := by
  unfold VQLinear.cudaDense at hy
  obtain ⟨hshort, hcount⟩ | ⟨e, he⟩ := shortPointers_cases layer
  · have hd : layer.groupSize ∣ layer.blockSize := by rw [hreads.group, hreads.block]; decide
    have hK : layer.gpr * 8 = layer.inFeatures := by
      rw [VQLinear.gpr, hreads.group]
      exact Nat.div_mul_cancel (hreads.group ▸ hG)
    have hdense : (TritonAux.denseVq layer).length = layer.outFeatures * layer.inFeatures := length_tabulate _ _
    have hflat : (rowsOf layer.outFeatures layer.inFeatures (TritonAux.denseVq layer)).flatten = TritonAux.denseVq layer :=
      flatten_rowsOf hdense
    rw [hshort, ok_bind, hK, CudaAux.decodeDense_ok hl hreads.stages.le hreads.major hcount hreads.group hG hB hd
      (length_tabulate _ _), ← hflat] at hy
    rw [(answers_launched (P := False) (length_rowsOf ..) (length_of_mem_rowsOf hdense.ge) (.inl rfl)).eq_of_ok hy, hflat]
  · rw [he, error_bind] at hy
    cases hy

end Launches

end Orka
