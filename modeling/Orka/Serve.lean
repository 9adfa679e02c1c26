import Orka.CudaKernels

/-!
# Serving a layer

`VQLinear.forward` over many calls. Each path decides by itself whether the layer has a correction; the first path to need it as a
sparse tensor moves it out of its buffers. Every kernel of a call runs load by load. Arithmetic is exact.
-/

namespace Orka

open Flat Tile

/-- The kernels a call may launch. -/
inductive Kernel where
  | cudaPlanes
  | planeOp
  | tritonPlanes
  | cudaDecode
  | cudaDense
  | triton
  deriving DecidableEq

/-- What a process has: whether `plane_ops` and `dispatch` can be imported, whether the two CUDA modules compile, and
`prefill_min_tokens()`. -/
structure ServeHost where
  planeOps : Bool
  dispatch : Bool
  cudaPlanes : Bool
  cudaDecode : Bool
  prefillMinTokens : ℕ

/-- One call: its tokens, and how its kernels go. A kernel is launched with some configuration over the memory `torch.empty` gives;
`raises` is a launch that raises for a reason of its own, and `undefined` what comes of a launch that reads outside a buffer. -/
structure ServeCall (α : Type) where
  x : List (List α)
  decodeConfig : {blockM : ℕ // blockM ∈ decodeConfigs}
  gemmConfig : {config : ℕ × ℕ × ℕ // config ∈ gemmConfigs}
  decodePlanesConfig : {blockM : ℕ // blockM ∈ decodePlanesConfigs}
  gemmPlanesConfig : {config : ℕ × ℕ × ℕ // config ∈ gemmPlanesConfigs}
  cudaConfig : {config : ℕ × ℕ // config ∈ cudaConfigs}
  memory : ℕ → α
  raises : Kernel → Bool
  undefined : Except PyErr (List (List α))

/-- A layer being served: the layer, whether it is on a CUDA device, and `_cuda_decode_cache`, as far as it holds the correction. -/
structure Served (α : Type) where
  layer : VQLinear α
  isCuda : Bool
  cudaDecodeCache : Option (Option (Csr α))

section Products

variable {α : Type} [Ring α]

/-- `F.linear(x, w)` without a bias, of a matrix in row-major order. -/
def linear (outFeatures inFeatures : ℕ) (w : List α) (x : List (List α)) : List (List α) :=
  x.map fun row => tabulate outFeatures fun m =>
    ((List.range inFeatures).map fun k => cell row k * cell w (m * inFeatures + k)).sum

/-- `a + b` of two outputs. -/
def addOutputs (a b : List (List α)) : List (List α) := List.zipWith (List.zipWith (· + ·)) a b

/-- `y + bias`, if there is one. -/
def addBias (bias : Option (List α)) (y : List (List α)) : List (List α) :=
  match bias with
  | none => y
  | some b => y.map fun row => List.zipWith (· + ·) row b

/-- The matrix a CSR tensor stands for. -/
def csrDense (outFeatures inFeatures : ℕ) (csr : Csr α) : Except PyErr (List α) :=
  (VQLinear.csrRows outFeatures csr.rowptr).map fun rows =>
    let entries := (List.zipWith (fun r c => r * (inFeatures : ℤ) + c) rows csr.col).zip csr.val
    tabulate (outFeatures * inFeatures) fun p => ((entries.filter fun e => decide (e.1 = (p : ℤ))).map Prod.snd).sum

/-- `torch.sparse.mm(sp, x.T).T`. -/
def sparseMm (outFeatures inFeatures : ℕ) (sp : Csr α) (x : List (List α)) : Except PyErr (List (List α)) :=
  (csrDense outFeatures inFeatures sp).map fun c => linear outFeatures inFeatures c x

end Products

/-- `indices_{s}.dtype == torch.int16`. -/
def StageBuffers.int16 {α : Type} (s : StageBuffers α) : Bool :=
  s.planeWidth = 0 ∧ 256 < s.codebook.length ∧ s.codebook.length ≤ 32768

/-- What comes of a launch. A block of lanes of a wrong width does not compile. -/
def ServeCall.launched {α : Type} (call : ServeCall α) (kernel : Kernel) (rows cols : ℕ) (run : Except Fault (List α)) :
    Except PyErr (List (List α)) :=
  if call.raises kernel then .error (.runtimeError "launch failed")
  else match run with
    | .ok y => .ok (rowsOf rows cols y)
    | .error .arangeWidth => .error (.valueError "arange's range must be a power of 2")
    | .error _ => call.undefined

namespace VQLinear

variable {α : Type}

/-- `_correction_sparse()`: the cached tensor, or a new one, which the buffers are emptied into. -/
def correctionSparse (layer : VQLinear α) : VQLinear α × Option (Csr α) :=
  match layer.corrSpCache with
  | some sp => (layer, some sp)
  | none =>
    if layer.corr.col.length = 0 then (layer, none)
    else ({ layer with corrSpCache := some layer.corr, corr := ⟨[], [], []⟩ }, some layer.corr)

/-- The correction `_save_to_state_dict` writes. -/
def savedCorrection (layer : VQLinear α) : Csr α :=
  if 0 < layer.corr.col.length then layer.corr else (layer.correctionCsr).getD layer.corr

/-- All stages have the same planes, of two or four high bits. -/
def uniformPlanes (layer : VQLinear α) : Bool :=
  match layer.stages with
  | [] => false
  | s :: ss => s.planeWidth ≠ 0 ∧ (∀ t ∈ ss, t.planeWidth = s.planeWidth) ∧ (s.planeWidth - 8 = 2 ∨ s.planeWidth - 8 = 4)

/-- `plane_op_supported(layer)`. -/
def planeOpSupported (layer : VQLinear α) : Bool :=
  layer.stages.length = 2 ∧ layer.uniformPlanes = true ∧ layer.corr.col.length = 0

/-- `layer.indices_0.dtype == torch.int16`. -/
def int16Indices (layer : VQLinear α) : Bool := layer.stages.head?.any StageBuffers.int16

/-- `i0.data_ptr<int16_t>()` and `i1.data_ptr<int16_t>()`. -/
def shortPointers (layer : VQLinear α) : Except PyErr Unit :=
  if layer.stages.all StageBuffers.int16 then .ok () else .error (.runtimeError "expected scalar type Short")

section Ring

variable [Ring α]

/-- The launch of the Triton path: `_vq_decode_n1` for one token, `_vq_gemm_kernel` for any other number. -/
def tritonLaunch (layer : VQLinear α) (call : ServeCall α) : Except Fault (List α) :=
  if call.x.length = 1 then
    vqDecodeN1 layer call.decodeConfig call.x.flatten (tabulate layer.outFeatures call.memory)
  else
    vqGemmKernel layer call.gemmConfig call.x.length call.x.flatten (tabulate (call.x.length * layer.outFeatures) call.memory)

/-- The product of the Triton path. -/
def tritonProduct (layer : VQLinear α) (call : ServeCall α) : Except PyErr (List (List α)) :=
  call.launched .triton call.x.length layer.outFeatures (layer.tritonLaunch call)

/-- The launch of `vq_plane_linear`, and of `_vq_decode_planes_n1` and `_vq_gemm_planes`. -/
def planesLaunch (layer : VQLinear α) (call : ServeCall α) : Except Fault (List α) :=
  if call.x.length = 1 then
    vqDecodePlanesN1 layer call.decodePlanesConfig call.x.flatten (tabulate layer.outFeatures call.memory)
  else
    vqGemmPlanesKernel layer call.gemmPlanesConfig call.x.length call.x.flatten
      (tabulate (call.x.length * layer.outFeatures) call.memory)

/-- The product of a Triton plane kernel, by the operation or by the eager path. -/
def planesProduct (layer : VQLinear α) (call : ServeCall α) (kernel : Kernel) : Except PyErr (List (List α)) :=
  call.launched kernel call.x.length layer.outFeatures (layer.planesLaunch call)

/-- `cuda_planes.forward_n1(layer, x_2d)`. -/
def cudaPlanesProduct (layer : VQLinear α) (call : ServeCall α) : Except PyErr (List (List α)) :=
  call.launched .cudaPlanes 1 layer.outFeatures (decodePlanes layer call.x.flatten)

/-- `decode`, and `correct` over what it left where there is a correction. -/
def cudaDecodeProduct (layer : VQLinear α) (call : ServeCall α) (csr : Option (Csr α)) : Except PyErr (List (List α)) :=
  layer.shortPointers.bind fun _ => call.launched .cudaDecode 1 layer.outFeatures
    ((cudaDecode layer call.cudaConfig call.x.flatten).bind fun y =>
      csr.elim (.ok y) fun csr => cudaCorrect layer.outFeatures csr call.x.flatten y)

/-- `decode_dense`. -/
def cudaDense (layer : VQLinear α) (call : ServeCall α) : Except PyErr (List (List α)) :=
  layer.shortPointers.bind fun _ => call.launched .cudaDense layer.outFeatures (layer.gpr * 8)
    (decodeDense layer (tabulate (layer.outFeatures * (layer.gpr * 8)) call.memory))

/-- `_forward_python(x)`. -/
def forwardPython (num : Numerics α) (layer : VQLinear α) (x : List (List α)) : Except PyErr (List (List α)) :=
  (layer.reconstructWeight num).map fun w => addBias layer.bias (linear layer.outFeatures layer.inFeatures w x)

/-- A product, the sparse correction where there is one, and the bias. -/
def correctedOutput (layer : VQLinear α) (sp : Option (Csr α)) (x y : List (List α)) : Except PyErr (List (List α)) :=
  match sp with
  | none => .ok (addBias layer.bias y)
  | some sp => (sparseMm layer.outFeatures layer.inFeatures sp x).map fun z => addBias layer.bias (addOutputs y z)

end Ring

end VQLinear

section Forward

variable {α : Type} [Ring α] (num : Numerics α) (host : ServeHost)

/-- `cuda_planes.supported(layer)`. -/
def cudaPlanesSupported (st : Served α) : Bool :=
  (st.layer.stages.length = 1 ∨ st.layer.stages.length = 2 ∨ st.layer.stages.length = 3) ∧ st.layer.uniformPlanes = true ∧
    st.layer.groupSize % 2 = 0 ∧ st.layer.groupMajor = false ∧ st.layer.corr.col.length = 0 ∧ st.isCuda = true ∧ host.cudaPlanes = true

/-- `_vq_decode_planes_n1` and `_vq_gemm_planes`, where they support the layer and do not raise; both check the same. -/
def tritonPlanes (layer : VQLinear α) (call : ServeCall α) : Option (List (List α)) :=
  if layer.stages.length = 2 ∧ layer.uniformPlanes = true then (layer.planesProduct call .tritonPlanes).toOption else none

/-- The eager part of `_forward_planed`. -/
def forwardEager (st : Served α) (call : ServeCall α) : Served α × Except PyErr (List (List α)) :=
  match if st.isCuda then tritonPlanes st.layer call else none with
  | none => (st, st.layer.forwardPython num call.x)
  | some y =>
    if 0 < st.layer.corr.col.length then
      let (layer, sp) := st.layer.correctionSparse
      ({ st with layer := layer }, layer.correctedOutput sp call.x y)
    else (st, .ok (addBias st.layer.bias y))

/-- `_forward_planed` after the CUDA planes. -/
def forwardPlaneOp (st : Served α) (call : ServeCall α) : Served α × Except PyErr (List (List α)) :=
  if host.planeOps = false then (st, .error (.runtimeError "No module named 'triton'"))
  else if st.isCuda && st.layer.planeOpSupported then (st, (st.layer.planesProduct call .planeOp).map (addBias st.layer.bias))
  else forwardEager num st call

/-- `_forward_planed(x)`: for one token on CUDA, whether the CUDA planes support the layer is found out once. -/
def forwardPlaned (st : Served α) (call : ServeCall α) : Served α × Except PyErr (List (List α)) :=
  if call.x.length = 1 ∧ st.isCuda = true then
    let ok := st.layer.n1Ok.getD (cudaPlanesSupported host st)
    let st := { st with layer := { st.layer with n1Ok := some ok } }
    match if ok then (st.layer.cudaPlanesProduct call).toOption else none with
    | some y => (st, .ok (addBias st.layer.bias y))
    | none => forwardPlaneOp num host st call
  else forwardPlaneOp num host st call

/-- What `cuda_decode.supported` and `cuda_decode.supported_prefill` both check. -/
def cudaDecodeReads (st : Served α) : Bool :=
  st.layer.stages.length = 2 ∧ st.layer.groupSize = 8 ∧ st.layer.blockSize = 32 ∧ st.layer.groupMajor = true ∧
    st.layer.int16Indices = true ∧ st.isCuda = true ∧ (0 < st.layer.corr.col.length ∨ st.layer.corrSpCache = none) ∧
    host.cudaDecode = true

/-- `cuda_decode.supported(layer, n_tokens)`. -/
def cudaDecodeSupported (st : Served α) (nTokens : ℕ) : Bool :=
  nTokens = 1 ∧ st.layer.inFeatures % 32 = 0 ∧ cudaDecodeReads host st = true

/-- `cuda_decode.supported_prefill(layer, n_tokens)`. -/
def supportedPrefill (st : Served α) (nTokens : ℕ) : Bool := host.prefillMinTokens ≤ nTokens ∧ cudaDecodeReads host st = true

/-- `cuda_decode.forward_n1`, `none` where it raises: the correction it adds is the one of its cached buffers. -/
def cudaForwardN1 (st : Served α) (call : ServeCall α) : Served α × Option (List (List α)) :=
  let csr := st.cudaDecodeCache.getD (if 0 < st.layer.corr.col.length then some st.layer.corr else none)
  ({ st with cudaDecodeCache := some csr }, ((st.layer.cudaDecodeProduct call csr).map (addBias st.layer.bias)).toOption)

/-- `cuda_decode.forward_prefill`, `none` where it raises: the correction is added to the decoded matrix. -/
def cudaForwardPrefill (st : Served α) (call : ServeCall α) : Option (List (List α)) :=
  ((st.layer.cudaDense call).bind fun w =>
    (if 0 < st.layer.corr.col.length then st.layer.addCorrection num st.layer.corr w.flatten else .ok w.flatten).map fun w =>
      addBias st.layer.bias (linear st.layer.outFeatures st.layer.inFeatures w call.x)).toOption

/-- The Triton path of `vq_linear_forward`. -/
def forwardTriton (st : Served α) (call : ServeCall α) : Served α × Except PyErr (List (List α)) :=
  match st.layer.tritonProduct call with
  | .error e => (st, .error e)
  | .ok y =>
    let (layer, sp) := st.layer.correctionSparse
    ({ st with layer := layer }, layer.correctedOutput sp call.x y)

/-- `vq_linear_forward(layer, x)`. -/
def vqLinearForward (st : Served α) (call : ServeCall α) : Served α × Except PyErr (List (List α)) :=
  if st.layer.groupSize = 0 ∨ st.layer.blockSize = 0 then (st, .error .zeroDivisionError)
  else if st.layer.inFeatures % st.layer.groupSize ≠ 0 ∨ st.layer.inFeatures % st.layer.blockSize ≠ 0 then (st, .error .assertionError)
  else if call.x.length = 1 then
    if cudaDecodeSupported host st 1 then
      let (st, out) := cudaForwardN1 st call
      match out with
      | some y => (st, .ok y)
      | none => forwardTriton st call
    else forwardTriton st call
  else if supportedPrefill host st call.x.length then
    match cudaForwardPrefill num st call with
    | some y => (st, .ok y)
    | none => forwardTriton st call
  else forwardTriton st call

/-- `VQLinear.forward(x)`. -/
def forward (st : Served α) (call : ServeCall α) : Served α × Except PyErr (List (List α)) :=
  if st.layer.planed then forwardPlaned num host st call
  else if host.dispatch then vqLinearForward num host st call
  else (st, st.layer.forwardPython num call.x)

/-- What happens to a served layer: a call, or `.to(device)`. -/
inductive ServeEvent (α : Type) where
  | call (c : ServeCall α)
  | move (isCuda : Bool)

/-- The layer after an event. -/
def serveStep (st : Served α) : ServeEvent α → Served α
  | .call c => (forward num host st c).1
  | .move isCuda => { st with isCuda := isCuda }

/-- The layer after a run. -/
def serve (st : Served α) (events : List (ServeEvent α)) : Served α := events.foldl (serveStep num host) st

end Forward

end Orka
