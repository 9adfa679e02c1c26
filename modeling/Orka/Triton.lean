import Orka.VQLinear
import Orka.Lib.Tile

/-!
# The Triton kernels of a layer whose indices are not in planes

`_vq_decode_kernel` computes one token, one output row a lane, group by group. `_vq_gemm_kernel` computes many tokens, one token
and output row a lane, over tiles of columns. Offsets are exact integers, and so is the arithmetic of the values.
-/

namespace Orka

open Flat Tile

/-- `BLOCK_M` of the configurations of `_vq_decode_kernel`. -/
def decodeConfigs : List ℕ := [64, 128, 256, 256, 512]

/-- `BLOCK_M`, `BLOCK_N` and `BLOCK_K` of the configurations of `_vq_gemm_kernel`. -/
def gemmConfigs : List (ℕ × ℕ × ℕ) :=
  [(64, 64, 64), (32, 64, 64), (64, 32, 64), (128, 32, 32), (32, 32, 64), (64, 64, 32), (128, 128, 64), (128, 256, 64),
    (64, 128, 128), (128, 128, 32), (256, 128, 64)]

section Kernels

variable {α : Type} [Ring α] (layer : VQLinear α)

/-- `K // G`. -/
def VQLinear.gpr : ℕ := layer.inFeatures / layer.groupSize

/-- `K // B`. -/
def VQLinear.bpr : ℕ := layer.inFeatures / layer.blockSize

/-- Where the index of a row and a group is. -/
def VQLinear.indexOffset (m g : ℕ) : ℕ := if layer.groupMajor then g * layer.outFeatures + m else m * layer.gpr + g

/-- Where the scale of a row and a block is. -/
def VQLinear.scaleOffset (m b : ℕ) : ℕ := if layer.groupMajor then b * layer.outFeatures + m else m * layer.bpr + b

/-- The codebook entry of one stage: its index, then place `e` of the codeword. -/
def loadEntry (s : StageBuffers α) (iOff e : ℕ) (mask : Bool) : Except Fault α :=
  (load s.indices iOff mask 0).bind fun idx => load s.codebook.flatten (idx * layer.groupSize + e) mask 0

/-- `tl.sum(cbe * x_g)` of one stage. -/
def dotStage (xg : List α) (es : List ℕ) (iOff : ℕ) (mask : Bool) (s : StageBuffers α) : Except Fault α :=
  (es.mapM fun e => loadEntry layer s iOff e mask).map fun cbe => (List.zipWith (· * ·) cbe xg).sum

/-- One group of one row: `acc += scale * dot`. -/
def decodeGroup (x : List α) (es : List ℕ) (groupsPerBlock m : ℕ) (acc : α) (g : ℕ) : Except Fault α :=
  let mMask := decide (m < layer.outFeatures)
  (es.mapM fun e => load x (g * layer.groupSize + e : ℕ) true 0).bind fun xg =>
    if groupsPerBlock = 0 then .error .divisionByZero
    else (load layer.scales (layer.scaleOffset m (g / groupsPerBlock)) mMask 0).bind fun scale =>
      ((layer.stages.take 3).foldlM (fun dot s =>
        (dotStage layer xg es (layer.indexOffset m g) mMask s).map (dot + ·)) 0).map fun dot => acc + scale * dot

/-- `_vq_decode_kernel`, launched over the output rows. -/
def vqDecodeKernel (blockM : ℕ) (x out : List α) (groupsPerBlock : ℕ) : Except Fault (List α) :=
  (arange blockM).bind fun _ => (arange layer.groupSize).bind fun es =>
    launch (blockLanes layer.outFeatures blockM) (fun m => decide (m < layer.outFeatures)) id
      (fun m => (List.range layer.gpr).foldlM (decodeGroup layer x es groupsPerBlock m) 0) out

/-- `_vq_decode_n1(layer, x_2d)`; `out` is what `torch.empty` holds. -/
def vqDecodeN1 (blockM : ℕ) (x out : List α) : Except Fault (List α) :=
  vqDecodeKernel layer blockM x out (layer.blockSize / layer.groupSize)

/-- One column of one token and one output row: the product of the `x` tile and the `w` tile there. -/
def gemmColumn (x : List α) (N n m k : ℕ) : Except Fault α :=
  let kMask := decide (k < layer.inFeatures)
  let wMask := decide (m < layer.outFeatures) && kMask
  let flatGroup := layer.indexOffset m (k / layer.groupSize)
  ((layer.stages.take 3).foldlM (fun w s =>
    (loadEntry layer s flatGroup (k % layer.groupSize) wMask).map (w + ·)) 0).bind fun w =>
    (load layer.scales (layer.scaleOffset m (k / layer.blockSize)) wMask 1).bind fun scale =>
      (load x (n * layer.inFeatures + k : ℕ) (decide (n < N) && kMask) 0).map fun xk => xk * (w * scale)

/-- One tile of columns: `acc = tl.dot(x_tile, tl.trans(w_tile), acc)`. -/
def gemmTile (blockK : ℕ) (x : List α) (N n m : ℕ) (acc : α) (kStart : ℕ) : Except Fault α :=
  ((List.range blockK).mapM fun j => gemmColumn layer x N n m (kStart + j)).map fun ts => acc + ts.sum

/-- `_vq_gemm_kernel`, launched over the tokens and the output rows. -/
def vqGemmKernel (config : ℕ × ℕ × ℕ) (N : ℕ) (x out : List α) : Except Fault (List α) :=
  let (blockM, blockN, blockK) := config
  (arange blockM).bind fun _ => (arange blockN).bind fun _ => (arange blockK).bind fun _ =>
    launch (blockLanes N blockN ×ˢ blockLanes layer.outFeatures blockM)
      (fun l => decide (l.1 < N) && decide (l.2 < layer.outFeatures)) (fun l => l.1 * layer.outFeatures + l.2)
      (fun l => ((List.range (ceilDiv layer.inFeatures blockK)).map (· * blockK)).foldlM
        (gemmTile layer blockK x N l.1 l.2) 0) out

/-- The assertions of `vq_linear_forward`. -/
def forwardChecks : Except PyErr Unit :=
  if layer.groupSize = 0 ∨ layer.blockSize = 0 then .error .zeroDivisionError
  else if layer.inFeatures % layer.groupSize ≠ 0 then .error .assertionError
  else if layer.inFeatures % layer.blockSize ≠ 0 then .error .assertionError
  else .ok ()

end Kernels

end Orka
