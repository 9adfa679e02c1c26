import Orka.Planes
import Orka.Triton

/-!
# The Triton kernels of a layer whose indices are in planes

`_vq_decode_planes_kernel` and `_vq_gemm_planes_kernel` are the kernels of a layer without planes, but for the indices: each is
rebuilt from its low byte and its slot of the high plane. They take two stages with the same high bits.
-/

namespace Orka

open Flat Tile

/-- `BLOCK_M` of the configurations of `_vq_decode_planes_kernel`. -/
def decodePlanesConfigs : List ℕ := [64, 128, 256, 256]

/-- `BLOCK_M`, `BLOCK_N` and `BLOCK_K` of the configurations of `_vq_gemm_planes_kernel`. -/
def gemmPlanesConfigs : List (ℕ × ℕ × ℕ) := [(64, 64, 64), (64, 32, 64), (128, 32, 32), (128, 128, 64), (128, 256, 64)]

section Kernels

variable {α : Type} [Ring α] (layer : VQLinear α)

/-- `layer._plane_width[0] - 8`. -/
def VQLinear.hiBits : ℕ := (layer.stages.head?.elim 0 StageBuffers.planeWidth) - 8

/-- The codebook entry of one stage: its index out of the planes, then place `e` of the codeword. -/
def loadPlaneEntry (s : StageBuffers α) (iOff e : ℕ) (mask : Bool) : Except Fault α :=
  (tritonPlaneIndex s.lo s.hi layer.hiBits iOff mask).bind fun idx =>
    load s.codebook.flatten (idx * layer.groupSize + e : ℕ) mask 0

/-- `tl.sum(cbe * x_g)` of one stage. -/
def dotPlaneStage (xg : List α) (es : List ℕ) (iOff : ℕ) (mask : Bool) (s : StageBuffers α) : Except Fault α :=
  (es.mapM fun e => loadPlaneEntry layer s iOff e mask).map fun cbe => (List.zipWith (· * ·) cbe xg).sum

/-- One group of one row: `acc += scale * dot`. -/
def decodePlanesGroup (x : List α) (es : List ℕ) (groupsPerBlock m : ℕ) (acc : α) (g : ℕ) : Except Fault α :=
  let mMask := decide (m < layer.outFeatures)
  (es.mapM fun e => load x (g * layer.groupSize + e : ℕ) true 0).bind fun xg =>
    if groupsPerBlock = 0 then .error .divisionByZero
    else (load layer.scales (layer.scaleOffset m (g / groupsPerBlock)) mMask 0).bind fun scale =>
      ((layer.stages.take 2).foldlM (fun dot s =>
        (dotPlaneStage layer xg es (layer.indexOffset m g) mMask s).map (dot + ·)) 0).map fun dot => acc + scale * dot

/-- `_vq_decode_planes_kernel`, launched over the output rows. -/
def vqDecodePlanesKernel (blockM : ℕ) (x out : List α) (groupsPerBlock : ℕ) : Except Fault (List α) :=
  (arange blockM).bind fun _ => (arange layer.groupSize).bind fun es =>
    launch (blockLanes layer.outFeatures blockM) (fun m => decide (m < layer.outFeatures)) id
      (fun m => (List.range layer.gpr).foldlM (decodePlanesGroup layer x es groupsPerBlock m) 0) out

/-- `_vq_decode_planes_n1(layer, x_2d)` past its checks; `out` is what `torch.empty` holds. -/
def vqDecodePlanesN1 (blockM : ℕ) (x out : List α) : Except Fault (List α) :=
  vqDecodePlanesKernel layer blockM x out (layer.blockSize / layer.groupSize)

/-- One column of one token and one output row: the product of the `x` tile and the `w` tile there. -/
def gemmPlanesColumn (x : List α) (N n m k : ℕ) : Except Fault α :=
  let kMask := decide (k < layer.inFeatures)
  let tileMask := decide (m < layer.outFeatures) && kMask
  let flatGroup := layer.indexOffset m (k / layer.groupSize)
  ((layer.stages.take 2).foldlM (fun w s =>
    (loadPlaneEntry layer s flatGroup (k % layer.groupSize) tileMask).map (w + ·)) 0).bind fun w =>
    (load layer.scales (layer.scaleOffset m (k / layer.blockSize)) tileMask 1).bind fun scale =>
      (load x (n * layer.inFeatures + k : ℕ) (decide (n < N) && kMask) 0).map fun xk => xk * (w * scale)

/-- One tile of columns: `acc = tl.dot(x_tile, tl.trans(w_tile), acc)`. -/
def gemmPlanesTile (blockK : ℕ) (x : List α) (N n m : ℕ) (acc : α) (kStart : ℕ) : Except Fault α :=
  ((List.range blockK).mapM fun j => gemmPlanesColumn layer x N n m (kStart + j)).map fun ts => acc + ts.sum

/-- `_vq_gemm_planes_kernel`, launched over the tokens and the output rows. -/
def vqGemmPlanesKernel (config : ℕ × ℕ × ℕ) (N : ℕ) (x out : List α) : Except Fault (List α) :=
  let (blockM, blockN, blockK) := config
  (arange blockM).bind fun _ => (arange blockN).bind fun _ => (arange blockK).bind fun _ =>
    launch (blockLanes N blockN ×ˢ blockLanes layer.outFeatures blockM)
      (fun l => decide (l.1 < N) && decide (l.2 < layer.outFeatures)) (fun l => l.1 * layer.outFeatures + l.2)
      (fun l => ((List.range (ceilDiv layer.inFeatures blockK)).map (· * blockK)).foldlM
        (gemmPlanesTile layer blockK x N l.1 l.2) 0) out

end Kernels

end Orka
