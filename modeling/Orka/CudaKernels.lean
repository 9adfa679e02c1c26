import Orka.TritonPlanes
import Orka.Lib.Warp

/-!
# The CUDA kernels

`gemv_planes` computes one row of one token by a warp, `gemv_f4` by slices of groups that add up atomically; `spmv_warp` adds the
correction to what `gemv_f4` left, a warp a row. `ddense` decodes the matrix. Offsets are exact integers but for the flat position of
an index in planes, and the arithmetic of the values is exact.
-/

namespace Orka

open Flat Tile Warp

/-- `KSPLIT` and `TH`, of which `_pick_cfg` takes one. -/
def cudaConfigs : List (ℕ × ℕ) := [8, 16, 32, 64, 128] ×ˢ [128, 256]

section Gemv

variable {α : Type} [Ring α] (layer : VQLinear α)

/-- Place `j` of the codewords named, added up by `__hadd2`. -/
def addCodewords (words : List (List α × ℤ)) (j : ℕ) : Except Fault α :=
  words.foldlM (fun w c => (load c.1 (c.2 * layer.groupSize + j) true 0).map (w + ·)) 0

/-- The loop over the pairs of halves of one group: `dot += wf.x * xf.x + wf.y * xf.y`. -/
def dotPairs (x : List α) (words : List (List α × ℤ)) (g : ℕ) : Except Fault α :=
  (List.range (layer.groupSize / 2)).foldlM (fun dot e =>
    (addCodewords layer words (2 * e)).bind fun w0 => (addCodewords layer words (2 * e + 1)).bind fun w1 =>
      (load x (2 * (g * (layer.groupSize / 2) + e) : ℕ) true 0).bind fun x0 =>
        (load x (2 * (g * (layer.groupSize / 2) + e) + 1 : ℕ) true 0).map fun x1 => dot + (w0 * x0 + w1 * x1)) 0

/-- One group of one row: `acc += s * dot`, with the index of each stage and the scale from where the layout keeps them. -/
def gemvGroup (x : List α) (stages : List (StageBuffers α)) (index : StageBuffers α → ℕ → Except Fault ℤ)
    (scaleAt : ℕ → ℕ) (acc : α) (g : ℕ) : Except Fault α :=
  let gpb := layer.blockSize / layer.groupSize
  if gpb = 0 then .error .divisionByZero
  else (load layer.scales (scaleAt (g / gpb)) true 0).bind fun s =>
    (stages.mapM fun st => (index st g).map fun i => (st.codebook.flatten, i)).bind fun words =>
      (dotPairs layer x words g).map fun dot => acc + s * dot

/-- One group of `gemv_planes`: indices in planes, row-major. The `float2` path of four values is the loop of two turns. -/
def gemvPlanesGroup (x : List α) (m : ℕ) : α → ℕ → Except Fault α :=
  gemvGroup layer x (layer.stages.take 3)
    (fun s g => (cudaPlaneIndex s.lo s.hi layer.hiBits (m * layer.gpr + g)).map fun i : ℕ => (i : ℤ)) fun b => m * layer.bpr + b

/-- `gemv_planes`: the warp of a row. -/
def gemvPlanesRow (x : List α) (m : ℕ) : Except Fault α :=
  ((List.range 32).mapM fun lane => (stride lane layer.gpr 32).foldlM (gemvPlanesGroup layer x m) 0).map warpSum

/-- `decode_planes`: `gemv_planes` in blocks of eight warps, over zeros. -/
def decodePlanes (x : List α) : Except Fault (List α) :=
  launch (List.range (ceilDiv (layer.outFeatures * 32) 256 * 8)) (fun m => decide (m < layer.outFeatures)) id
    (fun m => if m < layer.outFeatures then gemvPlanesRow layer x m else .ok 0) (List.replicate layer.outFeatures 0)

/-- The index a kernel reads out of an `int16` buffer, group-major, as an unsigned one. -/
def ushortIndex (m : ℕ) (s : StageBuffers α) (g : ℕ) : Except Fault ℤ :=
  (load s.indices (g * layer.outFeatures + m : ℕ) true 0).map (· % 2 ^ 16)

/-- One group of `gemv_f4`: plain indices, group-major, and codewords of eight values, which the dispatcher asks for. -/
def gemvF4Group (x : List α) (m : ℕ) : α → ℕ → Except Fault α :=
  gemvGroup layer x (layer.stages.take 2) (ushortIndex layer m) fun b => b * layer.outFeatures + m

/-- `decode`: `gemv_f4` over slices of the groups. -/
def cudaDecode (config : ℕ × ℕ) (x : List α) : Except Fault (List α) :=
  let (ksplit, th) := config
  let gps := ceilDiv layer.gpr ksplit
  launchAdd (List.range ksplit ×ˢ List.range (ceilDiv layer.outFeatures th * th)) (fun l => decide (l.2 < layer.outFeatures)) Prod.snd
    (fun l => if l.2 < layer.outFeatures then
      ((List.range (min (l.1 * gps + gps) layer.gpr - l.1 * gps)).map (l.1 * gps + ·)).foldlM (gemvF4Group layer x l.2) 0
      else .ok 0) (List.replicate layer.outFeatures 0)

/-- One value of `ddense`: thread `gm`, place `e`. -/
def ddenseValue (gm e : ℕ) : Except Fault α :=
  let gpb := layer.blockSize / layer.groupSize
  let g := gm / layer.outFeatures
  let m := gm % layer.outFeatures
  if gpb = 0 then .error .divisionByZero
  else ((layer.stages.take 2).mapM fun st => (ushortIndex layer m st g).map fun i => (st.codebook.flatten, i)).bind fun words =>
    (load layer.scales (g / gpb * layer.outFeatures + m : ℕ) true 0).bind fun s =>
      (addCodewords layer words e).map fun w => s * w

/-- `decode_dense`: `ddense`, a thread a group, over what `torch.empty` holds. -/
def decodeDense (out : List α) : Except Fault (List α) :=
  let threads := layer.outFeatures * layer.gpr
  launch (List.range (ceilDiv threads 256 * 256) ×ˢ List.range 8) (fun l => decide (l.1 < threads))
    (fun l => l.1 % layer.outFeatures * (layer.gpr * 8) + l.1 / layer.outFeatures * 8 + l.2)
    (fun l => if l.1 < threads then ddenseValue layer l.1 l.2 else .ok 0) out

end Gemv

section Spmv

variable {α : Type} [Ring α]

/-- `spmv_warp`: the warp of a row, over the entries of the row. -/
def spmvRow (csr : Csr α) (x : List α) (m : ℕ) : Except Fault α :=
  (load csr.rowptr m true 0).bind fun s => (load csr.rowptr (m + 1 : ℕ) true 0).bind fun e =>
    ((List.range 32).mapM fun lane => (stride lane (e - s).toNat 32).foldlM (fun acc (j : ℕ) =>
      (load csr.val (s + j) true 0).bind fun v => (load csr.col (s + j) true 0).bind fun k =>
        (load x k true 0).map fun xk => acc + v * xk) 0).map warpSum

/-- `correct`: `spmv_warp` in blocks of four warps, added to `y`. -/
def cudaCorrect (outFeatures : ℕ) (csr : Csr α) (x y : List α) : Except Fault (List α) :=
  launch (List.range (ceilDiv (outFeatures * 32) 128 * 4)) (fun m => decide (m < outFeatures)) id
    (fun m => if m < outFeatures then (spmvRow csr x m).bind fun v => (load y m true 0).map (· + v) else .ok 0) y

end Spmv

end Orka
