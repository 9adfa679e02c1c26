import Orka.Format
import Orka.VQLinear
import Orka.Lib.Tile

/-!
# Index planes

`_pack_index_planes` splits indices into a plane of low bytes and a packed plane of high bits. The file format reads them back
with the generic unpacker, the layer and the kernels with slot arithmetic inside one byte.
-/

namespace Orka

open Flat Tile

/-- `_pack_index_planes(indices, width)`: the low bytes, and the high bits packed. -/
def packIndexPlanes (indices : List ℤ) (width : ℕ) : Except PyErr (List ℕ × List ℕ) :=
  let arr := indices.map fun i => (i % 2 ^ 64).toNat
  let lo := arr.map (· &&& 0xFF)
  if width ≤ 8 then .ok (lo, [])
  else (packIndices (arr.map (· >>> 8)) (width - 8) packChunkIndices).map fun hi => (lo, hi)

/-- `_unpack_index_planes(lo, hi_packed, width, count)`. -/
def unpackIndexPlanes (lo hiPacked : List ℕ) (width count : ℕ) : Except PyErr (List ℤ) :=
  if count = 0 then .ok []
  else
    let idx := lo.take count
    if 8 < width then
      (unpackIndices hiPacked (width - 8) count packChunkIndices).bind fun hi =>
        if idx.length = hi.length then
          .ok (List.zipWith (fun l h => toInt64 (l ||| ((h % 2 ^ 64).toNat <<< 8 % 2 ^ 64))) idx hi)
        else .error (.valueError "operands could not be broadcast together")
    else .ok (idx.map toInt64)

/-- `hi_bytes`, the length the constructor gives the high plane of a stage. -/
def hiBytes (nGroups width : ℕ) : ℕ := ceilDiv (nGroups * (width - 8)) 8

/-- A value in a 32-bit register of a kernel. -/
def wrap32 (x : ℤ) : ℤ := x.bmod (2 ^ 32)

/-- The index the CUDA kernel `gemv_planes` reads at a flat position: `p`, `sh` and `bo` are `int`. -/
def cudaPlaneIndex (lo hi : List ℕ) (hiBits pos : ℕ) : Except Fault ℕ :=
  let p := wrap32 pos
  let per := 8 / hiBits
  let himask := (1 <<< hiBits) - 1
  let sh := 8 - (p.tmod per + 1) * hiBits
  let bo := wrap32 (p * hiBits) >>> (3 : ℕ)
  (load lo p true 0).bind fun l => (load hi bo true 0).map fun byte => l ||| (((byte >>> sh.toNat) &&& himask) <<< 8)

/-- The index the Triton plane kernels read at a flat position, behind their mask: `i_off` is an `int32` tensor. -/
def tritonPlaneIndex (lo hi : List ℕ) (hiBits pos : ℕ) (mask : Bool) : Except Fault ℕ :=
  let iOff := wrap32 pos
  let per := 8 / hiBits
  let himask := (1 <<< hiBits) - 1
  let shift := 8 - (iOff.tmod per + 1) * hiBits
  (load lo iOff mask 0).bind fun l =>
    (load hi ((wrap32 (iOff * hiBits)).tdiv 8) mask 0).map fun byte => l ||| (((byte >>> shift.toNat) &&& himask) <<< 8)

end Orka
