import Orka.Kmeans
import Mathlib.Order.WithBot

/-!
# The fused assignment kernel

`_argmin_kernel` and `triton_assign` of `_assign_kernel.py`, lane by lane: a block of rows against tiles of centroids, with masked
loads, infinity in the lanes past the last centroid and a running minimum. Offsets are exact integers, arithmetic is exact, and so is
the cast to float16.
-/

namespace Orka

open Flat Menu Tile

variable {α : Type} [Field α] [LinearOrder α] {d : ℕ}

/-- An entry of `dist` in the tile: a row against the centroid `kk`. -/
def tileDist (v c csq : List α) (k D : ℕ) (dIdx : List ℕ) (kk : ℕ) : Except Fault (WithTop α) :=
  (dIdx.mapM fun e => load c (kk * D + e : ℕ) (kk < k) 0).bind fun cRow =>
    (load csq kk (kk < k) 0).map fun cs =>
      if kk < k then ((cs - 2 * (List.zipWith (fun x y => x * y) v cRow).sum : α) : WithTop α) else ⊤

/-- One tile of the loop over `k0`: `best_d` and `best_i`. -/
def tileStep (v c csq : List α) (k D blockK : ℕ) (dIdx : List ℕ) (best : WithTop α × ℕ) (t : ℕ) : Except Fault (WithTop α × ℕ) :=
  (arange blockK).bind fun lanes =>
    (lanes.mapM fun j => tileDist v c csq k D dIdx (t * blockK + j)).map fun dist =>
      let tileMin := dist.foldr min ⊤
      let tileArg := argmin dist.length (fun j => dist.getD j ⊤) + t * blockK
      if tileMin < best.1 then (tileMin, tileArg) else best

/-- One lane of `_argmin_kernel`. -/
def argminLane (v c csq : List α) (n k D blockK : ℕ) (row : ℕ) : Except Fault ℕ :=
  (arange D).bind fun dIdx =>
    (dIdx.mapM fun e => load v (row * D + e : ℕ) (row < n) 0).bind fun vRow =>
      ((List.range (ceilDiv k blockK)).foldlM (tileStep vRow c csq k D blockK dIdx) (⊤, 0)).map Prod.snd

/-- `D`, the width padded to a multiple of 16. -/
def paddedDim (d : ℕ) : ℕ := (d + 15) / 16 * 16

/-- A row of `pad(x, (0, D - d))`. -/
def padRow (D : ℕ) (x : Fin d → α) : Fin D → α := fun e => if h : e.val < d then x ⟨e, h⟩ else 0

/-- `triton_assign(vectors, cb)` with blocks of `blockN` rows and `blockK` centroids; `out` is what `torch.empty` holds. -/
def tritonAssign (blockN blockK : ℕ) (vectors cb : List (Fin d → α)) (out : List ℕ) : Except Fault (List ℕ) :=
  let D := paddedDim d
  (arange blockN).bind fun _ =>
    launch (blockLanes vectors.length blockN) (fun row => decide (row < vectors.length)) id
      (argminLane ((vectors.map (padRow D)).flatMap List.ofFn) ((cb.map (padRow D)).flatMap List.ofFn) (cb.map fun c => rowDot c c)
        vectors.length cb.length D blockK) out

end Orka
