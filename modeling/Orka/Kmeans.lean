import Orka.Ans
import Orka.Lib.Menu
import Orka.Lib.Tile
import Mathlib.Data.List.SplitLengths
import Mathlib.Data.Nat.Log

/-!
# Codebook learning

The Lloyd iterations of `_kmeans_numpy.py` and `_kmeans_torch.py`. A matrix of width `d` is the list of its rows. Arithmetic is exact,
and so are casts between float formats; the random initialization, faiss and the square root are parameters.
-/

namespace Orka

open Flat Menu Tile

section Kmeans

variable {α : Type} [Field α] [LinearOrder α] {d : ℕ}

/-! ## Rows -/

/-- `np.sum(x * y)` of two rows. -/
def rowDot (x y : Fin d → α) : α := ∑ e, x e * y e

/-- `rows * np.sqrt(W)`. -/
def scaleDims (sqrt : α → α) (vectorWeights : Option (Fin d → α)) (rows : List (Fin d → α)) : List (Fin d → α) :=
  match vectorWeights with
  | none => rows
  | some w => rows.map fun x e => x e * sqrt (w e)

/-- `rows * sw[:, None]`. -/
def weightRows (sw : List α) (rows : List (Fin d → α)) : List (Fin d → α) := List.zipWith (fun s x e => x e * s) sw rows

/-- The slices `xs[start:start + c]` of a loop over `range(0, len(xs), c)`. -/
def chunked {β : Type} (c : ℕ) (xs : List β) : List (List β) := (List.range (ceilDiv xs.length c)).map fun p => (xs.drop (p * c)).take c

/-- `codebook[nonzero] = sums[nonzero] / counts[nonzero, None]` with `nonzero = counts > 0`, on a copy. -/
def divideNonzero (codebook sums : List (Fin d → α)) (counts : List α) : Except PyErr (List (Fin d → α)) :=
  if counts.length ≠ codebook.length then .error .indexError
  else .ok (tabulate codebook.length fun j => if 0 < cell counts j then fun e => cell sums j e / cell counts j else cell codebook j)

/-! ## numpy -/

/-- An entry of `dists`: a row with its squared norm against a centroid. -/
def distEntry (centroids : List (Fin d → α)) (row : (Fin d → α) × α) (j : ℕ) : α :=
  row.2 + rowDot (cell centroids j) (cell centroids j) - 2 * rowDot row.1 (cell centroids j)

/-- `_numpy_assign(vectors, codebook, chunk_size, r_norm_sq, vector_weights, compute_mse)`: the indices and the mean squared error. -/
def numpyAssign (sqrt : α → α) (vectors codebook : List (Fin d → α)) (chunkSize : ℕ) (rNormSq : Option (List α))
    (vectorWeights : Option (Fin d → α)) (computeMse : Bool) : Except PyErr (List ℕ × α) :=
  let rows := scaleDims sqrt vectorWeights vectors
  let centroids := scaleDims sqrt vectorWeights codebook
  let rowNorms := if vectorWeights.isSome then some (rows.map fun x => rowDot x x) else rNormSq
  if (rowNorms.getD (rows.map fun x => rowDot x x)).length ≠ rows.length then .error (.valueError "r_norm_sq length must match vectors")
  else if !rows.isEmpty && centroids.isEmpty then .error (.valueError "attempt to get argmin of an empty sequence")
  else
    let effectiveChunk := max 64 (min chunkSize ((1 <<< 26) / max centroids.length 1))
    let chosen := (chunked effectiveChunk (rows.zip (rowNorms.getD (rows.map fun x => rowDot x x)))).map fun chunk =>
      chunk.map fun row =>
        let best := argmin centroids.length (distEntry centroids row)
        (best, distEntry centroids row best)
    let indices := chosen.flatten.map Prod.fst
    if !computeMse then .ok (indices, 0)
    else if rows.length * d = 0 then .error .zeroDivisionError
    else .ok (indices, (chosen.map fun chunk => (chunk.map Prod.snd).sum).sum / (rows.length * d : ℕ))

/-- `np.bincount(keys, weights=ws, minlength=n)`. -/
def bincountWeights (keys : List ℕ) (ws : List α) (n : ℕ) : List α :=
  tabulate (max n (keys.foldr (fun s m => max (s + 1) m) 0)) fun j => (((keys.zip ws).filter fun w => w.1 = j).map Prod.snd).sum

/-- `_numpy_centroid_sums(rows, indices, k, sample_weights)`. -/
def numpyCentroidSums (rows : List (Fin d → α)) (indices : List ℕ) (k : ℕ) (sampleWeights : Option (List α)) :
    Except PyErr (List (Fin d → α)) :=
  if indices.length ≠ rows.length then .error (.valueError "indices length must match rows")
  else if indices.any fun i => k ≤ i then .error .indexError
  else
    let vectors : Except PyErr (List (Fin d → α)) := match sampleWeights with
      | none => .ok rows
      | some sw => if sw.length ≠ rows.length then .error (.valueError "sample_weights length must match rows")
        else .ok (weightRows sw rows)
    vectors.map fun vectors => tabulate k fun j e => cell (bincountWeights indices (vectors.map fun x => x e) k) j

/-- The weights of the clusters, in the loop of `_learn_codebook_numpy`. -/
def numpyCounts (indices : List ℕ) (k : ℕ) (sampleWeights : Option (List α)) : List α :=
  match sampleWeights with
  | none => (bincount indices k).map fun n : ℤ => (n : α)
  | some sw => bincountWeights indices sw k

/-- One iteration of the loop of `_learn_codebook_numpy`. -/
def lloydNumpy (sqrt : α → α) (rows : List (Fin d → α)) (k : ℕ) (vectorWeights : Option (Fin d → α)) (sampleWeights : Option (List α))
    (codebook : List (Fin d → α)) : Except PyErr (List (Fin d → α)) :=
  (numpyAssign sqrt rows codebook 65536 (if vectorWeights.isNone then some (rows.map fun x => rowDot x x) else none)
    vectorWeights true).bind fun (indices, _) =>
    (numpyCentroidSums rows indices k sampleWeights).bind fun sums => divideNonzero codebook sums (numpyCounts indices k sampleWeights)

/-- `min(codebook_size, n)`. -/
def cappedSize (codebookSize : ℤ) (n : ℕ) : ℕ := (min codebookSize n).toNat

/-- `effective_iters`. -/
def effectiveIters (k n : ℕ) (iterations : ℤ) : ℕ := (if 9 * n / 10 ≤ k then min iterations 3 else iterations).toNat

/-- The codebook the iterations start from; `init` stands for the random choice of centroids, of which the initialization returns
`centroids[:k]`. -/
def startCodebook (init : List (Fin d → α) → ℕ → List (Fin d → α)) (rows : List (Fin d → α)) (k : ℕ)
    (initialCodebook : Option (List (Fin d → α))) : List (Fin d → α) :=
  match initialCodebook with
  | some codebook => codebook.take k
  | none => if k = 1 then [cell rows (rows.length / 2)] else (init rows k).take k

/-- `_learn_codebook_numpy(vectors, codebook_size, iterations, seed, initial_codebook, vector_weights, sample_weights)`. -/
def learnCodebookNumpy (sqrt : α → α) (init : List (Fin d → α) → ℕ → List (Fin d → α)) (rows : List (Fin d → α))
    (codebookSize iterations : ℤ) (initialCodebook : Option (List (Fin d → α))) (vectorWeights : Option (Fin d → α))
    (sampleWeights : Option (List α)) : Except PyErr (List (Fin d → α) × List ℕ × α) :=
  if rows.isEmpty then .error (.valueError "at least one vector is required")
  else if codebookSize ≤ 0 then .error (.valueError "codebook_size must be positive")
  else if iterations ≤ 0 then .error (.valueError "iterations must be positive")
  else
    let k := cappedSize codebookSize rows.length
    ((List.range (effectiveIters k rows.length iterations)).foldlM
      (fun codebook _ => lloydNumpy sqrt rows k vectorWeights sampleWeights codebook)
      (startCodebook init rows k initialCodebook)).bind fun codebook =>
      (numpyAssign sqrt rows codebook 65536 (if vectorWeights.isNone then some (rows.map fun x => rowDot x x) else none)
        vectorWeights true).map fun (indices, mse) => (codebook, indices, mse)

/-! ## torch -/

/-- What the torch code asks of its surroundings: whether the tensors are on a CUDA device, whether triton is installed, and the two
limits of the assignment. -/
structure TorchDevice where
  cuda : Bool
  triton : Bool
  largeAssignRows : ℕ
  assignChunkMb : ℕ

/-- One row of `_argmin_kernel`: the running minimum over tiles of `blockK` centroids. The lanes past the last centroid are at
infinity, as is the minimum before the first tile. -/
def argminKernel (blockK n : ℕ) (key : ℕ → α) : ℕ :=
  ((List.range (ceilDiv n blockK)).foldl (fun (best : Option α × ℕ) p =>
    let tileArg := argmin (min blockK (n - p * blockK)) fun j => key (p * blockK + j)
    let tileMin := key (p * blockK + tileArg)
    if best.1.all fun b => tileMin < b then (some tileMin, p * blockK + tileArg) else best) (none, 0)).2

/-- `assign(vectors, cb)` of `_assign_kernel.py`: the least `||c||^2 - 2 v.c`. -/
def fusedAssign (dev : TorchDevice) (vectors cb : List (Fin d → α)) : Except PyErr (List ℕ) :=
  if cb.isEmpty then .error .indexError
  else
    let dist (v : Fin d → α) (j : ℕ) : α := rowDot (cell cb j) (cell cb j) - 2 * rowDot v (cell cb j)
    if dev.triton && dev.cuda && d ≤ 16 then .ok (vectors.map fun v => argminKernel 64 cb.length (dist v))
    else .ok (vectors.map fun v => argmin cb.length (dist v))

/-- The squared distance of rows to the centroids they are assigned. -/
def assignedSse (rows centroids : List (Fin d → α)) (idx : List ℕ) : α :=
  (List.zipWith (fun (x : Fin d → α) j => ∑ e, (x e - cell centroids j e) ^ 2) rows idx).sum

/-- `_torch_assign(vectors, codebook, device, chunk_size, vector_weights, keep_device, compute_mse)`. A giant matrix is assigned slice
by slice. -/
def torchAssign (dev : TorchDevice) (sqrt : α → α) (vectors codebook : List (Fin d → α)) (chunkSize : ℕ)
    (vectorWeights : Option (Fin d → α)) (computeMse : Bool) : Except PyErr (List ℕ × α) :=
  let centroids := scaleDims sqrt vectorWeights codebook
  if dev.largeAssignRows * 8 < vectors.length * d then
    let rowsPerChunk := max chunkSize ((dev.assignChunkMb <<< 20) / max (4 * d) 1)
    ((chunked rowsPerChunk vectors).mapM fun chunk =>
      let ch := scaleDims sqrt vectorWeights chunk
      (fusedAssign dev ch centroids).map fun cidx => (cidx, if computeMse then assignedSse ch centroids cidx else 0)).map fun parts =>
      ((parts.map Prod.fst).flatten, if computeMse then (parts.map Prod.snd).sum / (vectors.length * d : ℕ) else 0)
  else
    let rows := scaleDims sqrt vectorWeights vectors
    (fusedAssign dev rows centroids).map fun idx =>
      (idx, if computeMse then assignedSse rows centroids idx / (rows.length * d : ℕ) else 0)

/-- `torch.argsort(keys, stable=True)`. -/
def stableOrder (keys : List ℕ) : List ℕ := (List.range keys.length).mergeSort fun i j => cell keys i ≤ cell keys j

/-- One lane of `_seg_sum_kernel`: dimension `lane.2` of segment `lane.1`, in tiles of `blockR` rows. -/
def segSumLane (vals : List α) (order offs : List ℕ) (dReal blockR : ℕ) (lane : ℕ × ℕ) : Except Fault α :=
  (load offs lane.1 true 0).bind fun start => (load offs (lane.1 + 1 : ℕ) true 0).bind fun stop =>
    (List.range (ceilDiv (stop - start) blockR)).foldlM (fun acc t =>
      ((List.range blockR).mapM fun j =>
        let rr := start + (t * blockR + j)
        (load order rr (rr < stop) 0).bind fun idx =>
          load vals (idx * dReal + lane.2 : ℕ) (decide (rr < stop) && decide (lane.2 < dReal)) 0).map fun v => acc + v.sum) 0

/-- `segment_sum(values, order, lengths, k)`; `out` is what `torch.empty` holds. -/
def segmentSum (values : List (Fin d → α)) (order lengths : List ℕ) (k : ℕ) (out : List α) : Except PyErr (List (Fin d → α)) :=
  let offs := tabulate (k + 1) fun j => (lengths.take j).sum
  let D := 2 ^ Nat.clog 2 (max d 1)
  let lanes := (List.range k).flatMap fun seg => (List.range D).map fun e => (seg, e)
  match launch lanes (fun lane => decide (lane.2 < d)) (fun lane => lane.1 * d + lane.2)
      (segSumLane (values.flatMap List.ofFn) order offs d 512) out with
  | .ok sums => .ok (tabulate k fun j e => cell sums (j * d + e))
  | .error _ => .error (.runtimeError "CUDA error: an illegal memory access was encountered")

/-- `_det_segment_sum(keys, values, k)`: the sums and the lengths of the segments. -/
def detSegmentSum (dev : TorchDevice) (keys : List ℕ) (values : List (Fin d → α)) (k : ℕ) : Except PyErr (List (Fin d → α) × List ℕ) :=
  if keys.isEmpty then .ok (List.replicate k 0, List.replicate k 0)
  else
    let order := stableOrder keys
    let lengths := (bincount keys k).map Int.toNat
    if dev.triton && dev.cuda && 1 ≤ d && d ≤ 128 then
      (segmentSum values order lengths k (List.replicate (k * d) 0)).map fun sums => (sums, lengths)
    else .ok ((lengths.splitLengths (order.map (cell values))).map List.sum, lengths)

/-- `rows if sw_t is None else rows * sw_t[:, None]`. -/
def weightedRows (sampleWeights : Option (List α)) (rows : List (Fin d → α)) : List (Fin d → α) :=
  match sampleWeights with
  | none => rows
  | some sw => weightRows sw rows

/-- The weights of the clusters, in the loop of `_learn_codebook_torch`. -/
def torchCounts (dev : TorchDevice) (chosen lengths : List ℕ) (k : ℕ) (sampleWeights : Option (List α)) : Except PyErr (List α) :=
  match sampleWeights with
  | none => .ok (lengths.map fun n : ℕ => (n : α))
  | some sw => (detSegmentSum dev chosen (sw.map fun s (_ : Fin 1) => s) k).map fun counts => counts.1.map fun c => c 0

/-- One iteration of the loop of `_learn_codebook_torch`. -/
def lloydTorch (dev : TorchDevice) (sqrt : α → α) (rows : List (Fin d → α)) (vectorWeights : Option (Fin d → α))
    (sampleWeights : Option (List α)) (codebook : List (Fin d → α)) : Except PyErr (List (Fin d → α)) :=
  (torchAssign dev sqrt rows codebook 65536 vectorWeights false).bind fun (chosen, _) =>
    (detSegmentSum dev chosen (weightedRows sampleWeights rows) codebook.length).bind fun (sums, lengths) =>
      (torchCounts dev chosen lengths codebook.length sampleWeights).bind fun counts => divideNonzero codebook sums counts

/-- `torch.max(torch.abs(codebook - old_codebook))`. -/
def maxDiff (codebook old : List (Fin d → α)) : α :=
  (List.zipWith (fun x y : Fin d → α => (List.ofFn fun e => |x e - y e|).foldr max 0) codebook old).foldr max 0

/-- The loop of `_learn_codebook_torch`, with `n` iterations to go after `i`: it stops early once no centroid has moved by `1e-5`. -/
def torchLoop (step : List (Fin d → α) → Except PyErr (List (Fin d → α))) : ℕ → ℕ → List (Fin d → α) → Except PyErr (List (Fin d → α))
  | 0, _, codebook => .ok codebook
  | n + 1, i, codebook => (step codebook).bind fun next =>
      if 0 < i ∧ maxDiff next codebook < 1 / 10 ^ 5 then .ok next else torchLoop step n (i + 1) next

/-- `_learn_codebook_torch(vectors, codebook_size, iterations, device, vector_weights, seed, initial_codebook, sample_weights)`. `faiss`
is there if it is switched on; it trains `k` centroids, or gives `none` where it fails. -/
def learnCodebookTorch (dev : TorchDevice)
    (faiss : Option (List (Fin d → α) → (k : ℕ) → ℕ → Option { c : List (Fin d → α) // c.length = k }))
    (sqrt : α → α) (init : List (Fin d → α) → ℕ → List (Fin d → α))
    (rows : List (Fin d → α)) (codebookSize iterations : ℤ) (initialCodebook : Option (List (Fin d → α)))
    (vectorWeights : Option (Fin d → α)) (sampleWeights : Option (List α)) : Except PyErr (List (Fin d → α) × List ℕ × α) :=
  if rows.isEmpty then .error (.valueError "at least one vector is required")
  else if codebookSize ≤ 0 then .error (.valueError "codebook_size must be positive")
  else if iterations ≤ 0 then .error (.valueError "iterations must be positive")
  else
    let k := cappedSize codebookSize rows.length
    let iters := effectiveIters k rows.length iterations
    let found := if dev.cuda && 1 < k && vectorWeights.isNone && sampleWeights.isNone && initialCodebook.isNone then
        faiss.bind fun train => train rows k iters
      else none
    let learned : Except PyErr (List (Fin d → α)) := match found with
      | some codebook => .ok codebook.val
      | none =>
        if sampleWeights.any fun sw => sw.length ≠ rows.length then .error (.valueError "sample_weights length must match rows")
        else torchLoop (lloydTorch dev sqrt rows vectorWeights sampleWeights) iters 0 (startCodebook init rows k initialCodebook)
    learned.bind fun codebook =>
      (torchAssign dev sqrt rows codebook 65536 vectorWeights true).map fun (indices, mse) => (codebook, indices, mse)

/-! ## The dispatch -/

/-- The backend, and what the learner of a codebook takes from outside. -/
structure Learner (α : Type) where
  backend : Backend
  device : TorchDevice
  sqrt : α → α
  init : (d : ℕ) → List (Fin d → α) → ℕ → List (Fin d → α)
  faiss : (d : ℕ) → Option (List (Fin d → α) → (k : ℕ) → ℕ → Option { c : List (Fin d → α) // c.length = k })

/-- `learn_codebook_auto(vectors, codebook_size, iterations, backend, device, vector_weights, seed, initial_codebook,
sample_weights)`. -/
def learnCodebookAuto (learner : Learner α) (vectors : List (Fin d → α)) (codebookSize iterations : ℤ)
    (initialCodebook : Option (List (Fin d → α))) (vectorWeights : Option (Fin d → α)) (sampleWeights : Option (List α)) :
    Except PyErr (List (Fin d → α) × List ℕ × α) :=
  match learner.backend with
  | .torch => learnCodebookTorch learner.device (learner.faiss d) learner.sqrt (learner.init d) vectors codebookSize iterations
      initialCodebook vectorWeights sampleWeights
  | .numpy => learnCodebookNumpy learner.sqrt (learner.init d) vectors codebookSize iterations initialCodebook vectorWeights sampleWeights

/-- `quantize_vectors_auto(vectors, codebook, backend, device, vector_weights, compute_mse)`. -/
def quantizeVectorsAuto (learner : Learner α) (vectors codebook : List (Fin d → α)) (vectorWeights : Option (Fin d → α))
    (computeMse : Bool) : Except PyErr (List ℕ × α) :=
  match learner.backend with
  | .torch => torchAssign learner.device learner.sqrt vectors codebook 65536 vectorWeights computeMse
  | .numpy => numpyAssign learner.sqrt vectors codebook 65536 none vectorWeights computeMse

/-- One Lloyd iteration of the backend, for a codebook capped at `k` rows. -/
def lloydIteration (learner : Learner α) (rows : List (Fin d → α)) (k : ℕ) (vectorWeights : Option (Fin d → α))
    (sampleWeights : Option (List α)) (codebook : List (Fin d → α)) : Except PyErr (List (Fin d → α)) :=
  match learner.backend with
  | .torch => lloydTorch learner.device learner.sqrt rows vectorWeights sampleWeights codebook
  | .numpy => lloydNumpy learner.sqrt rows k vectorWeights sampleWeights codebook

end Kmeans

end Orka
