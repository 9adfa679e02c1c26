import Orka.Kmeans
import Orka.Lemmas.StableSort
import Orka.Lib.Clustering

/-!
# What assignment and update compute

The assignments of both backends give each row a nearest centroid, and the cluster sums of both are the sums over the rows of a
cluster, however they are taken: by `bincount`, by a sorted segment reduction, or by the kernel in tiles.
-/

namespace Orka

open Flat Steps Menu Tile Clustering

set_option linter.unusedSectionVars false

variable {α : Type} [Field α] [LinearOrder α] [IsStrictOrderedRing α] {d : ℕ}

/-! ## What is measured -/

/-- The weights of the dimensions, 1 each where none are given. -/
def dimWeights (vectorWeights : Option (Fin d → α)) : Fin d → α := vectorWeights.getD fun _ => 1

/-- The weight of a row, 1 where none are given. -/
def rowWeight (sampleWeights : Option (List α)) (i : ℕ) : α :=
  match sampleWeights with
  | none => 1
  | some sw => cell sw i

/-- The weighted squared distance of two rows. -/
def rowDist (vectorWeights : Option (Fin d → α)) (x c : Fin d → α) : α := sqDist Finset.univ (dimWeights vectorWeights) x c

/-- The objective: the weighted error of an assignment of rows to the rows of a codebook. -/
def objective (rows : List (Fin d → α)) (vectorWeights : Option (Fin d → α)) (sampleWeights : Option (List α))
    (codebook : List (Fin d → α)) (a : List ℕ) : α :=
  cost (Finset.range rows.length) Finset.univ (rowWeight sampleWeights) (dimWeights vectorWeights) (cell rows) (cell codebook) (cell a)

/-- An index of the codebook for each row. -/
def Assigns (rows codebook : List (Fin d → α)) (a : List ℕ) : Prop :=
  a.length = rows.length ∧ ∀ i < rows.length, cell a i < codebook.length

/-- A centroid of least weighted distance for each row. -/
def AssignsNearest (vectorWeights : Option (Fin d → α)) (rows codebook : List (Fin d → α)) (a : List ℕ) : Prop :=
  Assigns rows codebook a ∧ ∀ i < rows.length, ∀ j < codebook.length,
    rowDist vectorWeights (cell rows i) (cell codebook (cell a i)) ≤ rowDist vectorWeights (cell rows i) (cell codebook j)

/-! ## Assignment -/

/-- A row as the assignment scales it. -/
def scaled (sqrt : α → α) (vectorWeights : Option (Fin d → α)) (x : Fin d → α) : Fin d → α :=
  match vectorWeights with
  | none => x
  | some w => fun e => x e * sqrt (w e)

variable {sqrt : α → α} {vectorWeights : Option (Fin d → α)}

/-- Scaling the dimensions scales every row. -/
theorem scaleDims_eq (rows : List (Fin d → α)) : scaleDims sqrt vectorWeights rows = rows.map (scaled sqrt vectorWeights) := by
  cases vectorWeights with
  | none => exact (List.map_id rows).symm
  | some w => rfl

/-- A row of the scaled list is the scaled row. -/
theorem cell_scaleDims (rows : List (Fin d → α)) (i : ℕ) :
    cell (scaleDims sqrt vectorWeights rows) i = scaled sqrt vectorWeights (cell rows i) := by
  rw [scaleDims_eq]
  refine cell_map_zero ?_ rows i
  cases vectorWeights with
  | none => rfl
  | some w => exact funext fun e => zero_mul _

/-- The weighted distance is the plain one of the scaled rows, in the form the assignment computes. -/
theorem rowDist_eq (hsqrt : ∀ w ∈ vectorWeights, ∀ e, sqrt (w e) * sqrt (w e) = w e) (x c : Fin d → α) :
    rowDist vectorWeights x c = rowDot (scaled sqrt vectorWeights x) (scaled sqrt vectorWeights x) +
      rowDot (scaled sqrt vectorWeights c) (scaled sqrt vectorWeights c) -
        2 * rowDot (scaled sqrt vectorWeights x) (scaled sqrt vectorWeights c) := by
  unfold rowDist sqDist rowDot
  rw [Finset.mul_sum, ← Finset.sum_add_distrib, ← Finset.sum_sub_distrib]
  refine Finset.sum_congr rfl fun e _ => ?_
  cases vectorWeights with
  | none =>
    simp only [dimWeights, scaled, Option.getD_none]
    ring
  | some w =>
    simp only [dimWeights, scaled, Option.getD_some]
    linear_combination (-(x e - c e) ^ 2) * hsqrt w rfl e

/-- The slices of a loop, put together. -/
theorem flatten_chunked {β : Type} {c : ℕ} (hc : 0 < c) (xs : List β) : (chunked c xs).flatten = xs := by
  have hprefix : ∀ n, ((List.range n).map fun p => (xs.drop (p * c)).take c).flatten = xs.take (n * c) := by
    intro n
    induction n with
    | zero => simp
    | succ n ih =>
      rw [List.range_succ, List.map_append, List.flatten_append, ih, Nat.succ_mul, List.take_add]
      simp
  rw [chunked, hprefix, List.take_of_length_le (le_ceilDiv_mul hc)]

/-- An index that is least by a key that orders like the distance is nearest. -/
theorem assignsNearest_of_key {rows codebook : List (Fin d → α)} {a : List ℕ} (hlength : a.length = rows.length)
    (hcodebook : rows ≠ [] → 0 < codebook.length) (key : ℕ → ℕ → α) (base : ℕ → α)
    (hkey : ∀ i < rows.length, ∀ j, key i j = rowDist vectorWeights (cell rows i) (cell codebook j) + base i)
    (ha : ∀ i < rows.length, cell a i = argmin codebook.length (key i)) : AssignsNearest vectorWeights rows codebook a := by
  have hpos : ∀ i < rows.length, 0 < codebook.length := fun i hi => hcodebook (List.length_pos_iff.1 (by omega))
  refine ⟨⟨hlength, fun i hi => ?_⟩, fun i hi j hj => ?_⟩
  · rw [ha i hi]
    exact argmin_lt (hpos i hi) _
  · have := argmin_le hj (key i)
    rw [hkey i hi, hkey i hi, ← ha i hi] at this
    linarith

/-- The indices of `_numpy_assign`. -/
theorem numpyAssign_nearest (hsqrt : ∀ w ∈ vectorWeights, ∀ e, sqrt (w e) * sqrt (w e) = w e) {rows codebook : List (Fin d → α)}
    {chunkSize : ℕ} {rNormSq : Option (List α)} {computeMse : Bool} {indices : List ℕ} {mse : α}
    (h : numpyAssign sqrt rows codebook chunkSize rNormSq vectorWeights computeMse = .ok (indices, mse)) :
    AssignsNearest vectorWeights rows codebook indices := by
  unfold numpyAssign at h
  simp only at h
  generalize hnorms : (if vectorWeights.isSome = true then
      some ((scaleDims sqrt vectorWeights rows).map fun x => rowDot x x) else rNormSq).getD
        ((scaleDims sqrt vectorWeights rows).map fun x => rowDot x x) = norms at h
  have hcount : (scaleDims sqrt vectorWeights rows).length = rows.length := by rw [scaleDims_eq, List.length_map]
  have hsize : (scaleDims sqrt vectorWeights codebook).length = codebook.length := by rw [scaleDims_eq, List.length_map]
  rw [hcount, hsize] at h
  generalize hcentroids : scaleDims sqrt vectorWeights codebook = centroids at h hsize
  split at h
  · cases h
  next hlength =>
  split at h
  · cases h
  next hempty =>
  rw [not_not] at hlength
  have hpairs : ((scaleDims sqrt vectorWeights rows).zip norms).length = rows.length := by
    rw [List.length_zip, hcount, hlength, min_self]
  have hindices : indices = ((scaleDims sqrt vectorWeights rows).zip norms).map fun row =>
      argmin codebook.length (distEntry centroids row) := by
    have hflat (c : ℕ) (hc : 0 < c) : (((chunked c ((scaleDims sqrt vectorWeights rows).zip norms)).map fun chunk =>
        chunk.map fun row => (argmin codebook.length (distEntry centroids row),
          distEntry centroids row (argmin codebook.length (distEntry centroids row)))).flatten.map Prod.fst) =
        ((scaleDims sqrt vectorWeights rows).zip norms).map fun row => argmin codebook.length (distEntry centroids row) := by
      rw [← List.map_flatten, flatten_chunked hc, List.map_map]
      rfl
    rw [← hflat _ (lt_of_lt_of_le (by decide) (le_max_left 64 (min chunkSize ((1 <<< 26) / max codebook.length 1))))]
    split at h
    · exact (congrArg Prod.fst (Except.ok.inj h)).symm
    · split at h
      · cases h
      · exact (congrArg Prod.fst (Except.ok.inj h)).symm
  have hrow : ∀ i < rows.length, cell ((scaleDims sqrt vectorWeights rows).zip norms) i =
      (scaled sqrt vectorWeights (cell rows i), cell norms i) := by
    intro i hi
    rw [List.zip_eq_zipWith, cell_zipWith (by rwa [hcount]) (by rwa [hlength]), cell_scaleDims]
  refine assignsNearest_of_key (by rw [hindices, List.length_map, hpairs]) (fun hrows => ?_)
    (fun i => distEntry centroids (cell ((scaleDims sqrt vectorWeights rows).zip norms) i))
    (fun i => cell norms i - rowDot (scaled sqrt vectorWeights (cell rows i)) (scaled sqrt vectorWeights (cell rows i)))
    (fun i hi j => ?_) fun i hi => ?_
  · refine List.length_pos_iff.2 fun hnil => hempty ?_
    have hcentroids : centroids = [] := List.length_eq_zero_iff.1 (by rw [hsize, hnil, List.length_nil])
    have : scaleDims sqrt vectorWeights rows ≠ [] := fun h0 => hrows (List.length_eq_zero_iff.1 (by rw [← hcount, h0, List.length_nil]))
    simp [this, hcentroids]
  · rw [hrow i hi, rowDist_eq hsqrt, distEntry, ← hcentroids, cell_scaleDims]
    ring
  · rw [hindices, cell_map (by rwa [hpairs])]

/-- The tiles of the kernel find the first least key. -/
theorem argminKernel_eq {blockK n : ℕ} (hblock : 0 < blockK) (hn : 0 < n) (key : ℕ → α) : argminKernel blockK n key = argmin n key := by
  -- after `t` tiles the state is the minimum over the centroids so far
  have hstate : ∀ t ≤ ceilDiv n blockK, (List.range t).foldl (fun (best : Option α × ℕ) p =>
      let tileArg := argmin (min blockK (n - p * blockK)) fun j => key (p * blockK + j)
      let tileMin := key (p * blockK + tileArg)
      if best.1.all fun b => tileMin < b then (some tileMin, p * blockK + tileArg) else best) (none, 0) =
      if t = 0 then (none, 0) else (some (key (argmin (min (t * blockK) n) key)), argmin (min (t * blockK) n) key) := by
    intro t
    induction t with
    | zero => exact fun _ => rfl
    | succ t ih =>
      intro ht
      have hlive : t * blockK < n := mul_lt_of_lt_ceilDiv hblock (by omega)
      have hcount : min ((t + 1) * blockK) n = t * blockK + min blockK (n - t * blockK) := by
        rw [Nat.succ_mul]
        omega
      rw [List.range_succ, List.foldl_append, ih (by omega), if_neg (Nat.succ_ne_zero t), hcount]
      simp only [List.foldl_cons, List.foldl_nil]
      rcases Nat.eq_zero_or_pos t with rfl | hpos
      · simp
      · have hdone : min (t * blockK) n = t * blockK := min_eq_left hlive.le
        rw [if_neg hpos.ne', hdone, argmin_add (by omega)]
        simp only [Option.all_some, decide_eq_true_eq]
        split <;> rfl
  have htiles : 0 < ceilDiv n blockK := Nat.pos_of_ne_zero fun h0 => by
    have := le_ceilDiv_mul (n := n) hblock
    rw [h0] at this
    omega
  unfold argminKernel
  rw [hstate _ le_rfl, if_neg htiles.ne', min_eq_right (le_ceilDiv_mul hblock)]

/-- The indices of the fused assignment are the first least keys, whether the kernel runs or not. -/
theorem fusedAssign_ok (dev : TorchDevice) (vectors : List (Fin d → α)) {cb : List (Fin d → α)} (hcb : cb ≠ []) :
    fusedAssign dev vectors cb =
      .ok (vectors.map fun v => argmin cb.length fun j => rowDot (cell cb j) (cell cb j) - 2 * rowDot v (cell cb j)) := by
  have hpos : 0 < cb.length := List.length_pos_iff.2 hcb
  unfold fusedAssign
  rw [if_neg (by simpa using hcb)]
  simp only
  split
  · exact congrArg Except.ok (List.map_congr_left fun v _ => argminKernel_eq (by decide) hpos _)
  · rfl

/-- The first least keys of the scaled rows are nearest. -/
theorem assignsNearest_fused (hsqrt : ∀ w ∈ vectorWeights, ∀ e, sqrt (w e) * sqrt (w e) = w e) {rows codebook : List (Fin d → α)}
    (hcodebook : scaleDims sqrt vectorWeights codebook ≠ []) :
    AssignsNearest vectorWeights rows codebook ((scaleDims sqrt vectorWeights rows).map fun v => argmin codebook.length
      fun j => rowDot (cell (scaleDims sqrt vectorWeights codebook) j) (cell (scaleDims sqrt vectorWeights codebook) j) -
        2 * rowDot v (cell (scaleDims sqrt vectorWeights codebook) j)) := by
  have hsize : (scaleDims sqrt vectorWeights codebook).length = codebook.length := by rw [scaleDims_eq, List.length_map]
  refine assignsNearest_of_key (by rw [List.length_map, scaleDims_eq, List.length_map])
    (fun _ => by rw [← hsize]; exact List.length_pos_iff.2 hcodebook)
    (fun i j => rowDot (cell (scaleDims sqrt vectorWeights codebook) j) (cell (scaleDims sqrt vectorWeights codebook) j) -
      2 * rowDot (cell (scaleDims sqrt vectorWeights rows) i) (cell (scaleDims sqrt vectorWeights codebook) j))
    (fun i => -rowDot (scaled sqrt vectorWeights (cell rows i)) (scaled sqrt vectorWeights (cell rows i)))
    (fun i hi j => ?_) fun i hi => ?_
  · rw [rowDist_eq hsqrt, cell_scaleDims, cell_scaleDims]
    ring
  · rw [cell_map (by rwa [scaleDims_eq, List.length_map])]

/-- The indices of `_torch_assign`. -/
theorem torchAssign_nearest (hsqrt : ∀ w ∈ vectorWeights, ∀ e, sqrt (w e) * sqrt (w e) = w e) {dev : TorchDevice}
    {rows codebook : List (Fin d → α)} {chunkSize : ℕ} (hchunk : 0 < chunkSize) {computeMse : Bool} {indices : List ℕ} {mse : α}
    (h : torchAssign dev sqrt rows codebook chunkSize vectorWeights computeMse = .ok (indices, mse)) :
    AssignsNearest vectorWeights rows codebook indices := by
  have hsize : (scaleDims sqrt vectorWeights codebook).length = codebook.length := by rw [scaleDims_eq, List.length_map]
  have hcodebook : scaleDims sqrt vectorWeights codebook ≠ [] := by
    intro hnil
    have hfault : ∀ vectors : List (Fin d → α), fusedAssign dev vectors [] = .error .indexError := fun _ => rfl
    unfold torchAssign at h
    simp only [hnil, hfault] at h
    split at h
    · next hgiant =>
      -- there is a first slice, and it raises
      have hrows : 0 < rows.length := Nat.pos_of_mul_pos_right (lt_of_le_of_lt (Nat.zero_le _) hgiant)
      have hslice : rows.take (max chunkSize ((dev.assignChunkMb <<< 20) / max (4 * d) 1)) ∈
          chunked (max chunkSize ((dev.assignChunkMb <<< 20) / max (4 * d) 1)) rows :=
        List.mem_map.2 ⟨0, List.mem_range.2 (Nat.div_pos (by omega) (by omega)), by simp⟩
      obtain ⟨parts, hparts, -⟩ := map_eq_ok.1 h
      exact mapM_fault hslice (fun v hv => by simp at hv) parts hparts
    · cases h
  have hindices : indices = (scaleDims sqrt vectorWeights rows).map fun v => argmin codebook.length
      fun j => rowDot (cell (scaleDims sqrt vectorWeights codebook) j) (cell (scaleDims sqrt vectorWeights codebook) j) -
        2 * rowDot v (cell (scaleDims sqrt vectorWeights codebook) j) := by
    unfold torchAssign at h
    simp only [fusedAssign_ok dev _ hcodebook, ok_map, hsize] at h
    split at h
    · rw [mapM_ok fun _ _ => rfl] at h
      have h := congrArg Prod.fst (Except.ok.inj h)
      have hflat (f : (Fin d → α) → ℕ) (c : ℕ) (hc : 0 < c) :
          ((chunked c rows).map fun chunk => (scaleDims sqrt vectorWeights chunk).map f).flatten =
            (scaleDims sqrt vectorWeights rows).map f := by
        simp only [scaleDims_eq, List.map_map]
        rw [← List.map_flatten, flatten_chunked hc]
      simp only [List.map_map] at h
      exact h.symm.trans (hflat _ _ (by omega))
    · exact (congrArg Prod.fst (Except.ok.inj h)).symm
  rw [hindices]
  exact assignsNearest_fused hsqrt hcodebook

/-! ## Cluster sums -/

/-- The sum of the values at one key. -/
def clusterSum {β : Type} [AddCommMonoid β] (keys : List ℕ) (values : List β) (j : ℕ) : β :=
  ∑ i ∈ (Finset.range keys.length).filter fun i => cell keys i = j, cell values i

theorem sum_filter_range {β : Type} [AddCommMonoid β] (n : ℕ) (p : ℕ → Prop) [DecidablePred p] (f : ℕ → β) :
    (((List.range n).filter fun i => p i).map f).sum = ∑ i ∈ (Finset.range n).filter p, f i := rfl

/-- Two lists of one length pair by index. -/
theorem zip_eq_map_range {β γ : Type} [Zero β] [Zero γ] {xs : List β} {ys : List γ} (h : xs.length = ys.length) :
    xs.zip ys = (List.range xs.length).map fun i => (cell xs i, cell ys i) := by
  rw [← List.zip_map', show (List.range xs.length).map (cell xs) = xs from tabulate_cell xs, h,
    show (List.range ys.length).map (cell ys) = ys from tabulate_cell ys]

/-- `np.bincount` with weights. -/
theorem cell_bincountWeights {keys : List ℕ} {ws : List α} (h : keys.length = ws.length) {n j : ℕ} (hj : j < n) :
    cell (bincountWeights keys ws n) j = clusterSum keys ws j := by
  unfold bincountWeights
  rw [cell_tabulate _ (lt_of_lt_of_le hj (le_max_left _ _)), zip_eq_map_range h, List.filter_map, List.map_map]
  exact sum_filter_range _ _ _

/-- `np.bincount` without weights. -/
theorem cell_bincount {keys : List ℕ} {n j : ℕ} (hj : j < n) : cell (bincount keys n) j = keys.count j := by
  unfold bincount
  exact cell_tabulate _ (lt_of_lt_of_le hj (le_max_left _ _))

/-- Keys below `n` make no more than `n` clusters. -/
theorem foldr_succ_max_le {keys : List ℕ} {n : ℕ} (h : ∀ i ∈ keys, i < n) : keys.foldr (fun s m => max (s + 1) m) 0 ≤ n := by
  induction keys with
  | nil => exact Nat.zero_le _
  | cons i keys ih =>
    rw [List.foldr_cons, max_le_iff]
    exact ⟨h i (by simp), ih fun j hj => h j (List.mem_cons_of_mem _ hj)⟩

/-- The rows at one key, in order. -/
def runOf (keys : List ℕ) (j : ℕ) : List ℕ := (List.range keys.length).filter fun i => cell keys i = j

theorem length_runOf (keys : List ℕ) (j : ℕ) : (runOf keys j).length = keys.count j := by
  conv_rhs => rw [← show (List.range keys.length).map (cell keys) = keys from tabulate_cell keys]
  rw [List.count, List.countP_map, List.countP_eq_length_filter, runOf]
  rfl

theorem mem_runOf {keys : List ℕ} {j i : ℕ} (h : i ∈ runOf keys j) : i < keys.length :=
  List.mem_range.1 (List.mem_filter.1 h).1

/-- The sorted rows are the runs of the keys. -/
theorem stableOrder_eq {keys : List ℕ} {k : ℕ} (h : ∀ i ∈ keys, i < k) : stableOrder keys = ((List.range k).map (runOf keys)).flatten := by
  obtain ⟨hsorted, hstable⟩ := stablySorted_mergeSort (cell keys) (List.range keys.length)
  have hall : ∀ i ∈ stableOrder keys, cell keys i < k := by
    intro i hi
    exact h _ (cell_mem (List.mem_range.1 (List.mem_mergeSort.1 hi)))
  calc stableOrder keys = (stableOrder keys).filter fun i => cell keys i < k := by
        rw [List.filter_eq_self.2 fun i hi => decide_eq_true (hall i hi)]
    _ = (List.range k).flatMap fun j => (stableOrder keys).filter fun i => cell keys i = j := (flatMap_runs hsorted k).symm
    _ = ((List.range k).map (runOf keys)).flatten := by
        rw [List.flatMap_def]
        exact congrArg List.flatten (List.map_congr_left fun j _ => hstable j)

/-- The lengths of the runs, as `bincount` gives them. -/
theorem bincount_lengths {keys : List ℕ} {k : ℕ} (h : ∀ i ∈ keys, i < k) :
    (bincount keys k).map Int.toNat = ((List.range k).map (runOf keys)).map List.length := by
  rw [bincount, max_eq_left (foldr_succ_max_le h), tabulate, List.map_map, List.map_map]
  exact List.map_congr_left fun j _ => by simp only [Function.comp_apply, length_runOf, Int.toNat_natCast]

/-! ## The kernel -/

/-- The rows before a run, and the run behind them. -/
theorem drop_runs {β : Type} (L : List (List β)) (j : ℕ) : L.flatten.drop ((L.map List.length).take j).sum = (L.drop j).flatten := by
  induction L generalizing j with
  | nil => simp
  | cons l L ih =>
    cases j with
    | zero => simp
    | succ j =>
      rw [List.map_cons, List.take_succ_cons, List.sum_cons, List.flatten_cons, List.drop_succ_cons, ← ih j, ← List.drop_drop,
        List.drop_left]

variable {keys : List ℕ} {values : List (Fin d → α)} {k : ℕ}

theorem length_flat : (values.flatMap List.ofFn).length = values.length * d := by
  rw [List.flatMap_def, length_flatten_of_width (c := d) (by simp), List.length_map]

/-- A value of the flat copy of a matrix. -/
theorem cell_flat {i : ℕ} (hi : i < values.length) (e : Fin d) : cell (values.flatMap List.ofFn) (i * d + e) = cell values i e := by
  have hd : 0 < d := Fin.pos e
  have hquot : (i * d + e) / d = i := by rw [Nat.mul_comm, Nat.mul_add_div hd, Nat.div_eq_of_lt e.isLt, Nat.add_zero]
  have hrem : (i * d + e) % d = e := by rw [Nat.mul_comm, Nat.mul_add_mod, Nat.mod_eq_of_lt e.isLt]
  rw [List.flatMap_def, cell_flatten hd (by simp), hquot, hrem, List.getD_eq_getElem _ _ (by rwa [List.length_map]), List.getElem_map,
    cell_eq_getElem (by rw [List.length_ofFn]; exact e.isLt), List.getElem_ofFn, cell_eq_getElem hi]

/-- Where the run of a key starts. -/
def runStart (keys : List ℕ) (k j : ℕ) : ℕ := ((((List.range k).map (runOf keys)).map List.length).take j).sum

/-- The next run starts where this one ends. -/
theorem runStart_succ {j : ℕ} (hj : j < k) : runStart keys k (j + 1) = runStart keys k j + (runOf keys j).length := by
  unfold runStart
  rw [List.take_add_one, List.sum_append, List.map_map, List.getElem?_map, List.getElem?_range hj]
  simp

/-- The sorted rows from the start of a run on. -/
theorem cell_stableOrder (h : ∀ i ∈ keys, i < k) {j q : ℕ} (hj : j < k) (hq : q < (runOf keys j).length) :
    cell (stableOrder keys) (runStart keys k j + q) = cell (runOf keys j) q := by
  rw [← cell_drop, stableOrder_eq h, runStart, drop_runs, List.drop_eq_getElem_cons (by simpa using hj), List.flatten_cons,
    List.getElem_map, List.getElem_range, cell_append_left hq]

/-- A run lies inside the stable order. -/
theorem runStart_add_lt (h : ∀ i ∈ keys, i < k) {j q : ℕ} (hj : j < k) (hq : q < (runOf keys j).length) :
    runStart keys k j + q < (stableOrder keys).length := by
  have := congrArg List.length (drop_runs ((List.range k).map (runOf keys)) j)
  rw [← stableOrder_eq h, List.length_drop, List.drop_eq_getElem_cons (by simpa using hj), List.flatten_cons, List.length_append,
    List.getElem_map, List.getElem_range] at this
  unfold runStart
  omega

/-- What a lane of the kernel sums up. -/
def laneSum (keys : List ℕ) (flat : List α) (d : ℕ) (lane : ℕ × ℕ) : α :=
  if lane.2 < d then ((runOf keys lane.1).map fun i => cell flat (i * d + lane.2)).sum else 0

/-- **A lane of the kernel** stays inside its buffers and sums its run up, tile by tile. -/
theorem segSumLane_ok (h : ∀ i ∈ keys, i < k) (hvalues : values.length = keys.length) {offs : List ℕ}
    (hoffs : offs = tabulate (k + 1) (runStart keys k)) {blockR : ℕ} (hblock : 0 < blockR) {lane : ℕ × ℕ} (hlane : lane.1 < k) :
    segSumLane (values.flatMap List.ofFn) (stableOrder keys) offs d blockR lane =
      .ok (laneSum keys (values.flatMap List.ofFn) d lane) := by
  obtain ⟨j, e⟩ := lane
  have hj : j < k := hlane
  have hlength : offs.length = k + 1 := by rw [hoffs, length_tabulate]
  have hstart : cell offs j = runStart keys k j := by rw [hoffs, cell_tabulate _ (by omega)]
  have hstop : cell offs (j + 1) = runStart keys k j + (runOf keys j).length := by
    rw [hoffs, cell_tabulate _ (by omega), runStart_succ hj]
  unfold segSumLane
  simp only
  rw [load_ok (by omega), ok_bind, load_ok (by omega), ok_bind, hstart, hstop, Nat.add_sub_cancel_left]
  generalize hterm : (fun q => if e < d then cell (values.flatMap List.ofFn) (cell (stableOrder keys) (runStart keys k j + q) * d + e)
    else 0) = term
  have hload : ∀ q, ((load (stableOrder keys) (runStart keys k j + q : ℕ)
      (decide (runStart keys k j + q < runStart keys k j + (runOf keys j).length)) 0).bind fun idx =>
        load (values.flatMap List.ofFn) (idx * d + e : ℕ)
          (decide (runStart keys k j + q < runStart keys k j + (runOf keys j).length) && decide (e < d)) 0) =
      .ok (if q < (runOf keys j).length then term q else 0) := by
    intro q
    by_cases hq : q < (runOf keys j).length
    · have hin := runStart_add_lt h hj hq
      have hrow : cell (stableOrder keys) (runStart keys k j + q) < values.length := by
        rw [cell_stableOrder h hj hq, hvalues]
        exact mem_runOf (cell_mem hq)
      rw [decide_eq_true (by omega), load_ok hin, ok_bind, Bool.true_and, if_pos hq, load_of_mask, ← hterm]
      · simp only [decide_eq_true_eq]
      · intro he
        rw [length_flat]
        have := Nat.mul_le_mul_right d (Nat.succ_le_of_lt hrow)
        rw [Nat.succ_mul] at this
        have := of_decide_eq_true he
        omega
    · rw [decide_eq_false (by omega), Bool.false_and, if_neg hq]
      rfl
  rw [foldlM_add (g := fun t => ((List.range blockR).map fun r =>
    if t * blockR + r < (runOf keys j).length then term (t * blockR + r) else 0).sum), zero_add, sum_tiles_masked term hblock]
  · rw [laneSum, ← hterm]
    by_cases he : e < d
    · simp only [if_pos he]
      have hrun : (List.range (runOf keys j).length).map (cell (runOf keys j)) = runOf keys j := tabulate_cell _
      conv_rhs => rw [← hrun, List.map_map]
      refine congrArg (fun l => Except.ok (List.sum l)) (List.map_congr_left fun q hq => ?_)
      rw [cell_stableOrder h hj (List.mem_range.1 hq), Function.comp_apply]
    · simp only [if_neg he, List.map_const', List.sum_replicate, smul_zero]
  · intro t _ acc
    rw [mapM_ok fun r _ => hload (t * blockR + r), ok_map]

/-- The launch leaves the sums of the clusters, whatever was in the buffer. -/
theorem segmentSum_ok (h : ∀ i ∈ keys, i < k) (hvalues : values.length = keys.length) {out : List α} (hout : out.length = k * d) :
    segmentSum values (stableOrder keys) (((List.range k).map (runOf keys)).map List.length) k out =
      .ok (tabulate k fun j => clusterSum keys values j) := by
  unfold segmentSum
  simp only
  rw [launch_ok (f := laneSum keys (values.flatMap List.ofFn) d)
    (g := fun p => laneSum keys (values.flatMap List.ofFn) d (p / d, p % d))]
  · refine congrArg Except.ok (tabulate_congr fun j hj => funext fun e => ?_)
    have hd : 0 < d := Fin.pos e
    have hp : j * d + e < k * d := by
      have := Nat.mul_le_mul_right d (Nat.succ_le_of_lt hj)
      rw [Nat.succ_mul] at this
      omega
    rw [hout, cell_tabulate _ hp, Nat.mul_comm j d, Nat.mul_add_div hd, Nat.div_eq_of_lt e.isLt, Nat.mul_add_mod,
      Nat.mod_eq_of_lt e.isLt, Nat.add_zero, laneSum, if_pos e.isLt, clusterSum, Finset.sum_apply]
    have hflat : ∀ i ∈ runOf keys j, cell (values.flatMap List.ofFn) (i * d + e) = cell values i e :=
      fun i hi => cell_flat (by rw [hvalues]; exact mem_runOf hi) e
    rw [List.map_congr_left hflat]
    rfl
  · intro lane hlane
    obtain ⟨j, hj, hlane⟩ := List.mem_flatMap.1 hlane
    obtain ⟨e, -, rfl⟩ := List.mem_map.1 hlane
    exact segSumLane_ok h hvalues rfl (by decide) (List.mem_range.1 hj)
  · rintro ⟨j, e⟩ _ hlive
    have he : e < d := of_decide_eq_true hlive
    have hd : 0 < d := by omega
    simp only
    rw [Nat.mul_comm j d, Nat.mul_add_div hd, Nat.div_eq_of_lt he, Nat.mul_add_mod, Nat.mod_eq_of_lt he, Nat.add_zero]
  · intro p hp
    rw [hout] at hp
    have hd : 0 < d := Nat.pos_of_mul_pos_left (lt_of_le_of_lt (Nat.zero_le _) hp)
    refine ⟨(p / d, p % d), ?_, ?_, ?_⟩
    · refine List.mem_flatMap.2 ⟨p / d, List.mem_range.2 ((Nat.div_lt_iff_lt_mul hd).2 hp), List.mem_map.2 ⟨p % d, ?_, rfl⟩⟩
      exact List.mem_range.2 ((Nat.mod_lt _ hd).trans_le ((le_max_left d 1).trans (Nat.le_pow_clog (by decide) _)))
    · exact decide_eq_true (Nat.mod_lt _ hd)
    · exact Nat.div_add_mod' p d

/-- **The segment sums** are the sums of the clusters, with the kernel and without it. -/
theorem detSegmentSum_ok (dev : TorchDevice) (h : ∀ i ∈ keys, i < k) (hvalues : values.length = keys.length) :
    detSegmentSum dev keys values k = .ok (tabulate k (clusterSum keys values), tabulate k fun j => keys.count j) := by
  have hlengths : ((List.range k).map (runOf keys)).map List.length = tabulate k fun j => keys.count j := by
    rw [List.map_map, tabulate]
    exact List.map_congr_left fun j _ => length_runOf keys j
  unfold detSegmentSum
  split
  · next hempty =>
    obtain rfl := List.isEmpty_iff.1 hempty
    have hsum : ∀ j < k, clusterSum [] values j = 0 := fun j _ => rfl
    have hcount : ∀ j < k, ([] : List ℕ).count j = 0 := fun j _ => rfl
    rw [tabulate_congr hsum, tabulate_congr hcount, tabulate, tabulate, List.map_const', List.map_const', List.length_range]
  · simp only
    rw [bincount_lengths h]
    split
    · rw [segmentSum_ok h hvalues (by rw [List.length_replicate]), ok_map, hlengths]
    · rw [stableOrder_eq h, List.map_flatten, ← hlengths]
      have hruns : ((List.range k).map (runOf keys)).map List.length =
          (((List.range k).map (runOf keys)).map (List.map (cell values))).map List.length := by
        rw [List.map_map (f := List.map (cell values))]
        exact List.map_congr_left fun l _ => (List.length_map _).symm
      have hsplit := splitLengths_flatten (((List.range k).map (runOf keys)).map (List.map (cell values)))
      rw [← hruns] at hsplit
      rw [hsplit, List.map_map, List.map_map]
      rfl

/-! ## The update -/

/-- There is a weight for each row, where there are weights. -/
def WeightsFit (sampleWeights : Option (List α)) (rows : List (Fin d → α)) : Prop := ∀ sw ∈ sampleWeights, sw.length = rows.length

variable {rows codebook codebook' : List (Fin d → α)} {sampleWeights : Option (List α)} {indices : List ℕ}

theorem length_weightedRows (hfit : WeightsFit sampleWeights rows) : (weightedRows sampleWeights rows).length = rows.length := by
  cases sampleWeights with
  | none => rfl
  | some sw => rw [weightedRows, weightRows, List.length_zipWith, hfit sw rfl, min_self]

/-- A weighted row is the row times its weight. -/
theorem cell_weightedRows (hfit : WeightsFit sampleWeights rows) {i : ℕ} (hi : i < rows.length) (e : Fin d) :
    cell (weightedRows sampleWeights rows) i e = rowWeight sampleWeights i * cell rows i e := by
  cases sampleWeights with
  | none => exact (one_mul _).symm
  | some sw =>
    rw [weightedRows, weightRows, cell_zipWith (by rwa [hfit sw rfl]) hi]
    exact mul_comm _ _

/-- The sum of a cluster of weighted rows is its moment. -/
theorem clusterSum_weightedRows (hfit : WeightsFit sampleWeights rows) (hindices : indices.length = rows.length) (j : ℕ) (e : Fin d) :
    clusterSum indices (weightedRows sampleWeights rows) j e =
      moment (Finset.range rows.length) (rowWeight sampleWeights) (cell rows) (cell indices) j e := by
  rw [clusterSum, Finset.sum_apply, hindices]
  exact Finset.sum_congr rfl fun i hi => cell_weightedRows hfit (Finset.mem_range.1 (Finset.mem_filter.1 hi).1) e

/-- The sum of the weights at one key is the weight of the cluster. -/
theorem clusterSum_weights {sw : List α} (hindices : indices.length = rows.length) (j : ℕ) :
    clusterSum indices sw j = mass (Finset.range rows.length) (rowWeight (some sw)) (cell indices) j := by
  rw [clusterSum, mass, hindices]
  rfl

/-- How often a key comes is the weight of the cluster, where there are no weights. -/
theorem count_eq_mass (hindices : indices.length = rows.length) (j : ℕ) :
    ((indices.count j : ℕ) : α) = mass (Finset.range rows.length) (rowWeight none) (cell indices) j := by
  rw [← hindices, mass, ← length_runOf]
  simp only [rowWeight, Finset.sum_const, nsmul_eq_mul, mul_one]
  rfl

/-- What one iteration does: the assignment is nearest, moving the centers does not increase the error of it, the clusters of it that
are empty or have no weight keep their centroid, and so no assignment of the old codebook has less error than a nearest one of the new
codebook. -/
structure Descends (vectorWeights : Option (Fin d → α)) (sampleWeights : Option (List α)) (rows codebook codebook' : List (Fin d → α)) :
    Prop where
  length : codebook'.length = codebook.length
  assigned : ∃ a, AssignsNearest vectorWeights rows codebook a ∧
    objective rows vectorWeights sampleWeights codebook' a ≤ objective rows vectorWeights sampleWeights codebook a ∧
      ∀ j < codebook.length, mass (Finset.range rows.length) (rowWeight sampleWeights) (cell a) j = 0 →
        cell codebook' j = cell codebook j
  objective_le : ∀ a a', Assigns rows codebook a → AssignsNearest vectorWeights rows codebook' a' →
    objective rows vectorWeights sampleWeights codebook' a' ≤ objective rows vectorWeights sampleWeights codebook a

/-- The weights are not negative. -/
structure NonnegWeights (vectorWeights : Option (Fin d → α)) (sampleWeights : Option (List α)) : Prop where
  dims : ∀ w ∈ vectorWeights, ∀ e, 0 ≤ w e
  rows : ∀ sw ∈ sampleWeights, ∀ s ∈ sw, 0 ≤ s

/-- No dimension has a negative weight. -/
theorem NonnegWeights.dimWeights (h : NonnegWeights vectorWeights sampleWeights) (e : Fin d) : 0 ≤ dimWeights vectorWeights e := by
  cases vectorWeights with
  | none => exact zero_le_one
  | some w => exact h.dims w rfl e

/-- No row has a negative weight. -/
theorem NonnegWeights.rowWeight (h : NonnegWeights vectorWeights sampleWeights) (i : ℕ) : 0 ≤ rowWeight sampleWeights i := by
  cases sampleWeights with
  | none => exact zero_le_one
  | some sw =>
    by_cases hi : i < sw.length
    · exact h.rows sw rfl _ (cell_mem hi)
    · exact (cell_of_le (by omega)).symm.le

/-- No assignment has less error than a nearest one. -/
theorem objective_le_of_nearest (hw : NonnegWeights vectorWeights sampleWeights) {a a' : List ℕ}
    (h : AssignsNearest vectorWeights rows codebook a) (ha' : Assigns rows codebook a') :
    objective rows vectorWeights sampleWeights codebook a ≤ objective rows vectorWeights sampleWeights codebook a' :=
  cost_le_of_nearest (fun i _ => hw.rowWeight i) fun i hi => h.2 i (Finset.mem_range.1 hi) _ (ha'.2 i (Finset.mem_range.1 hi))

/-- **The update.** Dividing the moments by the weights, where these are positive, descends. -/
theorem descends_of_divideNonzero (hw : NonnegWeights vectorWeights sampleWeights)
    (ha : AssignsNearest vectorWeights rows codebook indices) {sums : List (Fin d → α)} {counts : List α}
    (hsums : ∀ j < codebook.length, ∀ e, cell sums j e =
      moment (Finset.range rows.length) (rowWeight sampleWeights) (cell rows) (cell indices) j e)
    (hcounts : ∀ j < codebook.length, cell counts j = mass (Finset.range rows.length) (rowWeight sampleWeights) (cell indices) j)
    (h : divideNonzero codebook sums counts = .ok codebook') : Descends vectorWeights sampleWeights rows codebook codebook' := by
  unfold divideNonzero at h
  split at h
  · cases h
  obtain rfl := Except.ok.inj h
  generalize hnext : (tabulate codebook.length fun j =>
    if 0 < cell counts j then fun e => cell sums j e / cell counts j else cell codebook j) = next
  have hlength : next.length = codebook.length := by rw [← hnext, length_tabulate]
  have hupdate : objective rows vectorWeights sampleWeights next indices ≤ objective rows vectorWeights sampleWeights codebook indices := by
    refine cost_update_le (fun i _ => hw.rowWeight i) (fun e _ => hw.dimWeights e) fun j hj hpos e _ => ?_
    obtain ⟨i, hi, rfl⟩ := Finset.mem_image.1 hj
    have hj := ha.1.2 i (Finset.mem_range.1 hi)
    rw [← hnext, cell_tabulate _ hj, if_pos (by rwa [hcounts _ hj]), hsums _ hj, hcounts _ hj]
  have hkept : ∀ j < codebook.length, mass (Finset.range rows.length) (rowWeight sampleWeights) (cell indices) j = 0 →
      cell next j = cell codebook j := by
    intro j hj hmass
    rw [← hnext, cell_tabulate _ hj, if_neg (by rw [hcounts j hj, hmass]; exact lt_irrefl 0)]
  refine ⟨hlength, ⟨indices, ha, hupdate, hkept⟩, fun a a' haa ha' => ?_⟩
  calc objective rows vectorWeights sampleWeights next a' ≤ objective rows vectorWeights sampleWeights next indices :=
        objective_le_of_nearest hw ha' ⟨ha.1.1, fun i hi => by rw [hlength]; exact ha.1.2 i hi⟩
    _ ≤ objective rows vectorWeights sampleWeights codebook indices := hupdate
    _ ≤ objective rows vectorWeights sampleWeights codebook a := objective_le_of_nearest hw ha haa

end Orka
