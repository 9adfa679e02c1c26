import Orka.AssignKernel
import Orka.Lemmas.Kmeans

/-!
# Every assignment is nearest

The kernel of the fused assignment keeps the minimum over the tiles so far, which is the plain minimum over the centroids: the lanes
past the last centroid are at infinity, and the padding adds nothing to a product. With the paths of `numpy` and `torch` it gives
each row a centroid of least weighted distance.
-/

namespace Orka

open Flat Steps Menu Tile

set_option linter.unusedSectionVars false

variable {α : Type} [Field α] [LinearOrder α] [IsStrictOrderedRing α] {d : ℕ}

/-! ## A tile -/

/-- The minimum is no greater than a member. -/
theorem foldr_min_le {l : List (WithTop α)} {x : WithTop α} (h : x ∈ l) : l.foldr min ⊤ ≤ x := by
  induction l with
  | nil => cases h
  | cons y l ih =>
    rcases List.mem_cons.1 h with rfl | h
    · exact min_le_left _ _
    · exact (min_le_right _ _).trans (ih h)

/-- A bound below every member is below the minimum. -/
theorem le_foldr_min {l : List (WithTop α)} {a : WithTop α} (h : ∀ x ∈ l, a ≤ x) : a ≤ l.foldr min ⊤ := by
  induction l with
  | nil => exact le_top
  | cons y l ih => exact le_min (h y List.mem_cons_self) (ih fun x hx => h x (List.mem_cons_of_mem _ hx))

/-- The lanes of a tile: `m` of the `n` are live. -/
def tileLanes (n m : ℕ) (f : ℕ → α) : List (WithTop α) := (List.range n).map fun j => if j < m then (f j : WithTop α) else ⊤

/-- Keys that compare alike have the same least index. -/
theorem argmin_congr {β γ : Type} [LinearOrder β] [LinearOrder γ] {n : ℕ} {key : ℕ → β} {key' : ℕ → γ}
    (h : ∀ i < n, ∀ j < n, key i < key j ↔ key' i < key' j) : argmin n key = argmin n key' := by
  induction n with
  | zero => rfl
  | succ n ih =>
    rw [argmin_succ, argmin_succ, ih fun i hi j hj => h i (by omega) j (by omega)]
    rcases Nat.eq_zero_or_pos n with rfl | hn
    · simp [argmin]
    · have hlt := argmin_lt hn key'
      simp only [h n (by omega) (argmin n key') (by omega)]

/-- The lanes at infinity are never the least. -/
theorem argmin_tileLanes {n m : ℕ} (hmn : m ≤ n) (f : ℕ → α) :
    argmin n (fun j => (tileLanes n m f).getD j ⊤) = argmin m f := by
  obtain ⟨r, rfl⟩ := Nat.exists_eq_add_of_le hmn
  have hcell : ∀ j < m + r, (tileLanes (m + r) m f).getD j ⊤ = if j < m then (f j : WithTop α) else ⊤ := fun j hj => by
    simp [tileLanes, List.getD_eq_getElem?_getD, hj]
  have hlive : argmin m (fun j => (tileLanes (m + r) m f).getD j ⊤) = argmin m f := by
    refine argmin_congr fun i hi j hj => ?_
    rw [hcell i (by omega), hcell j (by omega), if_pos hi, if_pos hj, WithTop.coe_lt_coe]
  rcases Nat.eq_zero_or_pos r with rfl | hr
  · exact hlive
  · have hlt := argmin_lt hr fun j => (tileLanes (m + r) m f).getD (m + j) ⊤
    have hdead : (tileLanes (m + r) m f).getD (m + argmin r fun j => (tileLanes (m + r) m f).getD (m + j) ⊤) ⊤ = ⊤ :=
      (hcell _ (Nat.add_lt_add_left hlt m)).trans (if_neg (by omega))
    rw [argmin_add hr, hdead, if_neg not_top_lt, hlive]

/-- The minimum over the lanes of a tile is that of its codes. -/
theorem min_tileLanes {n m : ℕ} (hm : 0 < m) (hmn : m ≤ n) (f : ℕ → α) :
    (tileLanes n m f).foldr min ⊤ = (f (argmin m f) : WithTop α) := by
  refine le_antisymm (foldr_min_le (List.mem_map.2 ⟨argmin m f, List.mem_range.2 ?_, if_pos (argmin_lt hm f)⟩))
    (le_foldr_min fun x hx => ?_)
  · exact (argmin_lt hm f).trans_le hmn
  · obtain ⟨j, -, rfl⟩ := List.mem_map.1 hx
    split
    · next hj => exact WithTop.coe_le_coe.2 (argmin_le hj f)
    · exact le_top

/-! ## A lane -/

variable {v c csq : List α} {k D blockK : ℕ}

/-- The key of a centroid for the padded row `v`. -/
def laneKey (v c csq : List α) (D kk : ℕ) : α := cell csq kk - 2 * ((List.range D).map fun e => cell v e * cell c (kk * D + e)).sum

/-- A lane inside the codebook holds its code's key, every other infinity. -/
theorem tileDist_ok (hv : v.length = D) (hc : c.length = k * D) (hcsq : csq.length = k) (kk : ℕ) :
    tileDist v c csq k D (List.range D) kk = .ok (if kk < k then ((laneKey v c csq D kk : α) : WithTop α) else ⊤) := by
  have hrow : ((List.range D).mapM fun e => load c (kk * D + e : ℕ) (kk < k) 0) =
      .ok ((List.range D).map fun e => if kk < k then cell c (kk * D + e) else 0) := by
    refine mapM_ok fun e he => ?_
    rw [load_of_mask c _ _ fun hk => ?_]
    · simp only [decide_eq_true_eq]
    · rw [hc]
      calc kk * D + e < kk * D + D := Nat.add_lt_add_left (List.mem_range.1 he) _
        _ = (kk + 1) * D := (Nat.succ_mul kk D).symm
        _ ≤ k * D := Nat.mul_le_mul_right D (of_decide_eq_true hk)
  rw [tileDist, hrow, ok_bind, load_of_mask csq _ _ fun hk => by rw [hcsq]; exact of_decide_eq_true hk, ok_map]
  by_cases hk : kk < k
  · have hsum : List.zipWith (fun x y => x * y) v ((List.range D).map fun e => cell c (kk * D + e)) =
        (List.range D).map fun e => cell v e * cell c (kk * D + e) := by
      conv_lhs => rw [← tabulate_cell v, hv, tabulate, List.zipWith_map, List.zipWith_self]
    simp only [hk, if_true, decide_true, hsum, laneKey]
  · simp only [hk, if_false]

/-- The running minimum of `argminKernel`, with infinity before the first tile. -/
def runningMin (best : Option α × ℕ) : WithTop α × ℕ :=
  match best with
  | (none, i) => (⊤, i)
  | (some b, i) => ((b : WithTop α), i)

/-- A tile updates the running minimum as `argminKernel` does. -/
theorem tileStep_ok (hv : v.length = D) (hc : c.length = k * D) (hcsq : csq.length = k) (hblock : blockK.isPowerOfTwo) {t : ℕ}
    (ht : t * blockK < k) (best : Option α × ℕ) :
    tileStep v c csq k D blockK (List.range D) (runningMin best) t = .ok (runningMin (
      let tileArg := argmin (min blockK (k - t * blockK)) fun j => laneKey v c csq D (t * blockK + j)
      let tileMin := laneKey v c csq D (t * blockK + tileArg)
      if best.1.all fun b => tileMin < b then (some tileMin, t * blockK + tileArg) else best)) := by
  have hpos : 0 < blockK := Nat.pos_of_isPowerOfTwo hblock
  have hlanes : ((List.range blockK).mapM fun j => tileDist v c csq k D (List.range D) (t * blockK + j)) =
      .ok (tileLanes blockK (min blockK (k - t * blockK)) fun j => laneKey v c csq D (t * blockK + j)) := by
    rw [mapM_ok fun j _ => tileDist_ok hv hc hcsq (t * blockK + j)]
    refine congrArg _ (List.map_congr_left fun j hj => ?_)
    have hj := List.mem_range.1 hj
    by_cases h : t * blockK + j < k
    · rw [if_pos h, if_pos (by omega)]
    · rw [if_neg h, if_neg (by omega)]
  have hlength : (tileLanes blockK (min blockK (k - t * blockK)) fun j => laneKey v c csq D (t * blockK + j)).length = blockK := by
    simp [tileLanes]
  unfold tileStep
  rw [arange_ok hblock, ok_bind, hlanes, ok_map]
  simp only [hlength]
  rw [argmin_tileLanes (min_le_left _ _), min_tileLanes (by omega) (min_le_left _ _), Nat.add_comm _ (t * blockK)]
  refine congrArg _ ?_
  generalize t * blockK + argmin (min blockK (k - t * blockK)) (fun j => laneKey v c csq D (t * blockK + j)) = tileArg
  obtain ⟨_ | b, i⟩ := best
  · exact if_pos (WithTop.coe_lt_top _)
  · simp only [runningMin, Option.all_some, decide_eq_true_eq, WithTop.coe_lt_coe]
    split <;> rfl

/-- **A lane of the kernel** finds the first least key of its row. -/
theorem argminLane_ok {vBuf : List α} {n row : ℕ} (hn : vBuf.length = n * D) (hc : c.length = k * D) (hcsq : csq.length = k)
    (hD : D.isPowerOfTwo) (hblock : blockK.isPowerOfTwo) (hk : 0 < k) :
    argminLane vBuf c csq n k D blockK row =
      .ok (argmin k (laneKey ((List.range D).map fun e => if row < n then cell vBuf (row * D + e) else 0) c csq D)) := by
  have hrow : ((List.range D).mapM fun e => load vBuf (row * D + e : ℕ) (row < n) 0) =
      .ok ((List.range D).map fun e => if row < n then cell vBuf (row * D + e) else 0) := by
    refine mapM_ok fun e he => ?_
    rw [load_of_mask vBuf _ _ fun hk => ?_]
    · simp only [decide_eq_true_eq]
    · rw [hn]
      calc row * D + e < row * D + D := Nat.add_lt_add_left (List.mem_range.1 he) _
        _ = (row + 1) * D := (Nat.succ_mul row D).symm
        _ ≤ n * D := Nat.mul_le_mul_right D (of_decide_eq_true hk)
  rw [argminLane, arange_ok hD, ok_bind, hrow, ok_bind]
  generalize hv : (List.range D).map (fun e => if row < n then cell vBuf (row * D + e) else 0) = v
  have hlength : v.length = D := by simp [← hv]
  have hpos : 0 < blockK := Nat.pos_of_isPowerOfTwo hblock
  have hfold := foldlM_simulates (φ := runningMin)
    (fun t (ht : t ∈ List.range (ceilDiv k blockK)) best =>
      tileStep_ok hlength hc hcsq hblock (mul_lt_of_lt_ceilDiv hpos (List.mem_range.1 ht)) best) (none, 0)
  have hsnd : ∀ best : Option α × ℕ, (runningMin best).2 = best.2 := by rintro ⟨_ | b, i⟩ <;> rfl
  rw [← argminKernel_eq hpos hk, argminKernel, ← hsnd]
  exact (congrArg (Except.map Prod.snd) hfold)

/-! ## The padding -/

/-- Padding with zeros keeps the product. -/
theorem rowDot_padRow (hD : d ≤ D) (x y : Fin d → α) : rowDot (padRow D x) (padRow D y) = rowDot x y := by
  obtain ⟨r, rfl⟩ := Nat.exists_eq_add_of_le hD
  unfold rowDot
  rw [Fin.sum_univ_add]
  have hpad : ∑ e : Fin r, padRow (d + r) x (Fin.natAdd d e) * padRow (d + r) y (Fin.natAdd d e) = 0 := by
    refine Finset.sum_eq_zero fun e _ => ?_
    rw [padRow, dif_neg (by simp), zero_mul]
  rw [hpad, add_zero]
  refine Finset.sum_congr rfl fun e _ => ?_
  have hlive : ∀ z : Fin d → α, padRow (d + r) z (Fin.castAdd r e) = z e := fun z => dif_pos e.isLt
  rw [hlive, hlive]

/-- Padding does not shorten. -/
theorem le_paddedDim (d : ℕ) : d ≤ paddedDim d := by
  unfold paddedDim
  omega

/-- A key of the kernel on padded rows. -/
theorem laneKey_padded {cb : List (Fin d → α)} {x : Fin d → α} (hD : d ≤ D) (hv : v = List.ofFn (padRow D x)) {j : ℕ}
    (hj : j < cb.length) :
    laneKey v ((cb.map (padRow D)).flatMap List.ofFn) (cb.map fun c => rowDot c c) D j =
      rowDot (cell cb j) (cell cb j) - 2 * rowDot x (cell cb j) := by
  have hcell : cell (cb.map (padRow D)) j = padRow D (cell cb j) := cell_map hj
  have hsum : ((List.range D).map fun e => cell v e * cell ((cb.map (padRow D)).flatMap List.ofFn) (j * D + e)).sum =
      rowDot (padRow D x) (padRow D (cell cb j)) := by
    show ∑ e ∈ Finset.range D, _ = _
    rw [Finset.sum_range]
    refine Finset.sum_congr rfl fun e _ => ?_
    rw [cell_flat (by rwa [List.length_map]), hcell, hv, cell_eq_getElem (by rw [List.length_ofFn]; exact e.isLt), List.getElem_ofFn]
  rw [laneKey, cell_map hj, hsum, rowDot_padRow hD]

/-- **The fused kernel**: for blocks of any power of two the launch stores the first least key of each row. -/
theorem tritonAssign_ok {blockN blockK : ℕ} (hblockN : blockN.isPowerOfTwo) (hblockK : blockK.isPowerOfTwo)
    (hD : (paddedDim d).isPowerOfTwo) (vectors : List (Fin d → α)) {cb : List (Fin d → α)} (hcb : cb ≠ []) {out : List ℕ}
    (hout : out.length = vectors.length) :
    tritonAssign blockN blockK vectors cb out =
      .ok (vectors.map fun v => argmin cb.length fun j => rowDot (cell cb j) (cell cb j) - 2 * rowDot v (cell cb j)) := by
  have hpad (rows : List (Fin d → α)) : ((rows.map (padRow (paddedDim d))).flatMap List.ofFn).length = rows.length * paddedDim d := by
    rw [length_flat, List.length_map]
  unfold tritonAssign
  rw [arange_ok hblockN, ok_bind]
  rw [launch_ok (g := fun p => argmin cb.length fun j => rowDot (cell cb j) (cell cb j) - 2 * rowDot (cell vectors p) (cell cb j))
    (fun row _ => argminLane_ok (hpad vectors) (hpad cb) (List.length_map _) hD hblockK (List.length_pos_iff.2 hcb)) ?_ ?_]
  · refine congrArg _ ?_
    conv_rhs => rw [← tabulate_cell vectors, tabulate, List.map_map]
    rw [hout]
    rfl
  · intro row _ hlive
    have hrow : row < vectors.length := of_decide_eq_true hlive
    have hv : ((List.range (paddedDim d)).map fun e => if row < vectors.length then
        cell ((vectors.map (padRow (paddedDim d))).flatMap List.ofFn) (row * paddedDim d + e) else 0) =
          List.ofFn (padRow (paddedDim d) (cell vectors row)) := by
      refine List.ext_getElem (by simp) fun e he _ => ?_
      have he : e < paddedDim d := by simpa using he
      have hcell : cell (vectors.map (padRow (paddedDim d))) row = padRow (paddedDim d) (cell vectors row) := cell_map hrow
      rw [List.getElem_map, List.getElem_range, if_pos hrow, List.getElem_ofFn]
      exact (cell_flat (by rwa [List.length_map]) ⟨e, he⟩).trans (congrFun hcell _)
    refine argmin_congr fun i hi j hj => ?_
    rw [laneKey_padded (le_paddedDim d) hv hi, laneKey_padded (le_paddedDim d) hv hj]
    rfl
  · intro p hp
    rw [hout] at hp
    exact ⟨p, mem_blockLanes (Nat.pos_of_isPowerOfTwo hblockN) hp, decide_eq_true hp, rfl⟩

/-- The kernel returns what `assign` does, on any device. -/
theorem fusedAssign_eq_tritonAssign (dev : TorchDevice) (hd : 0 < d ∧ d ≤ 16) (vectors : List (Fin d → α)) {cb : List (Fin d → α)}
    (hcb : cb ≠ []) {out : List ℕ} (hout : out.length = vectors.length) :
    ∃ idx, fusedAssign dev vectors cb = .ok idx ∧ tritonAssign 128 64 vectors cb out = .ok idx := by
  have hpadded : paddedDim d = 16 := by
    unfold paddedDim
    omega
  exact ⟨_, fusedAssign_ok dev vectors hcb,
    tritonAssign_ok (by decide) (by decide) (by rw [hpadded]; decide) vectors hcb hout⟩

/-! ## Every path -/

section Paths

variable (sqrt : α → α) (vectorWeights : Option (Fin d → α)) (rows : List (Fin d → α)) {codebook : List (Fin d → α)}

theorem length_scaleDims : (scaleDims sqrt vectorWeights rows).length = rows.length := by
  rw [scaleDims_eq, List.length_map]

theorem scaleDims_ne_nil (h : codebook ≠ []) : scaleDims sqrt vectorWeights codebook ≠ [] := by
  rw [← List.length_pos_iff, length_scaleDims]
  exact List.length_pos_iff.2 h

/-- The numpy path returns where the norms and the error fit the rows. -/
theorem numpyAssign_returns (hcb : codebook ≠ []) (chunkSize : ℕ) {rNormSq : Option (List α)} {computeMse : Bool}
    (hnorms : vectorWeights = none → ∀ norms ∈ rNormSq, norms.length = rows.length)
    (hmse : computeMse = true → rows.length * d ≠ 0) :
    ∃ indices mse, numpyAssign sqrt rows codebook chunkSize rNormSq vectorWeights computeMse = .ok (indices, mse) := by
  have hempty : (!(scaleDims sqrt vectorWeights rows).isEmpty && (scaleDims sqrt vectorWeights codebook).isEmpty) = false := by
    rw [List.isEmpty_eq_false_iff.2 (scaleDims_ne_nil _ _ hcb), Bool.and_false]
  have hlength : ((if vectorWeights.isSome then some ((scaleDims sqrt vectorWeights rows).map fun x => rowDot x x) else rNormSq).getD
      ((scaleDims sqrt vectorWeights rows).map fun x => rowDot x x)).length = (scaleDims sqrt vectorWeights rows).length := by
    cases hw : vectorWeights with
    | some w => simp
    | none =>
      cases hnorm : rNormSq with
      | none => simp
      | some norms => simpa [scaleDims] using hnorms hw norms hnorm
  unfold numpyAssign
  simp only [hlength, ne_eq, not_true_eq_false, if_false, hempty, Bool.false_eq_true]
  cases computeMse with
  | false => exact ⟨_, _, rfl⟩
  | true =>
    rw [if_neg (by simp), if_neg (by rw [length_scaleDims]; exact hmse rfl)]
    exact ⟨_, _, rfl⟩

/-- The torch path returns on every codebook with a row. -/
theorem torchAssign_returns (hcb : codebook ≠ []) (dev : TorchDevice) (chunkSize : ℕ) (computeMse : Bool) :
    ∃ indices mse, torchAssign dev sqrt rows codebook chunkSize vectorWeights computeMse = .ok (indices, mse) := by
  unfold torchAssign
  simp only [fusedAssign_ok dev _ (scaleDims_ne_nil sqrt vectorWeights hcb), ok_map]
  split
  · rw [mapM_ok fun _ _ => rfl]
    exact ⟨_, _, rfl⟩
  · exact ⟨_, _, rfl⟩

/-- **Every assignment is nearest**: of `numpy` in any chunks and with any row norms, of `torch` at once or in slices, with the fused
kernel or without, and of the kernel in any blocks of rows and tiles of centroids. -/
theorem assign_nearest (hsqrt : ∀ w ∈ vectorWeights, ∀ e, sqrt (w e) * sqrt (w e) = w e) (hd : 0 < d) (hcb : codebook ≠ []) :
    (∀ chunkSize rNormSq computeMse, (vectorWeights = none → ∀ norms ∈ rNormSq, norms.length = rows.length) →
      (computeMse = true → rows ≠ []) → ∃ a mse,
        numpyAssign sqrt rows codebook chunkSize rNormSq vectorWeights computeMse = .ok (a, mse) ∧
          AssignsNearest vectorWeights rows codebook a) ∧
    (∀ dev chunkSize computeMse, 0 < chunkSize → ∃ a mse,
      torchAssign dev sqrt rows codebook chunkSize vectorWeights computeMse = .ok (a, mse) ∧
        AssignsNearest vectorWeights rows codebook a) ∧
    (∀ dev, ∃ a, fusedAssign dev (scaleDims sqrt vectorWeights rows) (scaleDims sqrt vectorWeights codebook) = .ok a ∧
      AssignsNearest vectorWeights rows codebook a) ∧
    ∀ blockN blockK out, blockN.isPowerOfTwo → blockK.isPowerOfTwo → (paddedDim d).isPowerOfTwo → out.length = rows.length → ∃ a,
      tritonAssign blockN blockK (scaleDims sqrt vectorWeights rows) (scaleDims sqrt vectorWeights codebook) out = .ok a ∧
        AssignsNearest vectorWeights rows codebook a := by
  have hnil := scaleDims_ne_nil sqrt vectorWeights hcb
  have hfused : AssignsNearest vectorWeights rows codebook _ := assignsNearest_fused hsqrt hnil
  rw [← length_scaleDims sqrt vectorWeights codebook] at hfused
  refine ⟨fun chunkSize rNormSq computeMse hnorms hmse => ?_, fun dev chunkSize computeMse hchunk => ?_, fun dev => ?_,
    fun blockN blockK out hN hK hD hout => ?_⟩
  · obtain ⟨a, mse, h⟩ := numpyAssign_returns sqrt vectorWeights rows hcb chunkSize hnorms fun hc =>
      Nat.mul_ne_zero (fun h0 => hmse hc (List.length_eq_zero_iff.1 h0)) hd.ne'
    exact ⟨a, mse, h, numpyAssign_nearest hsqrt h⟩
  · obtain ⟨a, mse, h⟩ := torchAssign_returns sqrt vectorWeights rows hcb dev chunkSize computeMse
    exact ⟨a, mse, h, torchAssign_nearest hsqrt hchunk h⟩
  · exact ⟨_, fusedAssign_ok dev _ hnil, hfused⟩
  · exact ⟨_, tritonAssign_ok hN hK hD _ hnil (hout.trans (length_scaleDims sqrt vectorWeights rows).symm), hfused⟩

end Paths

/-- Five rows of width three. -/
def fiveRows : List (Fin 3 → ℚ) := [![0, 0, 0], ![1, 2, 3], ![3, 1, 0], ![2, 2, 2], ![4, 0, 1]]

/-- The square roots of 1 and 4. -/
def sqrtOneFour (x : ℚ) : ℚ := if x = 4 then 2 else 1

/-- Five weighted rows against two codes, in blocks of two. -/
theorem assign_nearest_fiveRows : ∃ a,
    tritonAssign 2 1 (scaleDims sqrtOneFour (some ![1, 4, 1]) fiveRows) (scaleDims sqrtOneFour (some ![1, 4, 1]) [![1, 1, 1], ![3, 0, 0]])
      [9, 9, 9, 9, 9] = .ok a ∧ AssignsNearest (some ![1, 4, 1]) fiveRows [![1, 1, 1], ![3, 0, 0]] a := by
  have hsqrt : ∀ w ∈ (some ![1, 4, 1] : Option (Fin 3 → ℚ)), ∀ e, sqrtOneFour (w e) * sqrtOneFour (w e) = w e := by decide +kernel
  exact (assign_nearest _ _ _ hsqrt (by decide) (by simp)).2.2.2 2 1 [9, 9, 9, 9, 9] (by decide) (by decide) (by decide) rfl

end Orka
