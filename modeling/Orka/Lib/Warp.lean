import Orka.Lib.Tile

/-!
# Warps over flat buffers

The thirty-two lanes of a warp take the turns of a loop one after the other and add up by shuffles; blocks that share an output add
to it atomically. In exact arithmetic a warp computes the sum of the turns, and the order of the additions does not matter.
-/

namespace Warp

open Flat Steps Tile

/-- The turns of `for (i = first; i < n; i += step)`. -/
def stride (first n step : ℕ) : List ℕ := (List.range (ceilDiv (n - first) step)).map fun k => first + k * step

section Sum

variable {α : Type} [AddCommMonoid α]

/-- `acc += __shfl_down_sync(mask, acc, o)` in all lanes: past the last lane a lane reads itself. -/
def shuffleDown (o : ℕ) (acc : List α) : List α :=
  tabulate acc.length fun i => cell acc i + cell acc (if i + o < acc.length then i + o else i)

/-- `for (o = 16; o > 0; o >>= 1)`: what lane 0 holds after it. -/
def warpSum (acc : List α) : α := cell ([16, 8, 4, 2, 1].foldl (fun acc o => shuffleDown o acc) acc) 0

/-- A shuffle adds the upper half of the lanes to the lower. -/
theorem sum_shuffleDown {o : ℕ} {acc : List α} (h : 2 * o ≤ acc.length) :
    ((List.range o).map (cell (shuffleDown o acc))).sum = ((List.range (2 * o)).map (cell acc)).sum := by
  rw [Nat.two_mul, sum_range_append, ← List.sum_map_add]
  refine congrArg List.sum (List.map_congr_left fun i hi => ?_)
  have hi' := List.mem_range.1 hi
  rw [shuffleDown, cell_tabulate _ (by omega), if_pos (by omega), Nat.add_comm i o]

/-- **The shuffles add up the warp.** -/
theorem warpSum_eq {acc : List α} (h : acc.length = 32) : warpSum acc = acc.sum := by
  have hlength : ∀ (o : ℕ) (acc : List α), (shuffleDown o acc).length = acc.length := fun o acc => length_tabulate _ _
  have hstep : ∀ (o : ℕ) {acc : List α}, acc.length = 32 → 2 * o ≤ 32 →
      ((List.range o).map (cell (shuffleDown o acc))).sum = ((List.range (2 * o)).map (cell acc)).sum :=
    fun o acc h32 ho => sum_shuffleDown (h32 ▸ ho)
  have hall : ((List.range 32).map (cell acc)).sum = acc.sum := by rw [← h]; exact congrArg List.sum (tabulate_cell acc)
  have hone : ∀ acc : List α, cell acc 0 = ((List.range 1).map (cell acc)).sum := fun acc => by simp
  unfold warpSum
  simp only [List.foldl_cons, List.foldl_nil]
  rw [hone, hstep 1 (by simp [hlength, h]) (by decide), hstep 2 (by simp [hlength, h]) (by decide),
    hstep 4 (by simp [hlength, h]) (by decide), hstep 8 (by simp [hlength, h]) (by decide), hstep 16 h (by decide), hall]

/-- The turns of one lane, among all rounds. -/
theorem sum_stride (t : ℕ → α) {first n step : ℕ} (hs : 0 < step) :
    ((stride first n step).map t).sum =
      ((List.range (ceilDiv n step)).map fun k => if k * step + first < n then t (k * step + first) else 0).sum := by
  have hcut : ∀ k, k * step + first < n ↔ k < ceilDiv (n - first) step := by
    intro k
    constructor
    · intro h
      by_contra hk
      have hcover := le_ceilDiv_mul (n := n - first) hs
      have := Nat.mul_le_mul_right step (not_lt.1 hk)
      omega
    · intro h
      have := mul_lt_of_lt_ceilDiv hs h
      omega
  have hle : ceilDiv (n - first) step ≤ ceilDiv n step := Nat.div_le_div_right (by omega)
  simp only [hcut]
  rw [sum_masked (fun k => t (k * step + first)) hle, stride, List.map_map]
  exact congrArg List.sum (List.map_congr_left fun k _ => congrArg t (Nat.add_comm _ _))

/-- **The lanes of a warp share out the turns.** -/
theorem sum_strides (t : ℕ → α) (n : ℕ) {step : ℕ} (hs : 0 < step) :
    ((List.range step).map fun lane => ((stride lane n step).map t).sum).sum = ((List.range n).map t).sum := by
  simp only [sum_stride t hs]
  rw [← sum_tiles_masked t hs]
  exact Finset.sum_comm (s := Finset.range step) (t := Finset.range (ceilDiv n step))
    (f := fun lane k => if k * step + lane < n then t (k * step + lane) else 0)

/-- A turn of a lane is a turn of the loop. -/
theorem mem_stride {first n step g : ℕ} (hs : 0 < step) (hg : g ∈ stride first n step) : g < n := by
  obtain ⟨k, hk, rfl⟩ := List.mem_map.1 hg
  have := mul_lt_of_lt_ceilDiv hs (List.mem_range.1 hk)
  omega

/-- **A warp adds up a loop** whose turns its lanes share out. -/
theorem warp_ok {f : α → ℕ → Except Fault α} {t : ℕ → α} {n : ℕ} (h : ∀ g < n, ∀ acc, f acc g = .ok (acc + t g)) :
    ((List.range 32).mapM fun lane => (stride lane n 32).foldlM f 0).map warpSum = .ok ((List.range n).map t).sum := by
  have hlane : ∀ lane ∈ List.range 32, (stride lane n 32).foldlM f 0 = .ok ((stride lane n 32).map t).sum := by
    intro lane _
    rw [foldlM_add fun g hg acc => h g (mem_stride (by decide) hg) acc, zero_add]
  rw [mapM_ok hlane, ok_map, warpSum_eq (by rw [List.length_map, List.length_range]), sum_strides t n (by decide)]

/-- **Slices share out the turns**, the last of them cut short. -/
theorem sum_slices (t : ℕ → α) {n slices size : ℕ} (h : n ≤ slices * size) :
    ((List.range slices).map fun k => ((List.range (min (k * size + size) n - k * size)).map fun j => t (k * size + j)).sum).sum =
      ((List.range n).map t).sum := by
  rw [← sum_masked t h, ← sum_tiles]
  refine congrArg List.sum (List.map_congr_left fun k _ => ?_)
  have hle : min (k * size + size) n - k * size ≤ size := by omega
  rw [← sum_masked (fun j => t (k * size + j)) hle]
  refine congrArg List.sum (List.map_congr_left fun j hj => ?_)
  have hj' := List.mem_range.1 hj
  have hcut : j < min (k * size + size) n - k * size ↔ k * size + j < n := by omega
  simp only [hcut]

end Sum

/-! ## Atomic adds -/

section Atomic

variable {ι α : Type} [AddCommMonoid α]

/-- All lanes of a grid run, and each live lane adds what it computed to its place. -/
def launchAdd (lanes : List ι) (live : ι → Bool) (off : ι → ℕ) (run : ι → Except Fault α) (out : List α) :
    Except Fault (List α) :=
  (lanes.mapM fun i => (run i).map fun v => (i, v)).map fun vs =>
    ((vs.filter fun w => live w.1).map fun w => (off w.1, w.2)).foldl (fun out w => out.modify w.1 (· + w.2)) out

/-- Adding keeps the number of cells. -/
theorem length_foldl_add (ws : List (ℕ × α)) (out : List α) :
    (ws.foldl (fun out w => out.modify w.1 (· + w.2)) out).length = out.length := by
  induction ws generalizing out with
  | nil => rfl
  | cons w ws ih => exact (ih _).trans (List.length_modify ..)

/-- After the adds a cell holds what it held and all that was added to it. -/
theorem cell_foldl_add (ws : List (ℕ × α)) {out : List α} {p : ℕ} (hp : p < out.length) :
    cell (ws.foldl (fun out w => out.modify w.1 (· + w.2)) out) p =
      cell out p + (ws.map fun w => if w.1 = p then w.2 else 0).sum := by
  induction ws generalizing out with
  | nil => simp
  | cons w ws ih =>
    have hcell : cell (out.modify w.1 (· + w.2)) p = cell out p + if w.1 = p then w.2 else 0 := by
      rw [cell_eq_getElem (by simpa using hp), cell_eq_getElem hp, List.getElem_modify]
      split
      · rfl
      · rw [add_zero]
    rw [List.foldl_cons, ih (by simpa using hp), hcell, List.map_cons, List.sum_cons, add_assoc]

/-- A sum over what passes is a sum with zeros for the rest. -/
theorem sum_map_filter {ι : Type} (p : ι → Bool) (f : ι → α) (l : List ι) :
    ((l.filter p).map f).sum = (l.map fun i => if p i then f i else 0).sum := by
  rw [List.sum_map_ite]
  simp

/-- A sum over a grid is a sum of sums. -/
theorem sum_grid {ι κ : Type} (is : List ι) (js : List κ) (f : ι × κ → α) :
    ((is ×ˢ js).map f).sum = (is.map fun i => (js.map fun j => f (i, j)).sum).sum := by
  show ((is.flatMap fun i => js.map (Prod.mk i)).map f).sum = _
  rw [List.map_flatMap, List.flatMap_def, List.sum_flatten, List.map_map]
  refine congrArg List.sum (List.map_congr_left fun i _ => ?_)
  rw [Function.comp_apply, List.map_map]
  rfl

/-- **A grid of slices adds up.** Every output gets the sum of what its slices compute. -/
theorem launchAdd_slices {slices rows n : ℕ} {run : ℕ × ℕ → Except Fault α} {f : ℕ × ℕ → α} {g : ℕ → ℕ → α}
    (hrun : ∀ k < slices, ∀ m < rows, run (k, m) = .ok (f (k, m))) (hlive : ∀ k < slices, ∀ m < n, f (k, m) = g k m)
    (hrows : n ≤ rows) :
    launchAdd (List.range slices ×ˢ List.range rows) (fun l => decide (l.2 < n)) Prod.snd run (List.replicate n 0) =
      .ok (tabulate n fun m => ((List.range slices).map fun k => g k m).sum) := by
  unfold launchAdd
  have hlanes : ∀ l ∈ List.range slices ×ˢ List.range rows, (run l).map (fun v => (l, v)) = .ok (l, f l) := by
    rintro ⟨k, m⟩ hl
    obtain ⟨hk, hm⟩ := List.mem_product.1 hl
    rw [hrun k (List.mem_range.1 hk) m (List.mem_range.1 hm), ok_map]
  rw [mapM_ok hlanes, ok_map]
  refine congrArg Except.ok (ext_cell (by rw [length_foldl_add, List.length_replicate, length_tabulate]) fun p hp => ?_)
  rw [length_foldl_add, List.length_replicate] at hp
  rw [cell_foldl_add _ (by simpa using hp), cell_replicate_zero, zero_add, cell_tabulate _ hp, List.map_map, sum_map_filter,
    List.map_map, sum_grid]
  refine congrArg List.sum (List.map_congr_left fun k hk => ?_)
  have hone : ∀ m, (if decide (m < n) = true then if m = p then f (k, m) else 0 else 0) = if m = p then g k p else 0 := by
    intro m
    by_cases hm : m = p
    · subst hm
      rw [if_pos (decide_eq_true hp), if_pos rfl, if_pos rfl, hlive k (List.mem_range.1 hk) m hp]
    · rw [if_neg hm, if_neg hm, ite_self]
  simp only [Function.comp_def, hone]
  exact (Finset.sum_ite_eq' (Finset.range rows) p fun _ => g k p).trans (if_pos (Finset.mem_range.2 (hp.trans_le hrows)))

end Atomic

end Warp
