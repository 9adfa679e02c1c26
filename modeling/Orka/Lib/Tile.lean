import Orka.Lib.Flat
import Orka.Lib.Steps

/-!
# Block programs over flat buffers

A kernel is a grid of programs, each a block of lanes. A lane reads flat buffers through masked loads, computes one value, and a
masked store writes it. A load whose mask holds must stay inside its buffer; reading outside it is a fault, so a launch that
returns has read inside its buffers everywhere.

What a launch computes does not depend on the size of its blocks, and a sum taken tile by tile is the sum of the terms.
-/

namespace Tile

open Flat Steps

/-- Why a kernel does not run to its end. -/
inductive Fault where
  | outOfBounds
  | arangeWidth
  | divisionByZero
  deriving DecidableEq, Repr

/-- The lane numbers of a block of `n` lanes: the width of a block is a power of two. -/
def arange (n : ℕ) : Except Fault (List ℕ) := if n.isPowerOfTwo then .ok (List.range n) else .error .arangeWidth

/-- A masked load at an offset. -/
def load {α : Type} [Zero α] (buf : List α) (off : ℤ) (mask : Bool) (other : α) : Except Fault α :=
  if mask then if 0 ≤ off ∧ off < buf.length then .ok (cell buf off.toNat) else .error .outOfBounds
  else .ok other

/-- The lanes that cover `n` numbers in blocks of `size`. -/
def blockLanes (n size : ℕ) : List ℕ := (List.range (ceilDiv n size)).flatMap fun p => (List.range size).map (p * size + ·)

/-- All lanes of a grid run, then the live ones store what they computed. -/
def launch {ι α : Type} (lanes : List ι) (live : ι → Bool) (off : ι → ℕ) (run : ι → Except Fault α) (out : List α) :
    Except Fault (List α) :=
  (lanes.mapM fun i => (run i).map fun v => (i, v)).map fun vs =>
    scatter out ((vs.filter fun w => live w.1).map fun w => (off w.1, w.2))

/-! ## Loads -/

section Load

variable {α : Type} [Zero α]

/-- A load inside the buffer gives the cell. -/
theorem load_ok {buf : List α} {i : ℕ} (h : i < buf.length) (other : α) : load buf i true other = .ok (cell buf i) := by
  unfold load
  rw [if_pos rfl, if_pos (by omega), Int.toNat_natCast]

/-- A load outside the buffer faults. -/
theorem load_out {buf : List α} {i : ℕ} (h : buf.length ≤ i) (other : α) : load buf i true other = .error .outOfBounds := by
  unfold load
  rw [if_pos rfl, if_neg (by omega)]

/-- A load behind a mask that keeps its offset inside the buffer. -/
theorem load_of_mask (buf : List α) (i : ℕ) (mask : Bool) (h : mask = true → i < buf.length) (other : α) :
    load buf i mask other = .ok (if mask then cell buf i else other) := by
  cases mask with
  | false => rfl
  | true => exact load_ok (h rfl) other

end Load

/-! ## Launches -/

section Launch

variable {ι α : Type}

theorem arange_ok {n : ℕ} (h : n.isPowerOfTwo) : arange n = .ok (List.range n) := if_pos h

theorem arange_fault {n : ℕ} (h : ¬ n.isPowerOfTwo) : arange n = .error .arangeWidth := if_neg h

theorem mem_blockLanes {n size i : ℕ} (hs : 0 < size) (hi : i < n) : i ∈ blockLanes n size := by
  refine List.mem_flatMap.2 ⟨i / size, List.mem_range.2 (div_lt_ceilDiv hs hi), List.mem_map.2 ⟨i % size, ?_, ?_⟩⟩
  · exact List.mem_range.2 (Nat.mod_lt _ hs)
  · exact Nat.div_add_mod' i size

/-- **A launch fills its output.** Every lane runs, and the live lanes cover the output, each with the value that belongs at its
offset. -/
theorem launch_ok [Zero α] {lanes : List ι} {live : ι → Bool} {off : ι → ℕ} {run : ι → Except Fault α} {out : List α}
    {f : ι → α} {g : ℕ → α} (hrun : ∀ i ∈ lanes, run i = .ok (f i)) (hlive : ∀ i ∈ lanes, live i = true → f i = g (off i))
    (hcover : ∀ p < out.length, ∃ i ∈ lanes, live i = true ∧ off i = p) :
    launch lanes live off run out = .ok (tabulate out.length g) := by
  unfold launch
  rw [mapM_ok (g := fun i => (i, f i)) fun i hi => by rw [hrun i hi]; rfl]
  simp only [Except.map]
  refine congrArg Except.ok (ext_cell (by simp) fun p hp => ?_)
  rw [length_scatter] at hp
  have hmem : ∀ w ∈ ((lanes.map fun i => (i, f i)).filter fun w => live w.1).map fun w => (off w.1, w.2),
      w.2 = g w.1 := by
    intro w hw
    obtain ⟨u, hu, rfl⟩ := List.mem_map.1 hw
    obtain ⟨i, hi, rfl⟩ := List.mem_map.1 (List.mem_filter.1 hu).1
    exact hlive i hi (by simpa using (List.mem_filter.1 hu).2)
  rw [cell_scatter _ _ hp, cell_tabulate _ hp]
  cases hl : lastWrite (((lanes.map fun i => (i, f i)).filter fun w => live w.1).map fun w => (off w.1, w.2)) p with
  | none =>
    obtain ⟨i, hi, hv, ho⟩ := hcover p hp
    refine absurd ho (ne_of_lastWrite_eq_none (w := (off i, f i)) hl ?_)
    exact List.mem_map.2 ⟨(i, f i), List.mem_filter.2 ⟨List.mem_map.2 ⟨i, hi, rfl⟩, by simpa using hv⟩, rfl⟩
  | some v => exact hmem (p, v) (mem_of_lastWrite hl)

/-- A launch with a lane that faults faults. -/
theorem launch_fault {lanes : List ι} {live : ι → Bool} {off : ι → ℕ} {run : ι → Except Fault α} {out : List α} {i : ι}
    (hi : i ∈ lanes) (h : ∀ v, run i ≠ .ok v) (ys : List α) : launch lanes live off run out ≠ .ok ys := by
  unfold launch
  intro he
  obtain ⟨vs, hvs, -⟩ := map_eq_ok.1 he
  refine mapM_fault hi (fun w hw => ?_) vs hvs
  obtain ⟨v, hv, -⟩ := map_eq_ok.1 hw
  exact h v hv

end Launch

/-! ## Sums in tiles -/

section Sum

variable {α : Type} [AddCommMonoid α]

theorem sum_range_append (f : ℕ → α) (n m : ℕ) :
    ((List.range (n + m)).map f).sum = ((List.range n).map f).sum + ((List.range m).map fun j => f (n + j)).sum := by
  rw [List.range_add, List.map_append, List.sum_append, List.map_map]
  rfl

/-- A sum of `n` tiles of `size` terms. -/
theorem sum_tiles (f : ℕ → α) (n size : ℕ) :
    ((List.range n).map fun p => ((List.range size).map fun j => f (p * size + j)).sum).sum =
      ((List.range (n * size)).map f).sum := by
  induction n with
  | zero => simp
  | succ n ih => rw [List.range_succ, List.map_append, List.sum_append, ih, Nat.succ_mul, sum_range_append]; simp

/-- A sum of pairs. -/
theorem sum_pairs (f : ℕ → α) (n : ℕ) :
    ((List.range n).map fun e => f (2 * e) + f (2 * e + 1)).sum = ((List.range (2 * n)).map f).sum := by
  rw [Nat.mul_comm 2 n, ← sum_tiles f n 2]
  refine congrArg List.sum (List.map_congr_left fun e _ => ?_)
  simp [List.range_succ, Nat.mul_comm e 2]

/-- The masked terms past the end add nothing. -/
theorem sum_masked (f : ℕ → α) {n m : ℕ} (h : n ≤ m) :
    ((List.range m).map fun i => if i < n then f i else 0).sum = ((List.range n).map f).sum := by
  obtain ⟨d, rfl⟩ := Nat.exists_eq_add_of_le h
  rw [sum_range_append]
  have hin : ((List.range n).map fun i => if i < n then f i else 0) = (List.range n).map f :=
    List.map_congr_left fun i hi => if_pos (List.mem_range.1 hi)
  have hout : ((List.range d).map fun j => if n + j < n then f (n + j) else 0).sum = 0 := by
    refine List.sum_eq_zero fun x hx => ?_
    obtain ⟨j, -, rfl⟩ := List.mem_map.1 hx
    exact if_neg (by omega)
  rw [hin, hout, add_zero]

/-- **A masked sum in tiles is the sum.** -/
theorem sum_tiles_masked (f : ℕ → α) {n size : ℕ} (hs : 0 < size) :
    ((List.range (ceilDiv n size)).map fun p =>
      ((List.range size).map fun j => if p * size + j < n then f (p * size + j) else 0).sum).sum =
      ((List.range n).map f).sum := by
  rw [sum_tiles (fun i => if i < n then f i else 0), sum_masked f (le_ceilDiv_mul hs)]

end Sum

end Tile
