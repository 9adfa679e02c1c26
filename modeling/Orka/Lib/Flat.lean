import Mathlib
import Orka.Lib.Numerals

/-!
# Flat tensors

A tensor is the list of its values in row-major order, and every operation on it is arithmetic on flat positions. This file
says how reading one cell commutes with the ways such lists are built: padding, cutting into rows of one width, gathering
rows, scaling rows and writing at positions. A row is addressed by `i / c` and a place in it by `i % c`.
-/

namespace Flat

/-- How many pieces of size `b` cover `a` values. -/
def ceilDiv (a b : ℕ) : ℕ := (a + b - 1) / b

/-- How many values pad `n` up to a multiple of `b`. -/
def padding (n b : ℕ) : ℕ := (b - n % b) % b

/-- The number of pieces times their size is the length with its padding. -/
theorem ceilDiv_mul {n b : ℕ} (hb : 0 < b) : ceilDiv n b * b = n + padding n b := by
  unfold ceilDiv padding
  have hn := Nat.div_add_mod n b
  have hm := Nat.mod_lt n hb
  rw [Nat.mul_comm] at hn
  rcases Nat.eq_zero_or_pos (n % b) with h0 | h0
  · have e : (n + b - 1) / b = n / b := by
      rw [Nat.div_eq_iff hb]
      generalize n / b * b = q at hn
      omega
    rw [e, h0, Nat.sub_zero, Nat.mod_self]
    omega
  · have e : (n + b - 1) / b = n / b + 1 := by
      rw [Nat.div_eq_iff hb, Nat.add_mul, Nat.one_mul]
      generalize n / b * b = q at hn
      omega
    rw [e, Nat.mod_eq_of_lt (by omega), Nat.add_mul, Nat.one_mul]
    omega

theorem padding_lt {n b : ℕ} (hb : 0 < b) : padding n b < b := Nat.mod_lt _ hb

theorem padding_eq_zero {n b : ℕ} (h : b ∣ n) : padding n b = 0 := by
  unfold padding
  rw [Nat.mod_eq_zero_of_dvd h]
  simp

/-- Rounding up a whole quotient changes nothing. -/
theorem ceilDiv_of_dvd {n b : ℕ} (hb : 0 < b) (h : b ∣ n) : ceilDiv n b = n / b := by
  have := ceilDiv_mul (n := n) hb
  rw [padding_eq_zero h, Nat.add_zero] at this
  exact (Nat.div_eq_of_eq_mul_left hb this.symm).symm

@[simp] theorem ceilDiv_one (n : ℕ) : ceilDiv n 1 = n := by
  simp [ceilDiv]

/-- A position below `n` lies in one of the pieces that cover `n`. -/
theorem div_lt_ceilDiv {i n b : ℕ} (hb : 0 < b) (h : i < n) : i / b < ceilDiv n b := by
  rw [Nat.div_lt_iff_lt_mul hb, ceilDiv_mul hb]
  omega

/-- Every piece that covers `n` starts below `n`. -/
theorem mul_lt_of_lt_ceilDiv {k n b : ℕ} (hb : 0 < b) (h : k < ceilDiv n b) : k * b < n := by
  have hle : (k + 1) * b ≤ ceilDiv n b * b := Nat.mul_le_mul_right b h
  rw [ceilDiv_mul hb, Nat.add_mul] at hle
  have := padding_lt (n := n) hb
  omega

/-- The pieces together reach `n`. -/
theorem le_ceilDiv_mul {n b : ℕ} (hb : 0 < b) : n ≤ ceilDiv n b * b := by
  rw [ceilDiv_mul hb]
  omega

/-- The list of the first `n` values of a function of the position. -/
def tabulate {α : Type} (n : ℕ) (f : ℕ → α) : List α := (List.range n).map f

/-- A place of a row inside a matrix is a place of the matrix. -/
theorem flat_lt {n w i k : ℕ} (hi : i < n) (hk : k < w) : i * w + k < n * w :=
  calc i * w + k < i * w + w := Nat.add_lt_add_left hk _
    _ = (i + 1) * w := (Nat.succ_mul i w).symm
    _ ≤ n * w := Nat.mul_le_mul_right w hi

@[simp] theorem length_tabulate {α : Type} (n : ℕ) (f : ℕ → α) : (tabulate n f).length = n := by
  simp [tabulate]

/-! ## Reading a cell -/

section Cell

variable {α : Type} [Zero α]

/-- The value at a flat position, zero past the end. -/
def cell (xs : List α) (i : ℕ) : α := xs.getD i 0

theorem cell_eq_getElem {xs : List α} {i : ℕ} (h : i < xs.length) : cell xs i = xs[i] := by
  simp [cell, h]

theorem cell_of_le {xs : List α} {i : ℕ} (h : xs.length ≤ i) : cell xs i = 0 := by
  simp [cell, h]

/-- Two lists of one length that agree in every cell are equal. -/
theorem ext_cell {xs ys : List α} (hl : xs.length = ys.length) (h : ∀ i < xs.length, cell xs i = cell ys i) : xs = ys := by
  apply List.ext_getElem hl
  intro i h1 h2
  have := h i h1
  rwa [cell_eq_getElem h1, cell_eq_getElem h2] at this

theorem cell_mem {xs : List α} {i : ℕ} (h : i < xs.length) : cell xs i ∈ xs := by
  rw [cell_eq_getElem h]
  exact List.getElem_mem h

theorem cell_tabulate {n i : ℕ} (f : ℕ → α) (h : i < n) : cell (tabulate n f) i = f i := by
  simp [cell, tabulate, h]

/-- A list is the table of its own cells. -/
theorem tabulate_cell (xs : List α) : tabulate xs.length (cell xs) = xs := by
  apply ext_cell (by simp)
  intro i hi
  rw [length_tabulate] at hi
  exact cell_tabulate _ hi

/-- Functions equal below `n` give equal tables. -/
theorem tabulate_congr {n : ℕ} {f g : ℕ → α} (h : ∀ i < n, f i = g i) : tabulate n f = tabulate n g := by
  apply ext_cell (by simp)
  intro i hi
  rw [length_tabulate] at hi
  rw [cell_tabulate f hi, cell_tabulate g hi, h i hi]

@[simp] theorem cell_nil (i : ℕ) : cell ([] : List α) i = 0 := by
  simp [cell]

@[simp] theorem cell_cons_zero (x : α) (xs : List α) : cell (x :: xs) 0 = x := rfl

@[simp] theorem cell_cons_succ (x : α) (xs : List α) (i : ℕ) : cell (x :: xs) (i + 1) = cell xs i := rfl

theorem cell_append_left {xs ys : List α} {i : ℕ} (h : i < xs.length) : cell (xs ++ ys) i = cell xs i := by
  simp [cell, List.getElem?_append_left h]

theorem cell_append_right {xs ys : List α} {i : ℕ} (h : xs.length ≤ i) :
    cell (xs ++ ys) i = cell ys (i - xs.length) := by
  simp [cell, List.getElem?_append_right h]

theorem cell_take {xs : List α} {n i : ℕ} (h : i < n) : cell (xs.take n) i = cell xs i := by
  simp [cell, h]

theorem cell_drop (xs : List α) (n i : ℕ) : cell (xs.drop n) i = cell xs (n + i) := by
  simp [cell]

/-- A written cell reads back, every other is unchanged. -/
theorem cell_set {xs : List α} {i : ℕ} (hi : i < xs.length) (v : α) (j : ℕ) : cell (xs.set i v) j = if j = i then v else cell xs j := by
  unfold cell
  by_cases h : j = i
  · subst h
    rw [if_pos rfl, List.getD_eq_getElem _ _ (by simpa using hi), List.getElem_set_self]
  · rw [if_neg h, List.getD_eq_getElem?_getD, List.getElem?_set_ne (Ne.symm h), List.getD_eq_getElem?_getD]

theorem cell_replicate {n i : ℕ} (h : i < n) (v : α) : cell (List.replicate n v) i = v := by
  simp [cell, h]

@[simp] theorem cell_replicate_zero (n i : ℕ) : cell (List.replicate n (0 : α)) i = 0 := by
  by_cases h : i < n
  · simp [cell, h]
  · exact cell_of_le (by simpa using h)

/-- Zeros appended to a list change no cell. -/
theorem cell_pad (xs : List α) (n i : ℕ) : cell (xs ++ List.replicate n (0 : α)) i = cell xs i := by
  by_cases h : i < xs.length
  · exact cell_append_left h
  · rw [cell_append_right (by omega), cell_replicate_zero, cell_of_le (by omega)]

theorem cell_map {β : Type} [Zero β] {f : α → β} {xs : List α} {i : ℕ} (h : i < xs.length) :
    cell (xs.map f) i = f (cell xs i) := by
  rw [cell_eq_getElem (by simpa using h), cell_eq_getElem h, List.getElem_map]

/-- A map that keeps zero commutes with reading any cell. -/
theorem cell_map_zero {β : Type} [Zero β] {f : α → β} (hf : f 0 = 0) (xs : List α) (i : ℕ) :
    cell (xs.map f) i = f (cell xs i) := by
  by_cases h : i < xs.length
  · exact cell_map h
  · rw [cell_of_le (by simpa using h), cell_of_le (by omega), hf]

theorem cell_zipWith {β γ : Type} [Zero β] [Zero γ] {f : α → β → γ} {xs : List α} {ys : List β} {i : ℕ}
    (hx : i < xs.length) (hy : i < ys.length) : cell (List.zipWith f xs ys) i = f (cell xs i) (cell ys i) := by
  rw [cell_eq_getElem (by simp; omega), cell_eq_getElem hx, cell_eq_getElem hy, List.getElem_zipWith]

end Cell

/-! ## Rows -/

/-- `xs` cut into `r` consecutive rows of `c` values. -/
def rowsOf {α : Type} (r c : ℕ) (xs : List α) : List (List α) := (List.range r).map fun i => (xs.drop (i * c)).take c

@[simp] theorem length_rowsOf {α : Type} (r c : ℕ) (xs : List α) : (rowsOf r c xs).length = r := by
  simp [rowsOf]

/-- Every row is `c` wide when the list holds `r` of them. -/
theorem length_of_mem_rowsOf {α : Type} {r c : ℕ} {xs : List α} (h : r * c ≤ xs.length) :
    ∀ row ∈ rowsOf r c xs, row.length = c := by
  intro row hrow
  simp only [rowsOf, List.mem_map, List.mem_range] at hrow
  obtain ⟨i, hi, rfl⟩ := hrow
  have : (i + 1) * c ≤ r * c := Nat.mul_le_mul_right c hi
  rw [Nat.add_mul, Nat.one_mul] at this
  rw [List.length_take, List.length_drop]
  omega

/-- Rows of two lists joined on a row boundary. -/
theorem rowsOf_append {α : Type} {q r c : ℕ} {xs ys : List α} (h : xs.length = q * c) :
    rowsOf (q + r) c (xs ++ ys) = rowsOf q c xs ++ rowsOf r c ys := by
  rw [rowsOf, rowsOf, rowsOf, List.range_add, List.map_append, List.map_map]
  congr 1
  · apply List.map_congr_left
    intro i hi
    have : (i + 1) * c ≤ q * c := Nat.mul_le_mul_right c (List.mem_range.1 hi)
    rw [Nat.add_mul, Nat.one_mul] at this
    rw [List.drop_append_of_le_length (by omega), List.take_append_of_le_length (by rw [List.length_drop]; omega)]
  · apply List.map_congr_left
    intro i _
    rw [Function.comp_apply, Nat.add_mul, ← h, List.drop_append, List.drop_eq_nil_of_le (by omega), List.nil_append,
      Nat.add_sub_cancel_left]

/-- Row `i` of a cut list. -/
theorem getD_rowsOf {α : Type} {r c i : ℕ} (xs : List α) (h : i < r) :
    (rowsOf r c xs).getD i [] = (xs.drop (i * c)).take c := by
  simp [rowsOf, h]

/-- Rows of one width, joined: the length. -/
theorem length_flatten_of_width {α : Type} {L : List (List α)} {c : ℕ} (h : ∀ row ∈ L, row.length = c) :
    L.flatten.length = L.length * c := by
  induction L with
  | nil => simp
  | cons row L ih =>
    rw [List.flatten_cons, List.length_append, ih (fun r hr => h r (List.mem_cons_of_mem _ hr)),
      h row (by simp), List.length_cons, Nat.add_mul, Nat.one_mul, Nat.add_comm]

/-- Dropping whole rows of a joined list. -/
theorem drop_flatten {α : Type} {L : List (List α)} {c : ℕ} (h : ∀ row ∈ L, row.length = c) (n : ℕ) :
    L.flatten.drop (n * c) = (L.drop n).flatten := by
  induction n generalizing L with
  | zero => simp
  | succ n ih =>
    cases L with
    | nil => simp
    | cons row L =>
      have hrow : row.length = c := h row (by simp)
      rw [List.flatten_cons, List.drop_succ_cons, ← ih fun r hr => h r (List.mem_cons_of_mem _ hr), List.drop_append,
        List.drop_eq_nil_of_le (by rw [hrow, Nat.add_mul]; omega), hrow, Nat.add_mul, Nat.one_mul, Nat.add_sub_cancel,
        List.nil_append]

/-- Taking whole rows of a joined list. -/
theorem take_flatten {α : Type} {L : List (List α)} {c : ℕ} (h : ∀ row ∈ L, row.length = c) (n : ℕ) :
    L.flatten.take (n * c) = (L.take n).flatten := by
  induction n generalizing L with
  | zero => simp
  | succ n ih =>
    cases L with
    | nil => simp
    | cons row L =>
      have hrow : row.length = c := h row (by simp)
      have htl : ∀ r ∈ L, r.length = c := fun r hr => h r (List.mem_cons_of_mem _ hr)
      rw [List.flatten_cons, List.take_succ_cons, List.flatten_cons, ← ih htl, List.take_append, hrow,
        List.take_of_length_le (by rw [hrow, Nat.add_mul]; omega)]
      congr 2
      rw [Nat.add_mul, Nat.one_mul, Nat.add_sub_cancel]

/-- Joining rows and cutting the result again gives the rows back. -/
theorem rowsOf_flatten {α : Type} {L : List (List α)} {c : ℕ} (h : ∀ row ∈ L, row.length = c) :
    rowsOf L.length c L.flatten = L := by
  apply List.ext_getElem (by simp)
  intro i h1 h2
  have hone := take_flatten (fun r hr => h r (List.mem_of_mem_drop (i := i) hr)) 1
  have hrow : (L.drop i).take 1 = [L[i]] := by
    rw [List.drop_eq_getElem_cons h2]
    rfl
  rw [Nat.one_mul, ← drop_flatten h, hrow] at hone
  simp only [rowsOf, List.getElem_map, List.getElem_range]
  rw [hone, List.flatten_singleton]

section Rows

variable {α : Type} [Zero α]

theorem cell_rowsOf {r c i j : ℕ} (xs : List α) (hi : i < r) (hj : j < c) :
    cell ((rowsOf r c xs).getD i []) j = cell xs (i * c + j) := by
  rw [getD_rowsOf xs hi, cell_take hj, cell_drop]

/-- Rows of one width, joined: the cell at `i` is place `i % c` of row `i / c`. -/
theorem cell_flatten {L : List (List α)} {c : ℕ} (hc : 0 < c) (h : ∀ row ∈ L, row.length = c) (i : ℕ) :
    cell L.flatten i = cell (L.getD (i / c) []) (i % c) := by
  induction L generalizing i with
  | nil => simp
  | cons row L ih =>
    have hrow : row.length = c := h row (by simp)
    have htl : ∀ r ∈ L, r.length = c := fun r hr => h r (List.mem_cons_of_mem _ hr)
    rw [List.flatten_cons]
    by_cases hi : i < c
    · rw [cell_append_left (by omega), Nat.div_eq_of_lt hi, Nat.mod_eq_of_lt hi]
      rfl
    · have hi' : c ≤ i := by omega
      rw [cell_append_right (by omega), ih htl, hrow, Nat.mod_eq_sub_mod hi']
      have hd : i / c = (i - c) / c + 1 := by
        conv_lhs => rw [← Nat.sub_add_cancel hi', Nat.add_div_right _ hc]
      rw [hd]
      rfl

/-- Cutting a list into rows and joining them gives the list back. -/
theorem flatten_rowsOf {r c : ℕ} {xs : List α} (h : xs.length = r * c) : (rowsOf r c xs).flatten = xs := by
  have hw := @length_of_mem_rowsOf _ r c xs (by omega)
  rcases Nat.eq_zero_or_pos c with rfl | hc
  · have hnil : xs = [] := List.eq_nil_of_length_eq_zero (by rw [h, Nat.mul_zero])
    subst hnil
    simp [rowsOf]
  apply ext_cell
  · rw [length_flatten_of_width hw, length_rowsOf, h]
  · intro i hi
    rw [length_flatten_of_width hw, length_rowsOf] at hi
    rw [cell_flatten hc hw, cell_rowsOf xs ((Nat.div_lt_iff_lt_mul hc).2 hi) (Nat.mod_lt i hc), Nat.div_add_mod']

/-- A map over the rows of a cut list, joined, when the map keeps the width: the cell at `i`. -/
theorem cell_flatten_map_rowsOf {r c i : ℕ} {xs : List α} {f : List α → List α} (hc : 0 < c)
    (hf : ∀ row, row.length = c → (f row).length = c) (h : r * c ≤ xs.length) (hi : i < r * c) :
    cell ((rowsOf r c xs).map f).flatten i = cell (f ((xs.drop (i / c * c)).take c)) (i % c) := by
  have hw : ∀ row ∈ (rowsOf r c xs).map f, row.length = c := by
    intro row hrow
    obtain ⟨row', hrow', rfl⟩ := List.mem_map.1 hrow
    exact hf row' (length_of_mem_rowsOf h row' hrow')
  have hr : i / c < r := (Nat.div_lt_iff_lt_mul hc).2 hi
  rw [cell_flatten hc hw]
  simp [rowsOf, hr]

end Rows

/-! ## Gathering rows -/

/-- The rows gathered have the width of the table. -/
theorem length_gather {α : Type} {cb : List (List α)} {idxs : List ℕ} {c : ℕ} (hw : ∀ row ∈ cb, row.length = c)
    (hidx : ∀ j ∈ idxs, j < cb.length) : (idxs.map fun j => cb.getD j []).flatten.length = idxs.length * c := by
  rw [length_flatten_of_width (c := c), List.length_map]
  intro row hrow
  obtain ⟨j, hj, rfl⟩ := List.mem_map.1 hrow
  have hj' := hidx j hj
  rw [List.getD_eq_getElem _ _ hj']
  exact hw _ (List.getElem_mem hj')

section Gather

variable {α : Type} [Zero α]

/-- The rows of a table named by a list of indices, joined: the cell at `i` is place `i % c` of the row the index `i / c`
names. -/
theorem cell_gather {cb : List (List α)} {idxs : List ℕ} {c i : ℕ} (hc : 0 < c) (hw : ∀ row ∈ cb, row.length = c)
    (hidx : ∀ j ∈ idxs, j < cb.length) (hi : i < idxs.length * c) :
    cell (idxs.map fun j => cb.getD j []).flatten i = cell (cb.getD (cell idxs (i / c)) []) (i % c) := by
  have hr : i / c < idxs.length := (Nat.div_lt_iff_lt_mul hc).2 hi
  have hw' : ∀ row ∈ idxs.map fun j => cb.getD j [], row.length = c := by
    intro row hrow
    obtain ⟨j, hj, rfl⟩ := List.mem_map.1 hrow
    have hj' := hidx j hj
    rw [List.getD_eq_getElem _ _ hj']
    exact hw _ (List.getElem_mem hj')
  rw [cell_flatten hc hw']
  simp [cell, hr]

end Gather

/-! ## Scaling rows -/

section Scale

variable {α : Type} [MulZeroClass α]

/-- Each row of `c` values times the factor of that row. -/
def scaleRows (c : ℕ) (xs ss : List α) : List α :=
  (List.zipWith (fun row s => row.map (· * s)) (rowsOf ss.length c xs) ss).flatten

/-- Scaling a row keeps its width. -/
theorem scaleRows_width {c : ℕ} {xs ss : List α} (h : ss.length * c ≤ xs.length) :
    ∀ row ∈ List.zipWith (fun row s => row.map (· * s)) (rowsOf ss.length c xs) ss, row.length = c := by
  intro row hrow
  obtain ⟨i, hi, rfl⟩ := List.getElem_of_mem hrow
  rw [List.getElem_zipWith, List.length_map]
  exact length_of_mem_rowsOf h _ (List.getElem_mem _)

theorem length_scaleRows {c : ℕ} {xs ss : List α} (h : ss.length * c ≤ xs.length) :
    (scaleRows c xs ss).length = ss.length * c := by
  rw [scaleRows, length_flatten_of_width (scaleRows_width h), List.length_zipWith, length_rowsOf, Nat.min_self]

/-- A scaled cell is the cell times its row's scale. -/
theorem cell_scaleRows {c i : ℕ} {xs ss : List α} (hc : 0 < c) (h : ss.length * c ≤ xs.length) (hi : i < ss.length * c) :
    cell (scaleRows c xs ss) i = cell xs i * cell ss (i / c) := by
  have hr : i / c < ss.length := (Nat.div_lt_iff_lt_mul hc).2 hi
  have hrow : (rowsOf ss.length c xs).get ⟨i / c, by rw [length_rowsOf]; exact hr⟩ = (xs.drop (i / c * c)).take c := by
    simp [rowsOf]
  rw [List.get_eq_getElem] at hrow
  rw [scaleRows, cell_flatten hc (scaleRows_width h)]
  rw [List.getD_eq_getElem _ _ (by simpa using hr), List.getElem_zipWith, hrow,
    cell_map_zero (show (fun x => x * ss[i / c]) 0 = 0 from zero_mul _), cell_take (Nat.mod_lt i hc), cell_drop,
    Nat.div_add_mod', cell_eq_getElem hr]

end Scale

/-! ## Keeping entries -/

/-- Taking the entries of a list one after another gives the list. -/
theorem filterMap_range_getElem? {β : Type} (ws : List β) : ((List.range ws.length).filterMap fun k => ws[k]?) = ws := by
  induction ws with
  | nil => rfl
  | cons w ws ih =>
    have hhead : (w :: ws)[0]? = some w := rfl
    rw [List.length_cons, List.range_succ_eq_map, List.filterMap_cons, hhead, List.filterMap_map]
    exact congrArg (w :: ·) ih

/-- The sum over what a partial map keeps. -/
theorem sum_filterMap {ι α β : Type} [AddMonoid α] (g : ι → Option β) (h : β → α) (xs : List ι) :
    ((xs.filterMap g).map h).sum = (xs.map fun x => (g x).elim 0 h).sum := by
  induction xs with
  | nil => rfl
  | cons x xs ih =>
    rw [List.filterMap_cons, List.map_cons, List.sum_cons, ← ih]
    cases g x with
    | none => rw [Option.elim_none, zero_add]
    | some v => rw [List.map_cons, List.sum_cons, Option.elim_some]

/-! ## Writing at positions -/

section Scatter

variable {α : Type}

/-- Write values at positions, one after another: where a position comes twice, the later value stays. -/
def scatter (xs : List α) (ws : List (ℕ × α)) : List α := ws.foldl (fun acc w => acc.set w.1 w.2) xs

/-- The value a run of writes leaves at a position, if it writes there. -/
def lastWrite (ws : List (ℕ × α)) (p : ℕ) : Option α := (ws.reverse.find? fun w => w.1 == p).map Prod.snd

@[simp] theorem length_scatter (xs : List α) (ws : List (ℕ × α)) : (scatter xs ws).length = xs.length := by
  induction ws generalizing xs with
  | nil => rfl
  | cons w ws ih => exact (ih (xs.set w.1 w.2)).trans (by simp)

/-- A later write to the same place goes before the first. -/
theorem lastWrite_cons (w : ℕ × α) (ws : List (ℕ × α)) (p : ℕ) :
    lastWrite (w :: ws) p = (lastWrite ws p).or (if w.1 = p then some w.2 else none) := by
  unfold lastWrite
  rw [List.reverse_cons, List.find?_append]
  cases (ws.reverse.find? fun w => w.1 == p) with
  | some v => simp
  | none =>
    by_cases h : w.1 = p <;> simp [h]

/-- Writes after writes: the later run decides, where it writes. -/
theorem lastWrite_append (ws ws' : List (ℕ × α)) (p : ℕ) : lastWrite (ws ++ ws') p = (lastWrite ws' p).or (lastWrite ws p) := by
  induction ws with
  | nil => simp [lastWrite]
  | cons w ws ih => rw [List.cons_append, lastWrite_cons, ih, lastWrite_cons, Option.or_assoc]

/-- Only the writes of a place count for it. -/
theorem lastWrite_filter (ws : List (ℕ × α)) (p : ℕ) : lastWrite (ws.filter fun w => w.1 = p) p = lastWrite ws p := by
  induction ws with
  | nil => rfl
  | cons w ws ih =>
    by_cases h : w.1 = p
    · rw [List.filter_cons_of_pos (by simpa using h), lastWrite_cons, lastWrite_cons, ih]
    · rw [List.filter_cons_of_neg (by simpa using h), lastWrite_cons, ih, if_neg h, Option.or_none]

/-- Writes of values that are a function of their places. -/
theorem lastWrite_map (f : ℕ → α) (ps : List ℕ) (p : ℕ) :
    lastWrite (ps.map fun p => (p, f p)) p = if p ∈ ps then some (f p) else none := by
  induction ps with
  | nil => rfl
  | cons q ps ih =>
    rw [List.map_cons, lastWrite_cons, ih]
    by_cases hp : p ∈ ps
    · simp [hp]
    · by_cases hq : q = p
      · subst hq
        simp [hp]
      · simp [hp, hq, Ne.symm hq]

/-- Where no position comes twice, a write is the last one at its position. -/
theorem lastWrite_of_mem {ws : List (ℕ × α)} (hn : (ws.map Prod.fst).Nodup) {p : ℕ} {v : α} (h : (p, v) ∈ ws) :
    lastWrite ws p = some v := by
  induction ws with
  | nil => cases h
  | cons w ws ih =>
    rw [List.map_cons, List.nodup_cons] at hn
    rw [lastWrite_cons]
    rcases List.mem_cons.1 h with rfl | h
    · have hnone : lastWrite ws p = none := by
        unfold lastWrite
        rw [Option.map_eq_none_iff, List.find?_eq_none]
        intro w hw hp
        exact hn.1 (List.mem_map.2 ⟨w, List.mem_reverse.1 hw, by simpa using hp⟩)
      rw [hnone]
      simp
    · rw [ih hn.2 h]
      rfl

/-- A place no write names has no last write. -/
theorem lastWrite_eq_none {ws : List (ℕ × α)} {p : ℕ} (h : ∀ w ∈ ws, w.1 ≠ p) : lastWrite ws p = none := by
  unfold lastWrite
  rw [Option.map_eq_none_iff, List.find?_eq_none]
  intro w hw
  simpa using h w (List.mem_reverse.1 hw)

/-- The last write at a position is one of the writes. -/
theorem mem_of_lastWrite {ws : List (ℕ × α)} {p : ℕ} {v : α} (h : lastWrite ws p = some v) : (p, v) ∈ ws := by
  unfold lastWrite at h
  obtain ⟨w, hw, rfl⟩ := Option.map_eq_some_iff.1 h
  have hp : w.1 = p := by simpa using List.find?_some hw
  rw [← hp]
  exact List.mem_reverse.1 (List.mem_of_find?_eq_some hw)

/-- Where there is a last write at no place, nothing was written there. -/
theorem ne_of_lastWrite_eq_none {ws : List (ℕ × α)} {p : ℕ} (h : lastWrite ws p = none) {w : ℕ × α} (hw : w ∈ ws) :
    w.1 ≠ p := by
  unfold lastWrite at h
  rw [Option.map_eq_none_iff, List.find?_eq_none] at h
  simpa using h w (List.mem_reverse.2 hw)

/-- A place after a run of writes: the last value written there, else what was there. -/
theorem getD_scatter (d : α) (xs : List α) (ws : List (ℕ × α)) {i : ℕ} (hi : i < xs.length) :
    (scatter xs ws).getD i d = (lastWrite ws i).getD (xs.getD i d) := by
  induction ws generalizing xs with
  | nil => rfl
  | cons w ws ih =>
    have hstep : scatter xs (w :: ws) = scatter (xs.set w.1 w.2) ws := rfl
    rw [hstep, ih _ (by simpa using hi), lastWrite_cons]
    cases lastWrite ws i with
    | some v => rfl
    | none =>
      by_cases h : w.1 = i
      · subst h
        simp [hi]
      · simp [h, List.getElem?_set_ne h]

theorem cell_scatter [Zero α] (xs : List α) (ws : List (ℕ × α)) {i : ℕ} (hi : i < xs.length) :
    cell (scatter xs ws) i = (lastWrite ws i).getD (cell xs i) := getD_scatter 0 xs ws hi

/-- Where no position comes twice, the order of the writes does not matter. -/
theorem scatter_perm [Zero α] (xs : List α) {ws ws' : List (ℕ × α)} (hn : (ws.map Prod.fst).Nodup) (h : ws.Perm ws') :
    scatter xs ws = scatter xs ws' := by
  have hn' : (ws'.map Prod.fst).Nodup := (h.map Prod.fst).nodup_iff.1 hn
  apply ext_cell (by simp)
  intro i hi
  rw [length_scatter] at hi
  rw [cell_scatter _ _ hi, cell_scatter _ _ hi]
  congr 1
  by_cases hw : ∃ v, (i, v) ∈ ws
  · obtain ⟨v, hv⟩ := hw
    rw [lastWrite_of_mem hn hv, lastWrite_of_mem hn' (h.mem_iff.1 hv)]
  · rw [lastWrite_eq_none, lastWrite_eq_none]
    · intro w hwm he
      exact hw ⟨w.2, by rw [← he]; exact h.mem_iff.2 hwm⟩
    · intro w hwm he
      exact hw ⟨w.2, by rw [← he]; exact hwm⟩

end Scatter

end Flat
