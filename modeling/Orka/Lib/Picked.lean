import Orka.Lib.Flat

/-!
# Picking rows

The rows of a flat matrix that a list of row numbers names, joined. What is done place by place, row by row or block by block
can be done after the rows are picked.
-/

namespace Flat

/-- The rows `rs` of a matrix whose rows are `c` wide, joined. -/
def pick {α : Type} (c : ℕ) (rs : List ℕ) (xs : List α) : List α := (rs.map fun r => (xs.drop (r * c)).take c).flatten

section Pick

variable {α : Type} {c n : ℕ} {rs : List ℕ} {xs : List α}

/-- A row inside a matrix has the width of the matrix. -/
theorem length_row (h : n * c ≤ xs.length) {r : ℕ} (hr : r < n) : ((xs.drop (r * c)).take c).length = c := by
  have hle : (r + 1) * c ≤ n * c := Nat.mul_le_mul_right c hr
  rw [Nat.add_mul, Nat.one_mul] at hle
  rw [List.length_take, List.length_drop]
  omega

/-- Picked rows have the row's width. -/
theorem pick_width (h : n * c ≤ xs.length) (hr : ∀ r ∈ rs, r < n) :
    ∀ row ∈ rs.map fun r => (xs.drop (r * c)).take c, row.length = c := by
  intro row hrow
  obtain ⟨r, hmem, rfl⟩ := List.mem_map.1 hrow
  exact length_row h (hr r hmem)

theorem length_pick (h : n * c ≤ xs.length) (hr : ∀ r ∈ rs, r < n) : (pick c rs xs).length = rs.length * c := by
  rw [pick, length_flatten_of_width (pick_width h hr), List.length_map]

/-- Cutting what was picked gives the rows. -/
theorem rowsOf_pick (h : n * c ≤ xs.length) (hr : ∀ r ∈ rs, r < n) :
    rowsOf rs.length c (pick c rs xs) = rs.map fun r => (xs.drop (r * c)).take c := by
  have hcut := rowsOf_flatten (pick_width h hr)
  rwa [List.length_map] at hcut

/-- Picking commutes with a map. -/
theorem pick_map {β : Type} (f : α → β) (c : ℕ) (rs : List ℕ) (xs : List α) :
    pick c rs (xs.map f) = (pick c rs xs).map f := by
  simp [pick, List.map_flatten, Function.comp_def, List.map_take, List.map_drop]

theorem mem_of_mem_pick {x : α} (h : x ∈ pick c rs xs) : x ∈ xs := by
  obtain ⟨row, hrow, hx⟩ := List.mem_flatten.1 h
  obtain ⟨r, -, rfl⟩ := List.mem_map.1 hrow
  exact List.mem_of_mem_drop (List.mem_of_mem_take hx)

variable [Zero α]

/-- Place `i` of what was picked is place `i % c` of the row the list names at `i / c`. -/
theorem cell_pick (hc : 0 < c) (h : n * c ≤ xs.length) (hr : ∀ r ∈ rs, r < n) {i : ℕ} (hi : i < rs.length * c) :
    cell (pick c rs xs) i = cell xs (cell rs (i / c) * c + i % c) := by
  have hrow : i / c < rs.length := (Nat.div_lt_iff_lt_mul hc).2 hi
  rw [pick, cell_flatten hc (pick_width h hr)]
  rw [List.getD_eq_getElem _ _ (by simpa using hrow), List.getElem_map, cell_take (Nat.mod_lt i hc), cell_drop,
    cell_eq_getElem hrow]

/-- A row named by a list is a row of the matrix. -/
theorem cell_rows_lt (hc : 0 < c) (hr : ∀ r ∈ rs, r < n) {i : ℕ} (hi : i < rs.length * c) : cell rs (i / c) < n :=
  hr _ (cell_mem ((Nat.div_lt_iff_lt_mul hc).2 hi))

/-- Two matrices joined place by place. -/
theorem pick_zipWith (f : α → α → α) {ys : List α} (hx : xs.length = n * c) (hy : ys.length = n * c) (hr : ∀ r ∈ rs, r < n) :
    List.zipWith f (pick c rs xs) (pick c rs ys) = pick c rs (List.zipWith f xs ys) := by
  have hz : (List.zipWith f xs ys).length = n * c := by rw [List.length_zipWith, hx, hy, Nat.min_self]
  rcases Nat.eq_zero_or_pos c with rfl | hc
  · simp [pick]
  apply ext_cell
  · rw [List.length_zipWith, length_pick hx.ge hr, length_pick hy.ge hr, length_pick hz.ge hr, Nat.min_self]
  · intro i hi
    rw [List.length_zipWith, length_pick hx.ge hr, length_pick hy.ge hr, Nat.min_self] at hi
    have hlt := flat_lt (cell_rows_lt hc hr hi) (Nat.mod_lt i hc)
    rw [cell_zipWith (by rwa [length_pick hx.ge hr]) (by rwa [length_pick hy.ge hr]), cell_pick hc hx.ge hr hi,
      cell_pick hc hy.ge hr hi, cell_pick hc hz.ge hr hi, cell_zipWith (by rwa [hx]) (by rwa [hy])]

end Pick

/-- A gather from a table of rows `g` wide: `c` indices a row of the matrix. -/
theorem pick_gather {α : Type} {cb : List (List α)} {idx rs : List ℕ} {c g : ℕ} (hw : ∀ row ∈ cb, row.length = g)
    (hidx : ∀ j ∈ idx, j < cb.length) :
    (pick c rs idx).flatMap (fun j => cb.getD j []) = pick (c * g) rs (idx.map fun j => cb.getD j []).flatten := by
  have hall : ∀ row ∈ idx.map fun j => cb.getD j [], row.length = g := by
    intro row hrow
    obtain ⟨j, hj, rfl⟩ := List.mem_map.1 hrow
    rw [List.getD_eq_getElem _ _ (hidx j hj)]
    exact hw _ (List.getElem_mem _)
  induction rs with
  | nil => rfl
  | cons r rs ih =>
    have hhead : ((idx.drop (r * c)).take c).flatMap (fun j => cb.getD j []) =
        (((idx.map fun j => cb.getD j []).flatten.drop (r * (c * g))).take (c * g)) := by
      rw [← Nat.mul_assoc, drop_flatten hall, take_flatten fun row hrow => hall row (List.mem_of_mem_drop hrow),
        List.flatMap_def, ← List.map_drop, ← List.map_take]
    rw [pick, List.map_cons, List.flatten_cons, List.flatMap_append, hhead]
    have hrest : (rs.map fun r => (idx.drop (r * c)).take c).flatten = pick c rs idx := rfl
    rw [hrest, ih]
    rfl

/-- Rows cut into blocks, each block times its factor: `c` blocks of `b` values a row. -/
theorem pick_scaleRows {α : Type} [MulZeroClass α] {xs ss : List α} {b c n : ℕ} {rs : List ℕ} (hb : 0 < b)
    (hx : xs.length = n * (c * b)) (hs : ss.length = n * c) (hr : ∀ r ∈ rs, r < n) :
    scaleRows b (pick (c * b) rs xs) (pick c rs ss) = pick (c * b) rs (scaleRows b xs ss) := by
  have hsx : ss.length * b ≤ xs.length := by rw [hx, hs, Nat.mul_assoc]
  have hl : (scaleRows b xs ss).length = n * (c * b) := by rw [length_scaleRows hsx, hs, Nat.mul_assoc]
  have hp : (pick c rs ss).length * b ≤ (pick (c * b) rs xs).length := by
    rw [length_pick hs.ge hr, length_pick hx.ge hr, Nat.mul_assoc]
  rcases Nat.eq_zero_or_pos c with rfl | hc
  · apply ext_cell <;> simp [pick, scaleRows]
  have hcb : 0 < c * b := Nat.mul_pos hc hb
  apply ext_cell
  · rw [length_scaleRows hp, length_pick hs.ge hr, length_pick hl.ge hr, Nat.mul_assoc]
  · intro i hi
    rw [length_scaleRows hp, length_pick hs.ge hr] at hi
    have hi' : i < rs.length * (c * b) := by rwa [← Nat.mul_assoc]
    have hblock : i / b < rs.length * c := (Nat.div_lt_iff_lt_mul hb).2 hi
    have hrow : i / b / c = i / (c * b) := by rw [Nat.div_div_eq_div_mul, Nat.mul_comm b c]
    have hplace := flat_lt (cell_rows_lt hcb hr hi') (Nat.mod_lt i hcb)
    have hdiv : (cell rs (i / (c * b)) * (c * b) + i % (c * b)) / b = cell rs (i / (c * b)) * c + i / b % c := by
      rw [← Nat.mul_assoc, Nat.add_comm, Nat.add_mul_div_right _ _ hb, Nat.mul_comm c b, Nat.mod_mul_right_div_self,
        Nat.add_comm]
    rw [cell_scaleRows hb hp (by rwa [length_pick hs.ge hr]), cell_pick hcb hx.ge hr hi', cell_pick hc hs.ge hr hblock,
      cell_pick hcb hl.ge hr hi', cell_scaleRows hb hsx (by rwa [hs, Nat.mul_assoc]), hrow, hdiv]

end Flat
