import Orka.Runtime

/-!
# When calls return

What an indexing, a gather or an addition in place that returns has checked, and when each returns.
-/

namespace Orka

open Flat Steps

theorem axisIndex_of_nonneg {n : ℕ} {i : ℤ} (h0 : 0 ≤ i) (hn : i < n) : axisIndex n i = .ok i.toNat := by
  simp only [axisIndex, if_neg (not_lt.2 h0), if_pos (And.intro h0 hn)]

/-- A negative index counts from the end. -/
theorem axisIndex_of_neg {n : ℕ} {i : ℤ} (h0 : i < 0) (hn : -n ≤ i) : axisIndex n i = .ok (i + n).toNat := by
  simp only [axisIndex, if_pos h0]
  rw [if_pos (by omega)]

/-- An index names a place of an axis exactly from minus its length up to its length. -/
theorem exists_axisIndex_iff {n : ℕ} {i : ℤ} : (∃ j, axisIndex n i = .ok j) ↔ -n ≤ i ∧ i < n := by
  constructor
  · rintro ⟨j, h⟩
    by_contra hout
    rw [axisIndex, if_neg] at h
    · cases h
    · split <;> omega
  · rintro ⟨h1, h2⟩
    rcases lt_or_ge i 0 with h0 | h0
    · exact ⟨_, axisIndex_of_neg h0 h1⟩
    · exact ⟨_, axisIndex_of_nonneg h0 h2⟩

/-- What an index names is inside. -/
theorem lt_of_axisIndex {n j : ℕ} {i : ℤ} (h : axisIndex n i = .ok j) : j < n := by
  obtain ⟨h1, h2⟩ := exists_axisIndex_iff.1 ⟨j, h⟩
  rcases lt_or_ge i 0 with h0 | h0
  · rw [axisIndex_of_neg h0 h1] at h
    obtain rfl := Except.ok.inj h
    omega
  · rw [axisIndex_of_nonneg h0 h2] at h
    obtain rfl := Except.ok.inj h
    omega

/-- A slice counts from its start. -/
theorem cell_slice {β : Type} [Zero β] {t : List β} {i j r : ℕ} (h : r < j - i) : cell (slice t i j) r = cell t (i + r) := by
  rw [slice, cell_take h, cell_drop]

theorem length_slice {β : Type} {t : List β} {i j : ℕ} (h : j ≤ t.length) : (slice t i j).length = j - i := by
  rw [slice, List.length_take, List.length_drop]
  omega

section Rows

variable {α : Type}

/-- A gather gives rows of the table. -/
theorem length_of_takeRows {table rows : List (List α)} {idxs : List ℤ} {c : ℕ} (hw : ∀ row ∈ table, row.length = c)
    (h : takeRows table idxs = .ok rows) : rows.flatten.length = idxs.length * c := by
  induction idxs generalizing rows with
  | nil =>
    obtain rfl := Except.ok.inj h
    simp
  | cons i idxs ih =>
    rw [takeRows, mapM_cons_eq] at h
    obtain ⟨row, hrow, h⟩ := bind_eq_ok.1 h
    obtain ⟨rest, hrest, rfl⟩ := map_eq_ok.1 h
    obtain ⟨j, hj, rfl⟩ := map_eq_ok.1 hrow
    have hlt : j < table.length := lt_of_axisIndex hj
    have hwidth : (table.getD j []).length = c := by
      rw [List.getD_eq_getElem _ _ hlt]
      exact hw _ (List.getElem_mem hlt)
    rw [List.flatten_cons, List.length_append, hwidth, ih hrest, List.length_cons, Nat.succ_mul, Nat.add_comm]

/-- A gather returns if every index names a row. -/
theorem exists_takeRows_iff {table : List (List α)} {idxs : List ℤ} :
    (∃ rows, takeRows table idxs = .ok rows) ↔ ∀ i ∈ idxs, -(table.length : ℤ) ≤ i ∧ i < table.length := by
  rw [takeRows, exists_mapM_eq_ok]
  refine forall₂_congr fun i _ => ?_
  rw [← exists_axisIndex_iff]
  constructor
  · rintro ⟨row, h⟩
    obtain ⟨j, hj, -⟩ := map_eq_ok.1 h
    exact ⟨j, hj⟩
  · rintro ⟨j, hj⟩
    exact ⟨_, by rw [hj, ok_map]⟩

/-- What a cut into rows of one width gives, and when it can be made. -/
theorem reshapeAuto_inv {c : ℕ} {xs : List α} {L : List (List α)} (h : reshapeAuto c xs = .ok L) :
    0 < c ∧ L.length * c = xs.length ∧ ∀ row ∈ L, row.length = c := by
  unfold reshapeAuto at h
  split at h
  · cases h
  · next hok =>
    obtain rfl := Except.ok.inj h
    have hdiv : xs.length / c * c = xs.length := Nat.div_mul_cancel (Nat.dvd_of_mod_eq_zero (by omega))
    exact ⟨by omega, by rw [length_rowsOf, hdiv], length_of_mem_rowsOf hdiv.le⟩

/-- An assignment of as many values as positions returns if the positions lie in the array. -/
theorem exists_assignAt_iff {xs values : List α} {positions : List ℤ} (hlen : positions.length = values.length) :
    (∃ ys, assignAt xs positions values = .ok ys) ↔ ∀ p ∈ positions, -(xs.length : ℤ) ≤ p ∧ p < xs.length := by
  have hmap : (∃ ys, assignAt xs positions values = .ok ys) ↔ ∃ ps, positions.mapM (axisIndex xs.length) = .ok ps := by
    unfold assignAt
    rw [if_pos hlen]
    constructor
    · rintro ⟨ys, h⟩
      obtain ⟨ps, hps, -⟩ := map_eq_ok.1 h
      exact ⟨ps, hps⟩
    · rintro ⟨ps, hps⟩
      exact ⟨_, by rw [hps, ok_map]⟩
  rw [hmap, exists_mapM_eq_ok]
  exact forall₂_congr fun p _ => exists_axisIndex_iff

/-- Assigning at positions keeps the length. -/
theorem length_of_assignAt {xs values ys : List α} {positions : List ℤ} (h : assignAt xs positions values = .ok ys) :
    ys.length = xs.length := by
  unfold assignAt at h
  split at h
  · obtain ⟨ps, -, rfl⟩ := map_eq_ok.1 h
    exact length_scatter ..
  · split at h
    · obtain ⟨ps, -, rfl⟩ := map_eq_ok.1 h
      exact length_scatter ..
    · cases h

/-- Adding in place keeps the length. -/
theorem length_of_addInto [Add α] {acc xs out : List α} (h : addInto acc xs = .ok out) : out.length = acc.length := by
  unfold addInto at h
  split at h
  · next hlen =>
    obtain rfl := Except.ok.inj h
    rw [List.length_zipWith, ← hlen, Nat.min_self]
  · split at h
    · obtain rfl := Except.ok.inj h
      exact List.length_map _
    · cases h

end Rows

end Orka
