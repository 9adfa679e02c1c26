import Orka.Lemmas.Runtime
import Orka.Manifest

/-!
# What the readers return

The sizes of what a reader returns, when it returns.
-/

namespace Orka

open Flat Steps

/-- Writing a slice keeps the length. -/
theorem length_of_setSlice {α : Type} {out vals r : List α} {a b : ℕ} (h : setSlice out a b vals = .ok r) : r.length = out.length := by
  unfold setSlice at h
  simp only at h
  split at h
  · next hlen =>
    obtain rfl := Except.ok.inj h
    simp only [List.length_append, List.length_take, List.length_drop]
    omega
  · split at h
    · obtain rfl := Except.ok.inj h
      simp only [List.length_append, List.length_take, List.length_replicate, List.length_drop]
      omega
    · cases h

/-- Unpacking fills the array it is given. -/
theorem length_of_unpackLoop {raw : List ℕ} {bits count chunkRows : ℕ} {starts : List ℕ} {out r : List ℤ}
    (h : unpackLoop raw bits count chunkRows starts out = .ok r) : r.length = out.length := by
  induction starts generalizing out with
  | nil =>
    obtain rfl := Except.ok.inj h
    rfl
  | cons i starts ih =>
    rw [unpackLoop] at h
    obtain ⟨rows, -, h⟩ := bind_eq_ok.1 h
    obtain ⟨mid, hmid, h⟩ := bind_eq_ok.1 h
    rw [ih h, length_of_setSlice hmid]

/-- As many indices are unpacked as are asked for. -/
theorem length_of_unpackIndices {packed : List ℕ} {bits count chunkRows : ℕ} {r : List ℤ}
    (h : unpackIndices packed bits count chunkRows = .ok r) : r.length = count := by
  unfold unpackIndices at h
  split at h
  · next h0 =>
    obtain rfl := Except.ok.inj h
    exact h0.symm
  · obtain ⟨starts, -, h⟩ := bind_eq_ok.1 h
    rw [length_of_unpackLoop h, List.length_replicate]

section Files

variable {α : Type} {num : Numerics α} {store : Store α}

/-- As many indices are read as are asked for. -/
theorem length_of_readIndices {path : String} {indexBits expectedCount : ℕ} {packed : Bool} {encoding : Encoding} {idxs : List ℤ}
    (h : readIndices num store path indexBits expectedCount packed encoding = .ok idxs) : idxs.length = expectedCount := by
  unfold readIndices at h
  obtain ⟨f, -, h⟩ := bind_eq_ok.1 h
  obtain ⟨raw, -, h⟩ := bind_eq_ok.1 h
  cases packed with
  | true =>
    rw [if_pos rfl] at h
    exact length_of_unpackIndices h
  | false =>
    rw [if_neg Bool.false_ne_true] at h
    obtain ⟨k, -, h⟩ := bind_eq_ok.1 h
    obtain ⟨arr, -, h⟩ := bind_eq_ok.1 h
    split at h
    · cases h
    · next hlen =>
      obtain rfl := Except.ok.inj h
      rw [List.length_map]
      exact not_not.1 hlen

/-- A stage reads one index for every group. -/
theorem length_of_readStageArrays [Ring α] {stage : StageMeta} {groupSize paddedValues : ℕ} {cb : List (List α)} {idxs : List ℤ}
    (h : readStageArrays num store stage groupSize paddedValues = .ok (cb, idxs)) :
    idxs.length = ceilDiv paddedValues (stage.groupSize.getD groupSize) := by
  unfold readStageArrays at h
  simp only at h
  split at h
  · cases h
  obtain ⟨cb', -, h⟩ := bind_eq_ok.1 h
  obtain ⟨idxs', hidxs, h⟩ := map_eq_ok.1 h
  obtain ⟨rfl, rfl⟩ := Prod.mk.inj h
  exact length_of_readIndices hidxs

/-- Positions and values are read in equal number. -/
theorem length_of_readOutliers {idxPath valPath : String} {count : ℕ} {positionDtype : UnsignedDtype} {valueDtype : FloatDtype}
    {positions : List ℤ} {values : List α}
    (h : readOutliers num store idxPath valPath count positionDtype valueDtype = .ok (positions, values)) :
    positions.length = values.length := by
  obtain ⟨delta, -, h⟩ := bind_eq_ok.1 h
  obtain ⟨vals, -, h⟩ := bind_eq_ok.1 h
  split at h
  · cases h
  · next hlen =>
    obtain ⟨rfl, rfl⟩ := Prod.mk.inj (Except.ok.inj h)
    rw [List.length_map, cumsum, length_tabulate]
    exact not_not.1 hlen

end Files

end Orka
