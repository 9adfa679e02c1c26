import Orka.Lib.Flat

/-!
# Insertion-ordered dictionaries

A dictionary that keeps its keys in the order they first came and the last value each was given, as a list of pairs.
-/

namespace Dict

open Flat

variable {α : Type}

/-- `d[k] = v`. -/
def set (d : List (ℕ × α)) (k : ℕ) (v : α) : List (ℕ × α) :=
  if k ∈ d.map Prod.fst then d.map fun w => if w.1 = k then (k, v) else w else d ++ [(k, v)]

/-- `d.update(ws)`. -/
def update (d ws : List (ℕ × α)) : List (ℕ × α) := ws.foldl (fun d w => set d w.1 w.2) d

/-- Setting a key keeps the order of the keys, a new one last. -/
theorem keys_set (d : List (ℕ × α)) (k : ℕ) (v : α) :
    (set d k v).map Prod.fst = if k ∈ d.map Prod.fst then d.map Prod.fst else d.map Prod.fst ++ [k] := by
  unfold set
  split
  · rw [List.map_map]
    refine List.map_congr_left fun w _ => ?_
    simp only [Function.comp_apply]
    split
    · next h => exact h.symm
    · rfl
  · simp

/-- No key is there twice. -/
theorem nodup_set {d : List (ℕ × α)} (h : (d.map Prod.fst).Nodup) (k : ℕ) (v : α) : ((set d k v).map Prod.fst).Nodup := by
  rw [keys_set]
  split
  · exact h
  · next hk => exact List.Nodup.append h (List.nodup_singleton k) (List.disjoint_singleton.2 hk)

/-- No key comes twice. -/
theorem nodup_update {d : List (ℕ × α)} (h : (d.map Prod.fst).Nodup) (ws : List (ℕ × α)) :
    ((update d ws).map Prod.fst).Nodup := by
  induction ws generalizing d with
  | nil => exact h
  | cons w ws ih => exact ih (nodup_set h w.1 w.2)

/-- After a key is set the other entries are as before. -/
theorem mem_set {d : List (ℕ × α)} {k : ℕ} {v : α} {w : ℕ × α} :
    w ∈ set d k v ↔ w = (k, v) ∨ (w ∈ d ∧ w.1 ≠ k) := by
  unfold set
  split
  · next hk =>
    rw [List.mem_map]
    constructor
    · rintro ⟨u, hu, rfl⟩
      split
      · exact .inl rfl
      · next hne => exact .inr ⟨hu, hne⟩
    · rintro (rfl | ⟨hw, hne⟩)
      · obtain ⟨u, hu, he⟩ := List.mem_map.1 hk
        exact ⟨u, hu, if_pos he⟩
      · exact ⟨w, hw, if_neg hne⟩
  · next hk =>
    rw [List.mem_append, List.mem_singleton]
    constructor
    · rintro (hw | rfl)
      · exact .inr ⟨hw, fun he => hk (List.mem_map.2 ⟨w, hw, he⟩)⟩
      · exact .inl rfl
    · rintro (rfl | ⟨hw, -⟩)
      · exact .inr rfl
      · exact .inl hw

/-- **What an updated dictionary holds**: the last write of each key, else what was there. -/
theorem mem_update {d ws : List (ℕ × α)} {w : ℕ × α} :
    w ∈ update d ws ↔ lastWrite ws w.1 = some w.2 ∨ (w ∈ d ∧ lastWrite ws w.1 = none) := by
  induction ws generalizing d with
  | nil => simp [update, lastWrite]
  | cons u ws ih =>
    show w ∈ update (set d u.1 u.2) ws ↔ _
    rw [ih, mem_set, lastWrite_cons]
    cases hl : lastWrite ws w.1 with
    | some v => simp
    | none =>
      by_cases h : u.1 = w.1
      · obtain ⟨k, v⟩ := w
        obtain ⟨k', v'⟩ := u
        simp only at h
        subst h
        simp [eq_comm]
      · simp only [if_neg h, Option.or_none, reduceCtorEq, false_or, and_true]
        constructor
        · rintro (rfl | ⟨hw, -⟩)
          · exact absurd rfl h
          · exact hw
        · exact fun hw => .inr ⟨hw, fun he => h he.symm⟩

/-- A dictionary built from nothing holds the last write of each key. -/
theorem mem_update_nil {ws : List (ℕ × α)} {w : ℕ × α} : w ∈ update [] ws ↔ lastWrite ws w.1 = some w.2 := by
  rw [mem_update]
  simp

end Dict
