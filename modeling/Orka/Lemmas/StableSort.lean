import Mathlib.Data.List.Sort
import Mathlib.Data.List.SplitLengths
import Mathlib.Order.Lattice
import Orka.Lib.Flat

/-!
# Stable sorting by a key

The entries of a stably sorted list come in runs, one for each key, each in the order it had.
-/

namespace Orka

open Flat

/-- `ys` are the entries of `xs` in the order of their keys, those of one key in the order they had. -/
structure StablySorted {β : Type} (key : β → ℕ) (xs ys : List β) : Prop where
  sorted : ys.Pairwise fun a b => key a ≤ key b
  stable : ∀ k, (ys.filter fun a => key a = k) = xs.filter fun a => key a = k

/-- Merge sort is stable. -/
theorem stablySorted_mergeSort {β : Type} (key : β → ℕ) (xs : List β) :
    StablySorted key xs (xs.mergeSort fun a b => key a ≤ key b) := by
  have htrans : ∀ a b c : β, decide (key a ≤ key b) = true → decide (key b ≤ key c) = true → decide (key a ≤ key c) = true := by
    intro a b c hab hbc
    exact decide_eq_true ((of_decide_eq_true hab).trans (of_decide_eq_true hbc))
  have htotal : ∀ a b : β, (decide (key a ≤ key b) || decide (key b ≤ key a)) = true := by
    intro a b
    simpa using le_total (key a) (key b)
  constructor
  · exact (List.pairwise_mergeSort htrans htotal xs).imp of_decide_eq_true
  · intro k
    -- entries of one key are in order before sorting, so they stay a sublist
    have hpairwise : (xs.filter fun a => key a = k).Pairwise fun a b => decide (key a ≤ key b) = true := by
      refine List.pairwise_of_forall_mem_list fun a ha b hb => ?_
      have ha := of_decide_eq_true (List.mem_filter.1 ha).2
      have hb := of_decide_eq_true (List.mem_filter.1 hb).2
      exact decide_eq_true (ha.trans hb.symm).le
    have hsub := (List.sublist_mergeSort htrans htotal hpairwise List.filter_sublist).filter fun a => decide (key a = k)
    rw [List.filter_filter] at hsub
    simp only [Bool.and_self] at hsub
    exact (hsub.eq_of_length ((List.mergeSort_perm _ _).filter _).length_eq.symm).symm

/-- A sorted list is its entries below a key and then the others. -/
theorem filter_lt_append {β : Type} {key : β → ℕ} {l : List β} (h : l.Pairwise fun a b => key a ≤ key b) (k : ℕ) :
    l = (l.filter fun a => key a < k) ++ l.filter fun a => k ≤ key a := by
  induction l with
  | nil => rfl
  | cons a l ih =>
    obtain ⟨hle, hrest⟩ := List.pairwise_cons.1 h
    by_cases ha : key a < k
    · rw [List.filter_cons_of_pos (by simpa using ha), List.filter_cons_of_neg (by simpa using ha), List.cons_append, ← ih hrest]
    · -- every later key is not below `k` either
      have hnone : (a :: l).filter (fun b => key b < k) = [] := by
        refine List.filter_eq_nil_iff.2 fun b hb => ?_
        rcases List.mem_cons.1 hb with rfl | hb
        · simpa using ha
        · have := hle b hb
          simp only [decide_eq_true_eq]
          omega
      have hall : (a :: l).filter (fun b => k ≤ key b) = a :: l := by
        refine List.filter_eq_self.2 fun b hb => ?_
        rcases List.mem_cons.1 hb with rfl | hb
        · simpa using ha
        · have := hle b hb
          simp only [decide_eq_true_eq]
          omega
      rw [hnone, hall, List.nil_append]

/-- The run of a key, after the entries of smaller keys. -/
theorem exists_run {β : Type} {key : β → ℕ} {l : List β} (h : l.Pairwise fun a b => key a ≤ key b) (r : ℕ) :
    ∃ above, l = (l.filter fun a => key a < r) ++ ((l.filter fun a => key a = r) ++ above) := by
  refine ⟨l.filter fun a => r + 1 ≤ key a, (filter_lt_append h r).trans (congrArg _ ?_)⟩
  refine (filter_lt_append (h.filter fun a => r ≤ key a) (r + 1)).trans ?_
  rw [List.filter_filter, List.filter_filter]
  congr 1
  · refine List.filter_congr fun a _ => ?_
    rw [← Bool.decide_and, decide_eq_decide]
    omega
  · refine List.filter_congr fun a _ => ?_
    rw [← Bool.decide_and, decide_eq_decide]
    omega

/-- A sorted list is the runs of its keys. -/
theorem flatMap_runs {β : Type} {key : β → ℕ} {l : List β} (h : l.Pairwise fun a b => key a ≤ key b) (k : ℕ) :
    ((List.range k).flatMap fun j => l.filter fun a => key a = j) = l.filter fun a => key a < k := by
  induction k with
  | zero => simp
  | succ k ih =>
    have hsplit := filter_lt_append (h.filter fun a => key a < k + 1) k
    rw [List.filter_filter, List.filter_filter] at hsplit
    rw [List.range_succ, List.flatMap_append, ih, hsplit]
    congr 1
    · refine List.filter_congr fun a _ => ?_
      rw [← Bool.decide_and, decide_eq_decide]
      omega
    · rw [List.flatMap_singleton]
      refine List.filter_congr fun a _ => ?_
      rw [← Bool.decide_and, decide_eq_decide]
      omega

/-- Sorting stably by position does not change what is written last. -/
theorem lastWrite_of_stablySorted {β : Type} {ws ws' : List (ℕ × β)} (h : StablySorted Prod.fst ws ws') (p : ℕ) :
    lastWrite ws' p = lastWrite ws p := by
  rw [← lastWrite_filter ws', h.stable p, lastWrite_filter]

/-- Splitting runs that were put together. -/
theorem splitLengths_flatten {β : Type} (L : List (List β)) : (L.map List.length).splitLengths L.flatten = L := by
  induction L with
  | nil => rfl
  | cons l L ih => rw [List.map_cons, List.flatten_cons, List.splitLengths_cons, List.take_left, List.drop_left, ih]

end Orka
