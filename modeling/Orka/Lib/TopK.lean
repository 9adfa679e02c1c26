import Mathlib.Data.List.Perm.Subperm
import Mathlib.Data.List.Sort
import Mathlib.Order.Lattice
import Orka.Lib.Flat

/-!
# The largest of a list

A choice of the `k` largest scores is free among equal ones: a position can be chosen exactly when fewer than `k` scores are larger.
-/

namespace TopK

open Flat

variable {κ : Type} [LinearOrder κ] [Zero κ]

/-- A choice of the `k` largest scores: distinct positions, none of a score below one that is left out. -/
structure Chooses (topk : List κ → ℕ → List ℕ) : Prop where
  length : ∀ scores k, k ≤ scores.length → (topk scores k).length = k
  nodup : ∀ scores k, (topk scores k).Nodup
  lt : ∀ scores k, ∀ p ∈ topk scores k, p < scores.length
  largest : ∀ scores k, ∀ p ∈ topk scores k, ∀ q < scores.length, q ∉ topk scores k → cell scores q ≤ cell scores p

/-- The number of positions of a larger score. -/
def largerThan (scores : List κ) (p : ℕ) : ℕ := (List.range scores.length).countP fun q => cell scores p < cell scores q

/-- With `k` larger scores a position is not among the `k` largest. -/
theorem Chooses.not_mem {topk : List κ → ℕ → List ℕ} (h : Chooses topk) {scores : List κ} {k p : ℕ} (hk : k ≤ scores.length)
    (hlarger : k ≤ largerThan scores p) : p ∉ topk scores k := by
  intro hp
  have hsub : ∀ q ∈ (List.range scores.length).filter (fun q => cell scores p < cell scores q), q ∈ (topk scores k).erase p := by
    intro q hq
    obtain ⟨hq, hlt⟩ := List.mem_filter.1 hq
    have hlt := of_decide_eq_true hlt
    have hne : q ≠ p := by
      rintro rfl
      exact lt_irrefl _ hlt
    refine (List.mem_erase_of_ne hne).2 ?_
    by_contra hout
    exact absurd (h.largest scores k p hp q (List.mem_range.1 hq) hout) (not_le.2 hlt)
  have hle := (List.subperm_of_subset (List.nodup_range.filter _) hsub).length_le
  rw [← List.countP_eq_length_filter, List.length_erase_of_mem hp, h.length scores k hk] at hle
  have hpos : 0 < k := by
    rw [← h.length scores k hk]
    exact List.length_pos_of_mem hp
  have : largerThan scores p ≤ k - 1 := hle
  omega

/-- The order of scores, largest first, in which `first` comes before the others of its score. -/
def scoreLe (scores : List κ) (first i j : ℕ) : Bool :=
  decide (cell scores j < cell scores i) || (decide (cell scores i = cell scores j) && (decide (i = first) || decide (j ≠ first)))

/-- The choice of the largest scores that favours `first`. -/
def topkFirst (first : ℕ) (scores : List κ) (k : ℕ) : List ℕ := ((List.range scores.length).mergeSort (scoreLe scores first)).take k

/-- The greater score comes first, and among equals the favoured place. -/
theorem scoreLe_iff {scores : List κ} {first i j : ℕ} :
    scoreLe scores first i j = true ↔ cell scores j < cell scores i ∨ (cell scores i = cell scores j ∧ (i = first ∨ j ≠ first)) := by
  simp [scoreLe]

/-- The order of scores is transitive. -/
theorem scoreLe_trans {scores : List κ} {first i j l : ℕ} (hij : scoreLe scores first i j = true)
    (hjl : scoreLe scores first j l = true) : scoreLe scores first i l = true := by
  rw [scoreLe_iff] at *
  rcases hij with hij | ⟨hij, hi⟩
  · rcases hjl with hjl | ⟨hjl, -⟩
    · exact .inl (hjl.trans hij)
    · exact .inl (hjl ▸ hij)
  · rcases hjl with hjl | ⟨hjl, hj⟩
    · exact .inl (hij ▸ hjl)
    · exact .inr ⟨hij.trans hjl, hi.imp_right fun hne => hj.resolve_left hne⟩

/-- Any two places are in order. -/
theorem scoreLe_total (scores : List κ) (first i j : ℕ) : (scoreLe scores first i j || scoreLe scores first j i) = true := by
  rw [Bool.or_eq_true, scoreLe_iff, scoreLe_iff]
  rcases lt_trichotomy (cell scores i) (cell scores j) with h | h | h
  · exact .inr (.inl h)
  · by_cases hi : i = first
    · exact .inl (.inr ⟨h, .inl hi⟩)
    · exact .inr (.inr ⟨h.symm, .inr hi⟩)
  · exact .inl (.inl h)

/-- The places sorted by score are in order. -/
theorem pairwise_topkSorted (first : ℕ) (scores : List κ) :
    ((List.range scores.length).mergeSort (scoreLe scores first)).Pairwise fun i j => scoreLe scores first i j = true :=
  List.pairwise_mergeSort (fun i j l => scoreLe_trans (i := i) (j := j) (l := l)) (scoreLe_total scores first) _

/-- A place not among the first comes after them. -/
theorem mem_drop_of_not_mem {scores : List κ} {first k q : ℕ} (hq : q < scores.length) (hout : q ∉ topkFirst first scores k) :
    q ∈ ((List.range scores.length).mergeSort (scoreLe scores first)).drop k := by
  have hmem : q ∈ (List.range scores.length).mergeSort (scoreLe scores first) :=
    (List.mergeSort_perm _ _).mem_iff.2 (List.mem_range.2 hq)
  rw [← List.take_append_drop k (List.mergeSort _ _), List.mem_append] at hmem
  exact hmem.resolve_left hout

/-- A sort that favours one place chooses as `topk` may. -/
theorem chooses_topkFirst (first : ℕ) : Chooses (topkFirst first : List κ → ℕ → List ℕ) where
  length scores k hk := by
    rw [topkFirst, List.length_take, List.length_mergeSort, List.length_range]
    omega
  nodup scores k := ((List.mergeSort_perm _ _).nodup_iff.2 List.nodup_range).sublist (List.take_sublist _ _)
  lt scores k p hp := List.mem_range.1 ((List.mergeSort_perm _ _).mem_iff.1 (List.mem_of_mem_take hp))
  largest scores k p hp q hq hout := by
    have hsorted := pairwise_topkSorted first scores
    rw [← List.take_append_drop k (List.mergeSort _ _), List.pairwise_append] at hsorted
    exact (scoreLe_iff.1 (hsorted.2.2 p hp q (mem_drop_of_not_mem hq hout))).elim le_of_lt fun h => h.1.ge

/-- With fewer than `k` larger scores a position can be among the `k` largest. -/
theorem mem_topkFirst {scores : List κ} {k p : ℕ} (hp : p < scores.length) (hlarger : largerThan scores p < k) :
    p ∈ topkFirst p scores k := by
  by_contra hout
  have hsorted := pairwise_topkSorted p scores
  rw [← List.take_append_drop k (List.mergeSort _ _), List.pairwise_append] at hsorted
  have hdrop := mem_drop_of_not_mem hp hout
  -- all that come before it are larger
  have hsub : ∀ q ∈ topkFirst p scores k, q ∈ (List.range scores.length).filter fun q => cell scores p < cell scores q := by
    intro q hq
    refine List.mem_filter.2 ⟨List.mem_range.2 ((chooses_topkFirst p).lt scores k q hq), decide_eq_true ?_⟩
    rcases scoreLe_iff.1 (hsorted.2.2 q hq p hdrop) with h | ⟨-, rfl | h⟩
    · exact h
    · exact absurd hq hout
    · exact absurd rfl h
  have hle := (List.subperm_of_subset ((chooses_topkFirst p).nodup scores k) hsub).length_le
  rw [← List.countP_eq_length_filter] at hle
  have hk : k ≤ scores.length := by
    by_contra hgt
    refine hout ?_
    rw [topkFirst, List.take_of_length_le (by rw [List.length_mergeSort, List.length_range]; omega)]
    exact (List.mergeSort_perm _ _).mem_iff.2 (List.mem_range.2 hp)
  rw [(chooses_topkFirst p).length scores k hk] at hle
  have : k ≤ largerThan scores p := hle
  omega

end TopK
