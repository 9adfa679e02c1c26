import Orka.Lib.Flat

/-!
# Choosing from menus

A number of choices, each from the same menu of options, where an option has a cost and a loss that depend on the choice. An
allocation is the list of the options chosen. A multiplier prices the cost in units of the loss; the options that are best at
a multiplier make the allocation that is best at it, and a higher multiplier never makes that allocation cost more.
-/

set_option linter.unusedSectionVars false

namespace Menu

open Flat

section Argmin

variable {α : Type} [LinearOrder α]

/-- The first of the numbers below `n` at which a function is least. -/
def argmin (n : ℕ) (key : ℕ → α) : ℕ := (List.range n).foldl (fun best s => if key s < key best then s else best) 0

/-- One more option wins only with a strictly smaller key. -/
theorem argmin_succ (n : ℕ) (key : ℕ → α) : argmin (n + 1) key = if key n < key (argmin n key) then n else argmin n key := by
  rw [argmin, List.range_succ, List.foldl_append]
  rfl

/-- The least key is that of an option. -/
theorem argmin_lt {n : ℕ} (hn : 0 < n) (key : ℕ → α) : argmin n key < n := by
  induction n, hn using Nat.le_induction with
  | base => simp [argmin]
  | succ n _ ih =>
    rw [argmin_succ]
    split
    · exact Nat.lt_succ_self n
    · exact Nat.lt_succ_of_lt ih

/-- No option has a smaller key. -/
theorem argmin_le {n s : ℕ} (hs : s < n) (key : ℕ → α) : key (argmin n key) ≤ key s := by
  induction n with
  | zero => exact absurd hs (Nat.not_lt_zero s)
  | succ n ih =>
    rw [argmin_succ]
    rcases Nat.lt_succ_iff_lt_or_eq.1 hs with hs | rfl
    · split
      · rename_i h
        exact h.le.trans (ih hs)
      · exact ih hs
    · split
      · exact le_refl _
      · rename_i h
        exact not_lt.1 h

/-- The first least of two runs, from the first least of each. -/
theorem argmin_add {a b : ℕ} (hb : 0 < b) (key : ℕ → α) :
    argmin (a + b) key = if key (a + argmin b fun j => key (a + j)) < key (argmin a key) then a + argmin b fun j => key (a + j)
      else argmin a key := by
  induction b, hb using Nat.le_induction with
  | base =>
    have hone : (argmin (Nat.succ 0) fun j => key (a + j)) = 0 := by simp [argmin]
    rw [argmin_succ, hone, Nat.add_zero]
  | succ b hb ih =>
    rw [← Nat.add_assoc, argmin_succ, ih, argmin_succ b]
    rcases lt_or_ge (key (a + b)) (key (a + argmin b fun j => key (a + j))) with h | h
    · rw [if_pos h]
      rcases lt_or_ge (key (a + argmin b fun j => key (a + j))) (key (argmin a key)) with h' | h'
      · rw [if_pos h', if_pos h, if_pos (h.trans h')]
      · rw [if_neg (not_lt.2 h')]
    · rw [if_neg (not_lt.2 h)]
      rcases lt_or_ge (key (a + argmin b fun j => key (a + j))) (key (argmin a key)) with h' | h'
      · rw [if_pos h', if_neg (not_lt.2 h)]
      · rw [if_neg (not_lt.2 h'), if_neg (not_lt.2 (h'.trans h))]

/-- Of several least values the first one is found. -/
theorem lt_of_lt_argmin {n s : ℕ} (key : ℕ → α) (hs : s < argmin n key) : key (argmin n key) < key s := by
  induction n with
  | zero => exact absurd hs (Nat.not_lt_zero s)
  | succ n ih =>
    rw [argmin_succ] at hs ⊢
    split
    · rename_i h
      rw [if_pos h] at hs
      exact h.trans_le (argmin_le hs key)
    · rename_i h
      rw [if_neg h] at hs
      exact ih hs

end Argmin

/-- The menus: `size` choices from `options` options each. -/
structure Problem (α : Type) where
  size : ℕ
  options : ℕ
  cost : ℕ → ℕ → α
  loss : ℕ → ℕ → α

namespace Problem

variable {α : Type}

/-- A list of options, one for each choice. -/
structure Alloc (p : Problem α) (c : List ℕ) : Prop where
  length : c.length = p.size
  lt : ∀ t < p.size, cell c t < p.options

/-- One option for each tensor is an allocation. -/
theorem alloc_map {p : Problem α} {f : ℕ → ℕ} (h : ∀ t < p.size, f t < p.options) : p.Alloc ((List.range p.size).map f) := by
  refine ⟨by rw [List.length_map, List.length_range], fun t ht => ?_⟩
  rw [show (List.range p.size).map f = tabulate p.size f from rfl, cell_tabulate f ht]
  exact h t ht

/-- Changing one choice. -/
theorem Alloc.set {p : Problem α} {c : List ℕ} (hc : p.Alloc c) {s : ℕ} (hs : s < p.options) (t : ℕ) : p.Alloc (c.set t s) := by
  refine ⟨by rw [List.length_set, hc.length], fun i hi => ?_⟩
  by_cases h : t = i
  · subst h
    rw [cell_eq_getElem (by rw [List.length_set, hc.length]; exact hi), List.getElem_set_self]
    exact hs
  · have := hc.lt i hi
    rwa [cell, List.getD_eq_getElem?_getD, List.getElem?_set_ne h]

section Total

variable [AddCommGroup α]

/-- The sum of a cost over an allocation. -/
def total (p : Problem α) (f : ℕ → ℕ → α) (c : List ℕ) : α := ((List.range p.size).map fun t => f t (cell c t)).sum

variable {p : Problem α}

/-- Changing one choice changes one summand. -/
theorem total_set {c : List ℕ} (hc : p.Alloc c) {t : ℕ} (ht : t < p.size) (f : ℕ → ℕ → α) (s : ℕ) :
    p.total f (c.set t s) = p.total f c + (f t s - f t (cell c t)) := by
  have hlen := hc.length
  have hset : ∀ i < p.size, cell (c.set t s) i = if i = t then s else cell c i := by
    intro i hi
    by_cases h : i = t
    · subst h
      rw [if_pos rfl, cell_eq_getElem (by rw [List.length_set]; omega), List.getElem_set_self]
    · rw [if_neg h, cell, List.getD_eq_getElem?_getD, List.getElem?_set_ne (Ne.symm h)]
      rfl
  have e : (List.range p.size).map (fun i => f i (cell (c.set t s) i)) =
      (List.range p.size).map fun i => f i (cell c i) + if i = t then f t s - f t (cell c t) else 0 := by
    apply List.map_congr_left
    intro i hi
    rw [hset i (List.mem_range.1 hi)]
    by_cases h : i = t
    · subst h
      rw [if_pos rfl, if_pos rfl]
      abel
    · rw [if_neg h, if_neg h, add_zero]
  rw [total, e, List.sum_map_add]
  congr 1
  rw [List.sum_map_ite_eq]
  simp [List.count_eq_one_of_mem List.nodup_range (List.mem_range.2 ht)]

end Total

section Order

variable [Field α] [LinearOrder α] [IsStrictOrderedRing α] {p : Problem α}

/-- Totals compare term by term. -/
theorem total_le {f g : ℕ → ℕ → α} {c d : List ℕ} (h : ∀ t < p.size, f t (cell c t) ≤ g t (cell d t)) :
    p.total f c ≤ p.total g d :=
  List.sum_le_sum fun t ht => h t (List.mem_range.1 ht)

/-- One strictly smaller term makes the total strictly smaller. -/
theorem total_lt {f : ℕ → ℕ → α} {c d : List ℕ} (h : ∀ t < p.size, f t (cell c t) ≤ f t (cell d t)) {t : ℕ} (ht : t < p.size)
    (hlt : f t (cell c t) < f t (cell d t)) : p.total f c < p.total f d :=
  List.sum_lt_sum _ _ (fun t ht => h t (List.mem_range.1 ht)) ⟨t, List.mem_range.2 ht, hlt⟩

/-- The price of an option at a multiplier. -/
def score (p : Problem α) (lam : α) (t s : ℕ) : α := p.loss t s + lam * p.cost t s

/-- The allocation of the options that are best at a multiplier. -/
def bestAt (p : Problem α) (lam : α) : List ℕ := (List.range p.size).map fun t => argmin p.options (p.score lam t)

/-- The total score is the loss plus `lam` times the cost. -/
theorem total_score (p : Problem α) (lam : α) (c : List ℕ) :
    p.total (p.score lam) c = p.total p.loss c + lam * p.total p.cost c := by
  unfold total score
  rw [List.sum_map_add, List.sum_map_mul_left]

theorem cell_bestAt {t : ℕ} (ht : t < p.size) (lam : α) : cell (p.bestAt lam) t = argmin p.options (p.score lam t) :=
  cell_tabulate (fun t => argmin p.options (p.score lam t)) ht

theorem alloc_bestAt (h : 0 < p.options) (lam : α) : p.Alloc (p.bestAt lam) := alloc_map fun _ _ => argmin_lt h _

/-- The best options make the best allocation. -/
theorem score_bestAt_le {c : List ℕ} (hc : p.Alloc c) (lam : α) :
    p.total p.loss (p.bestAt lam) + lam * p.total p.cost (p.bestAt lam) ≤ p.total p.loss c + lam * p.total p.cost c := by
  rw [← total_score, ← total_score]
  apply total_le
  intro t ht
  rw [cell_bestAt ht]
  exact argmin_le (hc.lt t ht) _

/-- At a higher multiplier the best allocation costs no more. -/
theorem cost_bestAt_antitone (h : 0 < p.options) {lam mu : α} (hlt : lam ≤ mu) :
    p.total p.cost (p.bestAt mu) ≤ p.total p.cost (p.bestAt lam) := by
  rcases hlt.eq_or_lt with rfl | hlt
  · exact le_refl _
  · have h1 := score_bestAt_le (alloc_bestAt h mu) lam
    have h2 := score_bestAt_le (alloc_bestAt h lam) mu
    by_contra hc
    have := mul_lt_mul_of_pos_left (not_le.1 hc) (sub_pos.2 hlt)
    linarith [sub_mul mu lam (p.total p.cost (p.bestAt mu)), sub_mul mu lam (p.total p.cost (p.bestAt lam))]

/-- At a higher multiplier that is not negative the best allocation loses no less. -/
theorem loss_bestAt_mono (h : 0 < p.options) {lam mu : α} (h0 : 0 ≤ lam) (hlt : lam ≤ mu) :
    p.total p.loss (p.bestAt lam) ≤ p.total p.loss (p.bestAt mu) := by
  have h1 := score_bestAt_le (alloc_bestAt h mu) lam
  have h2 := mul_le_mul_of_nonneg_left (cost_bestAt_antitone h hlt) h0
  linarith

/-! ## Cheapest options -/

/-- An option of a choice that costs least. -/
def Cheapest (p : Problem α) (t s : ℕ) : Prop := ∀ s' < p.options, p.cost t s ≤ p.cost t s'

instance (p : Problem α) (t s : ℕ) : Decidable (p.Cheapest t s) :=
  inferInstanceAs (Decidable (∀ s' < p.options, p.cost t s ≤ p.cost t s'))

/-- No allocation costs less than one of cheapest options. -/
theorem cost_le_of_cheapest {c d : List ℕ} (h : ∀ t < p.size, p.Cheapest t (cell c t)) (hd : p.Alloc d) :
    p.total p.cost c ≤ p.total p.cost d :=
  total_le fun t ht => h t ht _ (hd.lt t ht)

/-- An allocation that costs as little as one of cheapest options is made of cheapest options. -/
theorem cheapest_of_cost_le {c d : List ℕ} (h : ∀ t < p.size, p.Cheapest t (cell c t)) (hd : p.Alloc d)
    (hle : p.total p.cost d ≤ p.total p.cost c) : ∀ t < p.size, p.Cheapest t (cell d t) := by
  intro t ht s' hs'
  by_contra hlt
  have hcd := h t ht _ hs'
  have := total_lt (p := p) (f := p.cost) (c := c) (d := d) (fun i hi => h i hi _ (hd.lt i hi)) ht
    (hcd.trans_lt (not_le.1 hlt))
  exact absurd hle (not_le.2 this)

/-- The allocation of the first cheapest options. -/
def cheapest (p : Problem α) : List ℕ := (List.range p.size).map fun t => argmin p.options (p.cost t)

theorem alloc_cheapest (h : 0 < p.options) : p.Alloc p.cheapest := alloc_map fun _ _ => argmin_lt h _

/-- Each of the cheapest options is cheapest for its tensor. -/
theorem cheapest_cheapest {t : ℕ} (ht : t < p.size) : p.Cheapest t (cell p.cheapest t) := by
  intro s' hs'
  rw [show cell p.cheapest t = argmin p.options (p.cost t) from cell_tabulate _ ht]
  exact argmin_le hs' _

end Order

end Problem

end Menu
