import Orka.Allocate

/-!
# The solver of the bit allocation

What the greedy fill and the bisection do to an allocation: the fill never spends past the budget, never adds distortion and
changes nothing that is over the budget already; the bisection stays at the highest multiplier exactly if that is over it.
-/

set_option linter.unusedSectionVars false

namespace Orka.AllocateAux

open Flat Menu Menu.Problem

variable {α : Type} [Field α] [LinearOrder α] [IsStrictOrderedRing α] {p : Problem α} {budget : α}

/-! ## The greedy fill -/

/-- All that an upgrade says: the next option costs more and loses less. -/
theorem upgradeStep_eq_some {t cur : ℕ} {u : Upgrade α} (h : upgradeStep p t cur = some u) :
    u.t = t ∧ u.nxt = cur + 1 ∧ u.nxt < p.options ∧ u.extra = p.cost t u.nxt - p.cost t cur ∧ 0 < u.extra ∧
      p.loss t u.nxt < p.loss t cur := by
  simp only [upgradeStep] at h
  split at h
  · cases h
  · rename_i hlt
    split at h
    · cases h
    · rename_i hgain
      obtain rfl := Option.some.inj h
      rw [not_or, not_le, not_le] at hgain
      exact ⟨rfl, rfl, not_le.1 hlt, rfl, hgain.2, sub_pos.1 hgain.1⟩

/-- Only an empty heap has nothing to pop. -/
theorem heapPop_eq_none {heap : List (Upgrade α)} (h : heapPop heap = none) : heap = [] := by
  cases heap with
  | nil => rfl
  | cons u heap =>
    rw [heapPop] at h
    split at h
    · cases h
    · split at h <;> cases h

/-- Popping takes one upgrade out and keeps the rest. -/
theorem heapPop_perm {heap rest : List (Upgrade α)} {u : Upgrade α} (h : heapPop heap = some (u, rest)) :
    heap.Perm (u :: rest) := by
  induction heap generalizing u rest with
  | nil => cases h
  | cons v heap ih =>
    rw [heapPop] at h
    cases hp : heapPop heap with
    | none =>
      rw [hp] at h
      obtain ⟨rfl, rfl⟩ := Prod.mk.inj (Option.some.inj h)
      rw [heapPop_eq_none hp]
    | some q =>
      obtain ⟨w, ws⟩ := q
      rw [hp] at h
      have hperm := ih hp
      simp only at h
      split at h
      · obtain ⟨rfl, rfl⟩ := Prod.mk.inj (Option.some.inj h)
        exact (hperm.cons v).trans (List.Perm.swap _ _ _)
      · obtain ⟨rfl, rfl⟩ := Prod.mk.inj (Option.some.inj h)
        exact hperm.cons _

/-- What holds between two rounds of the fill: the heap has one entry at most for a tensor, and it is the upgrade from the
option the tensor has now. -/
structure Fills (p : Problem α) (st : Filling α) : Prop where
  alloc : p.Alloc st.choice
  spent : st.spent = p.total p.cost st.choice
  entry : ∀ u ∈ st.heap, u.t < p.size ∧ upgradeStep p u.t (cell st.choice u.t) = some u
  nodup : (st.heap.map Upgrade.t).Nodup

/-- A fill starts at an allocation. -/
theorem Fills.start {choice : List ℕ} (hc : p.Alloc choice) : Fills p (fillStart p choice (p.total p.cost choice)) := by
  refine ⟨hc, rfl, ?_, ?_⟩
  · intro u hu
    obtain ⟨t, ht, hu⟩ := List.mem_filterMap.1 hu
    obtain rfl := (upgradeStep_eq_some hu).1
    exact ⟨List.mem_range.1 ht, hu⟩
  · have hsub : ((fillStart p choice (p.total p.cost choice)).heap.map Upgrade.t).Sublist (List.range p.size) := by
      unfold fillStart
      simp only
      generalize List.range p.size = l
      induction l with
      | nil => exact List.Sublist.slnil
      | cons t l ih =>
        cases hu : upgradeStep p t (cell choice t) with
        | none =>
          rw [List.filterMap_cons_none (f := fun t => upgradeStep p t (cell choice t)) hu]
          exact ih.cons t
        | some u =>
          rw [List.filterMap_cons_some (f := fun t => upgradeStep p t (cell choice t)) hu, List.map_cons, (upgradeStep_eq_some hu).1]
          exact ih.cons_cons t
    exact hsub.nodup List.nodup_range

variable (budget) in
/-- **One round of the fill.** The invariant stays, no distortion is added, and the allocation only changes to one that is
within the budget. -/
theorem Fills.step {st : Filling α} (h : Fills p st) : Fills p (fillStep p budget st) ∧
    p.total p.loss (fillStep p budget st).choice ≤ p.total p.loss st.choice ∧
    ((fillStep p budget st).choice = st.choice ∨ st.spent < (fillStep p budget st).spent ∧ (fillStep p budget st).spent ≤ budget) := by
  unfold fillStep
  cases hpop : heapPop st.heap with
  | none => exact ⟨h, le_refl _, Or.inl rfl⟩
  | some q =>
    obtain ⟨u, rest⟩ := q
    have hperm := heapPop_perm hpop
    have hmem : ∀ v ∈ u :: rest, v ∈ st.heap := fun v hv => hperm.mem_iff.2 hv
    have hnd : (u.t :: rest.map Upgrade.t).Nodup := (hperm.map Upgrade.t).nodup_iff.1 h.nodup
    obtain ⟨hut, hu⟩ := h.entry u (hmem u (by simp))
    obtain ⟨-, hnxt, hlt, hextra, hpos, hloss⟩ := upgradeStep_eq_some hu
    simp only
    split
    · exact ⟨⟨h.alloc, h.spent, fun v hv => h.entry v (hmem v (by simp [hv])), (List.nodup_cons.1 hnd).2⟩, le_refl _, Or.inl rfl⟩
    · rename_i hfit
      have halloc := h.alloc.set hlt u.t
      have hcell : cell (st.choice.set u.t u.nxt) u.t = u.nxt := by
        rw [cell_eq_getElem (by rw [List.length_set, h.alloc.length]; exact hut), List.getElem_set_self]
      refine ⟨⟨halloc, ?_, ?_, ?_⟩, ?_, Or.inr ⟨lt_add_of_pos_right _ hpos, not_lt.1 hfit⟩⟩
      · rw [total_set h.alloc hut, h.spent, ← hextra]
      · intro v hv
        rcases List.mem_append.1 hv with hv | hv
        · have hne : u.t ≠ v.t := fun e => (List.nodup_cons.1 hnd).1 (e ▸ List.mem_map_of_mem hv)
          obtain ⟨hvt, hv⟩ := h.entry v (hmem v (by simp [hv]))
          refine ⟨hvt, ?_⟩
          rwa [show cell (st.choice.set u.t u.nxt) v.t = cell st.choice v.t by
            rw [cell, List.getD_eq_getElem?_getD, List.getElem?_set_ne hne]; rfl]
        · have hv : upgradeStep p u.t u.nxt = some v := Option.mem_toList.1 hv
          have hvt := (upgradeStep_eq_some hv).1
          rw [hvt]
          exact ⟨hut, by rwa [hcell]⟩
      · rw [List.map_append, List.nodup_append]
        refine ⟨(List.nodup_cons.1 hnd).2, ?_, ?_⟩
        · cases upgradeStep p u.t u.nxt with
          | none => exact List.nodup_nil
          | some v => exact List.nodup_singleton _
        · rintro t ht t' ht' rfl
          obtain ⟨v, hv, rfl⟩ := List.mem_map.1 ht'
          have hv : upgradeStep p u.t u.nxt = some v := Option.mem_toList.1 hv
          rw [(upgradeStep_eq_some hv).1] at ht
          exact (List.nodup_cons.1 hnd).1 ht
      · rw [total_set h.alloc hut]
        have := sub_neg.2 hloss
        linarith

variable (budget) in
/-- **The fill.** From an allocation over the budget nothing changes; from one within it the result is within it; the distortion
does not grow. -/
theorem greedyFill_spec {choice : List ℕ} (hc : p.Alloc choice) :
    p.Alloc (greedyFill p budget choice (p.total p.cost choice)) ∧
    p.total p.loss (greedyFill p budget choice (p.total p.cost choice)) ≤ p.total p.loss choice ∧
    (p.total p.cost choice ≤ budget → p.total p.cost (greedyFill p budget choice (p.total p.cost choice)) ≤ budget) ∧
    (budget ≤ p.total p.cost choice → greedyFill p budget choice (p.total p.cost choice) = choice) := by
  -- after any number of rounds the allocation is the first one or a dearer one within the budget
  have run : ∀ n, let st := (fillStep p budget)^[n] (fillStart p choice (p.total p.cost choice))
      Fills p st ∧ p.total p.loss st.choice ≤ p.total p.loss choice ∧
        (st.choice = choice ∨ p.total p.cost choice < st.spent ∧ st.spent ≤ budget) := by
    intro n
    induction n with
    | zero => exact ⟨Fills.start hc, le_refl _, Or.inl rfl⟩
    | succ n ih =>
      rw [Function.iterate_succ_apply']
      obtain ⟨hf, hl, hs⟩ := ih
      obtain ⟨hf', hl', hs'⟩ := hf.step budget
      refine ⟨hf', hl'.trans hl, ?_⟩
      rcases hs' with hs' | ⟨hlt, hle⟩
      · rcases hs with hs | ⟨hlt, hle⟩
        · exact Or.inl (hs'.trans hs)
        · right
          rw [hf'.spent, hs', ← hf.spent]
          exact ⟨hlt, hle⟩
      · refine Or.inr ⟨lt_of_le_of_lt ?_ hlt, hle⟩
        rcases hs with hs | ⟨hlt, -⟩
        · rw [hf.spent, hs]
        · exact hlt.le
  obtain ⟨hf, hl, hs⟩ := run (p.size * p.options)
  refine ⟨hf.alloc, hl, fun hle => ?_, fun hge => ?_⟩
  · rcases hs with hs | ⟨-, hs⟩
    · rw [greedyFill, hs]
      exact hle
    · rw [greedyFill, ← hf.spent]
      exact hs
  · rcases hs with hs | ⟨hlt, hle⟩
    · exact hs
    · exact absurd (hlt.trans_le hle) (not_lt.2 hge)

/-- How far up the menu the tensors on the heap can still go. -/
def climb (p : Problem α) (st : Filling α) : ℕ := (st.heap.map fun u => p.options - u.nxt).sum

variable (budget) in
/-- A round takes an entry off the heap or moves its tensor up the menu. -/
theorem Fills.climb_lt {st : Filling α} (h : Fills p st) (hne : st.heap ≠ []) :
    climb p (fillStep p budget st) < climb p st := by
  unfold fillStep
  cases hpop : heapPop st.heap with
  | none => exact absurd (heapPop_eq_none hpop) hne
  | some q =>
    obtain ⟨u, rest⟩ := q
    have hperm := heapPop_perm hpop
    obtain ⟨-, hu⟩ := h.entry u (hperm.mem_iff.2 (by simp))
    have hlt := (upgradeStep_eq_some hu).2.2.1
    have hsum : climb p st = (p.options - u.nxt) + (rest.map fun u => p.options - u.nxt).sum := by
      rw [climb, (hperm.map fun u => p.options - u.nxt).sum_eq, List.map_cons, List.sum_cons]
    rw [hsum]
    simp only
    split
    · exact Nat.lt_add_of_pos_left (Nat.sub_pos_of_lt hlt)
    · rw [climb, List.map_append, List.sum_append]
      cases hv : upgradeStep p u.t u.nxt with
      | none => simpa using hlt
      | some v =>
        have hnxt := (upgradeStep_eq_some hv).2.1
        simp only [Option.toList_some, List.map_cons, List.map_nil, List.sum_cons, List.sum_nil, hnxt]
        omega

/-- The rounds `greedyFill` is given empty the heap: they are as many as its loop takes. -/
theorem greedyFill_done {choice : List ℕ} (hc : p.Alloc choice) :
    ((fillStep p budget)^[p.size * p.options] (fillStart p choice (p.total p.cost choice))).heap = [] := by
  have hstart : climb p (fillStart p choice (p.total p.cost choice)) ≤ p.size * p.options := by
    have hlen : (fillStart p choice (p.total p.cost choice)).heap.length ≤ p.size := by
      have := List.length_filterMap_le (fun t => upgradeStep p t (cell choice t)) (List.range p.size)
      rwa [List.length_range] at this
    refine (List.sum_le_card_nsmul _ p.options ?_).trans ?_
    · intro k hk
      obtain ⟨u, -, rfl⟩ := List.mem_map.1 hk
      exact Nat.sub_le _ _
    · rw [List.length_map, smul_eq_mul]
      exact Nat.mul_le_mul_right _ hlen
  have run : ∀ n, let st := (fillStep p budget)^[n] (fillStart p choice (p.total p.cost choice))
      Fills p st ∧ (st.heap = [] ∨ climb p st + n ≤ p.size * p.options) := by
    intro n
    induction n with
    | zero => exact ⟨Fills.start hc, Or.inr hstart⟩
    | succ n ih =>
      rw [Function.iterate_succ_apply']
      obtain ⟨hf, hn⟩ := ih
      refine ⟨(hf.step budget).1, ?_⟩
      by_cases hne : ((fillStep p budget)^[n] (fillStart p choice (p.total p.cost choice))).heap = []
      · left
        rw [fillStep, hne]
        exact hne
      · have := hf.climb_lt budget hne
        rcases hn with hn | hn
        · exact absurd hn hne
        · right
          omega
  obtain ⟨hf, hn⟩ := run (p.size * p.options)
  rcases hn with hn | hn
  · exact hn
  · by_contra hne
    have := hf.climb_lt budget hne
    omega

/-! ## The bisection -/

/-- What holds between two rounds of the bisection. -/
structure Bisects (p : Problem α) (budget : α) (st : Bisection α) : Prop where
  nonneg : 0 ≤ st.lo
  le : st.lo ≤ st.hi
  top : st.hi ≤ topMultiplier
  best : st.bestL = p.bestAt st.hi
  fits : st.hi = topMultiplier ∨ p.total p.cost st.bestL ≤ budget

/-- The bisection of `lagrangian`, as `Bisects` states it. -/
theorem lagrangian_spec : Bisects p budget (lagrangian p budget) := by
  have h0 : (0 : α) ≤ topMultiplier := by
    unfold topMultiplier
    positivity
  have run : ∀ n, Bisects p budget ((bisectStep p budget)^[n] ⟨0, topMultiplier, p.bestAt topMultiplier⟩) := by
    intro n
    induction n with
    | zero => exact ⟨le_refl _, h0, le_refl _, rfl, Or.inl rfl⟩
    | succ n ih =>
      rw [Function.iterate_succ_apply']
      generalize (bisectStep p budget)^[n] ⟨0, topMultiplier, p.bestAt topMultiplier⟩ = st at ih
      have hmid := ih.le
      have hmid' := ih.nonneg
      have htop := ih.top
      unfold bisectStep
      simp only
      split
      · rename_i hfit
        exact ⟨hmid', by linarith, by linarith, rfl, Or.inr hfit⟩
      · exact ⟨by linarith, by linarith, htop, ih.best, ih.fits⟩
  exact run 100

variable (p budget) in
/-- The Lagrangian allocation is the best at some multiplier from 0 to the top one. -/
theorem lagrangian_best : ∃ lam, 0 ≤ lam ∧ lam ≤ topMultiplier ∧ (lagrangian p budget).bestL = p.bestAt lam :=
  ⟨_, lagrangian_spec.nonneg.trans lagrangian_spec.le, lagrangian_spec.top, lagrangian_spec.best⟩

/-- It is within the budget if the one at the top multiplier is. -/
theorem lagrangian_fits (h : p.total p.cost (p.bestAt topMultiplier) ≤ budget) :
    p.total p.cost (lagrangian p budget).bestL ≤ budget := by
  rcases (lagrangian_spec : Bisects p budget _).fits with htop | hfit
  · rw [lagrangian_spec.best, htop]
    exact h
  · exact hfit

/-- Otherwise no multiplier tried is any better. -/
theorem lagrangian_eq_top (ho : 0 < p.options) (h : budget < p.total p.cost (p.bestAt topMultiplier)) :
    (lagrangian p budget).bestL = p.bestAt topMultiplier := by
  rcases (lagrangian_spec : Bisects p budget _).fits with htop | hfit
  · rw [lagrangian_spec.best, htop]
  · rw [lagrangian_spec.best] at hfit
    have := cost_bestAt_antitone ho (lagrangian_spec : Bisects p budget _).top
    exact absurd h (not_lt.2 (this.trans hfit))

/-! ## The choice between the two -/

/-- Every tensor on the first option. -/
def zeros (p : Problem α) : List ℕ := List.replicate p.size 0

theorem alloc_zeros (ho : 0 < p.options) : p.Alloc (zeros p) :=
  ⟨List.length_replicate, fun t _ => by rw [zeros, cell_replicate_zero]; exact ho⟩

/-- The two candidates, and the one that loses less. -/
theorem solve_eq : solve p budget =
    if p.total p.loss (greedyFill p budget (zeros p) (p.total p.cost (zeros p))) ≤
        p.total p.loss (greedyFill p budget (lagrangian p budget).bestL (p.total p.cost (lagrangian p budget).bestL))
    then greedyFill p budget (zeros p) (p.total p.cost (zeros p))
    else greedyFill p budget (lagrangian p budget).bestL (p.total p.cost (lagrangian p budget).bestL) := rfl

variable (budget) in
/-- The relaxed solution is an allocation. -/
theorem alloc_lagrangian (ho : 0 < p.options) : p.Alloc (lagrangian p budget).bestL := by
  rw [lagrangian_spec.best]
  exact alloc_bestAt ho _

variable (budget) in
/-- The solution is an allocation. -/
theorem alloc_solve (ho : 0 < p.options) : p.Alloc (solve p budget) := by
  rw [solve_eq]
  split
  · exact (greedyFill_spec budget (alloc_zeros ho)).1
  · exact (greedyFill_spec budget (alloc_lagrangian budget ho)).1

/-- The first options and the top multiplier both fit: so does the answer. -/
theorem solve_fits (ho : 0 < p.options) (h0 : p.total p.cost (zeros p) ≤ budget)
    (htop : p.total p.cost (p.bestAt topMultiplier) ≤ budget) : p.total p.cost (solve p budget) ≤ budget := by
  rw [solve_eq]
  split
  · exact (greedyFill_spec _ (alloc_zeros ho)).2.2.1 h0
  · exact (greedyFill_spec _ (alloc_lagrangian _ ho)).2.2.1 (lagrangian_fits htop)

/-- The first options do not fit but lose more than the options of the top multiplier, which do: the answer is the Lagrangian
candidate. -/
theorem solve_fits_of_loss_lt (ho : 0 < p.options) (htop : p.total p.cost (p.bestAt topMultiplier) ≤ budget)
    (hloss : p.total p.loss (p.bestAt topMultiplier) < p.total p.loss (zeros p)) : p.total p.cost (solve p budget) ≤ budget := by
  rcases le_or_gt (p.total p.cost (zeros p)) budget with h0 | h0
  · exact solve_fits ho h0 htop
  · obtain ⟨lam, hlam, hle, hbest⟩ := lagrangian_best p budget
    have hB := greedyFill_spec budget (alloc_lagrangian budget ho)
    have hlt : p.total p.loss (greedyFill p budget (lagrangian p budget).bestL (p.total p.cost (lagrangian p budget).bestL)) <
        p.total p.loss (zeros p) := by
      refine hB.2.1.trans_lt (lt_of_le_of_lt ?_ hloss)
      rw [hbest]
      exact loss_bestAt_mono ho hlam hle
    rw [solve_eq, (greedyFill_spec _ (alloc_zeros ho)).2.2.2 h0.le, if_neg (not_le.2 hlt)]
    exact hB.2.2.1 (lagrangian_fits htop)

/-- The options of the top multiplier do not fit: the answer does not fit either. -/
theorem solve_over (ho : 0 < p.options) (htop : budget < p.total p.cost (p.bestAt topMultiplier)) :
    budget < p.total p.cost (solve p budget) := by
  have hL := lagrangian_eq_top ho htop
  have hB : greedyFill p budget (lagrangian p budget).bestL (p.total p.cost (lagrangian p budget).bestL) =
      p.bestAt topMultiplier := by
    rw [hL]
    exact (greedyFill_spec _ (alloc_bestAt ho _)).2.2.2 htop.le
  rw [solve_eq, hB]
  split
  · rename_i hle
    by_contra hc
    have hA := (greedyFill_spec budget (alloc_zeros (p := p) ho)).1
    have hmin := score_bestAt_le hA topMultiplier
    have hpos : (0 : α) < topMultiplier := by
      unfold topMultiplier
      positivity
    have := mul_lt_mul_of_pos_left ((not_lt.1 hc).trans_lt htop) hpos
    linarith
  · exact htop

/-- The first options do not fit, and no allocation the fill starts from loses less: the answer is the first options. -/
theorem solve_eq_zeros (h0 : budget < p.total p.cost (zeros p)) (ho : 0 < p.options)
    (hloss : p.total p.loss (zeros p) ≤
      p.total p.loss (greedyFill p budget (lagrangian p budget).bestL (p.total p.cost (lagrangian p budget).bestL))) :
    solve p budget = zeros p := by
  have hA := (greedyFill_spec budget (alloc_zeros (p := p) ho)).2.2.2 h0.le
  rw [solve_eq, hA, if_pos hloss]

end Orka.AllocateAux
