import Orka.Lemmas.Allocate

/-!
# The budget of the bit allocation

When the allocation keeps to every budget that some allocation can keep to. The solver starts from the first specs in the
order of the index bits and from the specs that are best at the top multiplier, and each of the two can be over a budget that
the cheapest specs keep to.
-/

set_option linter.unusedSectionVars false

namespace Orka

open Flat Menu Menu.Problem AllocateAux

variable {α : Type} [Field α] [LinearOrder α] [IsStrictOrderedRing α]

/-- What `build_allocation` returns does not depend on the target, apart from the solver's choice. -/
theorem buildAllocation_eq_ok {rows : List (Probed α)} {target : α} {candidateSpecs : List Spec} {groupSize dtypeBytes : ℕ}
    {sizeAware : Bool} {a : Allocation α}
    (h : buildAllocation rows target candidateSpecs groupSize dtypeBytes sizeAware = .ok a) :
    2 ≤ (sortedSpecs candidateSpecs groupSize sizeAware).length ∧ 0 < (rows.map Probed.numel).sum ∧
      a.totalParams = (rows.map Probed.numel).sum ∧
      (∀ target', ∃ a', buildAllocation rows target' candidateSpecs groupSize dtypeBytes sizeAware = .ok a') ∧
      a.achievedBpw =
        (let p := allocationProblem rows (sortedSpecs candidateSpecs groupSize sizeAware) groupSize dtypeBytes sizeAware
        p.total p.cost (solve p (target * (a.totalParams : α))) / (a.totalParams : α)) := by
  unfold buildAllocation at h ⊢
  simp only at h ⊢
  split at h
  · cases h
  · rename_i hrates
    split at h
    · cases h
    · rename_i hrows
      split at h
      · cases h
      · rename_i hg
        split at h
        · cases h
        · rename_i htotal
          obtain rfl := Except.ok.inj h
          refine ⟨?_, Nat.pos_of_ne_zero htotal, rfl, fun target' => ?_, rfl⟩
          · have := (List.dedup_sublist
              ((sortedSpecs candidateSpecs groupSize sizeAware).map fun s => specBitsPerVector s.stages groupSize)).length_le
            rw [List.length_map] at this
            omega
          · rw [if_neg hrates, if_neg hrows, if_neg hg, if_neg htotal]
            exact ⟨_, rfl⟩

/-- The first minimiser of a score is a cheapest option exactly if every other option is beaten by a cheapest one. -/
theorem cheapest_bestAt_iff {p : Problem α} (ho : 0 < p.options) (lam : α) :
    (∀ t < p.size, p.Cheapest t (cell (p.bestAt lam) t)) ↔
      ∀ t < p.size, ∀ s < p.options, ¬ p.Cheapest t s → ∃ s' < p.options, p.Cheapest t s' ∧
        (p.score lam t s' < p.score lam t s ∨ p.score lam t s' = p.score lam t s ∧ s' < s) := by
  refine forall₂_congr fun t ht => ?_
  rw [cell_bestAt ht]
  constructor
  · intro h s hs hne
    refine ⟨_, argmin_lt ho _, h, ?_⟩
    rcases (argmin_le hs (p.score lam t)).lt_or_eq with hlt | heq
    · exact Or.inl hlt
    · refine Or.inr ⟨heq, ?_⟩
      by_contra hc
      rcases (not_lt.1 hc).lt_or_eq with hlt | rfl
      · exact absurd heq (lt_of_lt_argmin _ hlt).ne
      · exact hne h
  · intro h
    by_contra hne
    obtain ⟨s', hs', -, hlt | ⟨heq, hlt⟩⟩ := h _ (argmin_lt ho _) hne
    · exact absurd (argmin_le hs' (p.score lam t)) (not_le.2 hlt)
    · exact absurd heq.symm (lt_of_lt_argmin _ hlt).ne

/-- **When the solver keeps to every attainable budget.** -/
theorem solve_fits_iff {p : Problem α} (ho : 0 < p.options) :
    (∀ budget, (∃ c, p.Alloc c ∧ p.total p.cost c ≤ budget) → p.total p.cost (solve p budget) ≤ budget) ↔
      (∀ t < p.size, p.Cheapest t (cell (p.bestAt topMultiplier) t)) ∧
        ((∀ t < p.size, p.Cheapest t 0) ∨
          ∃ c, p.Alloc c ∧ (∀ t < p.size, p.Cheapest t (cell c t)) ∧ p.total p.loss c < p.total p.loss (zeros p)) := by
  have htopAlloc := alloc_bestAt (p := p) ho topMultiplier
  have hcheap := alloc_cheapest (p := p) ho
  have hcheap' : ∀ t < p.size, p.Cheapest t (cell p.cheapest t) := fun t ht => cheapest_cheapest ht
  have hzero : ∀ t, cell (zeros p) t = 0 := fun t => cell_replicate_zero _ _
  constructor
  · intro h
    -- the budget that only the cheapest specs keep to
    have hm := h (p.total p.cost p.cheapest) ⟨p.cheapest, hcheap, le_refl _⟩
    have htop : p.total p.cost (p.bestAt topMultiplier) ≤ p.total p.cost p.cheapest := by
      by_contra hc
      exact absurd hm (not_le.2 (solve_over ho (not_le.1 hc)))
    have htop' := cheapest_of_cost_le hcheap' htopAlloc htop
    refine ⟨htop', ?_⟩
    rcases le_or_gt (p.total p.cost (zeros p)) (p.total p.cost p.cheapest) with h0 | h0
    · left
      intro t ht
      have := cheapest_of_cost_le hcheap' (alloc_zeros ho) h0 t ht
      rwa [hzero] at this
    · refine Or.inr ⟨_, htopAlloc, htop', ?_⟩
      by_contra hc
      -- the Lagrangian candidate spends the budget in full, so the fill adds nothing to it
      have hfit := lagrangian_fits (p := p) htop
      obtain ⟨lam, -, hlam, hbest⟩ := lagrangian_best p (p.total p.cost p.cheapest)
      have hge := cost_le_of_cheapest hcheap' (alloc_lagrangian (p.total p.cost p.cheapest) ho)
      have hmin := score_bestAt_le (alloc_lagrangian (p.total p.cost p.cheapest) ho) topMultiplier
      have htopge := cost_le_of_cheapest hcheap' htopAlloc
      have hloss : p.total p.loss (zeros p) ≤ p.total p.loss (lagrangian p (p.total p.cost p.cheapest)).bestL := by
        have e := le_antisymm (hfit.trans htopge) (htop.trans hge)
        rw [e] at hmin
        have := not_lt.1 hc
        linarith
      have hzeros := solve_eq_zeros h0 ho (by
        rw [(greedyFill_spec _ (alloc_lagrangian _ ho)).2.2.2 hge]
        exact hloss)
      rw [hzeros] at hm
      exact absurd hm (not_le.2 h0)
  · rintro ⟨htop, hfirst⟩ budget ⟨c, hc, hle⟩
    have hfit : p.total p.cost (p.bestAt topMultiplier) ≤ budget := (cost_le_of_cheapest htop hc).trans hle
    rcases hfirst with h0 | ⟨d, hd, hdc, hloss⟩
    · refine solve_fits ho ((cost_le_of_cheapest (fun t ht => ?_) hc).trans hle) hfit
      rw [hzero]
      exact h0 t ht
    · refine solve_fits_of_loss_lt ho hfit (lt_of_le_of_lt ?_ hloss)
      have hmin := score_bestAt_le hd topMultiplier
      have := le_antisymm (cost_le_of_cheapest htop hd) (cost_le_of_cheapest hdc htopAlloc)
      rw [this] at hmin
      linarith

/-- **When `build_allocation` keeps to its budget.** For one set of tensors and one menu, every target that some assignment of
specs keeps to is kept to, exactly if at the multiplier `1e25` every spec that is not a cheapest one of its tensor is beaten by
one that is, and either the first spec of the menu is a cheapest one of every tensor or some assignment of cheapest specs
measures less distortion than the first spec everywhere. -/
theorem achievedBpw_le_iff (rows : List (Probed α)) (candidateSpecs : List Spec) (groupSize dtypeBytes : ℕ) (sizeAware : Bool)
    (hok : ∃ a, buildAllocation rows (0 : α) candidateSpecs groupSize dtypeBytes sizeAware = .ok a) :
    let p := allocationProblem rows (sortedSpecs candidateSpecs groupSize sizeAware) groupSize dtypeBytes sizeAware
    (∀ target a, buildAllocation rows target candidateSpecs groupSize dtypeBytes sizeAware = .ok a →
        (∃ c, p.Alloc c ∧ p.total p.cost c ≤ target * (a.totalParams : α)) → a.achievedBpw ≤ target) ↔
      (∀ t < p.size, ∀ s < p.options, ¬ p.Cheapest t s → ∃ s' < p.options, p.Cheapest t s' ∧
        (p.score topMultiplier t s' < p.score topMultiplier t s ∨
          p.score topMultiplier t s' = p.score topMultiplier t s ∧ s' < s)) ∧
        ((∀ t < p.size, p.Cheapest t 0) ∨
          ∃ c, p.Alloc c ∧ (∀ t < p.size, p.Cheapest t (cell c t)) ∧ p.total p.loss c < p.total p.loss (zeros p)) := by
  intro p
  obtain ⟨a₀, h₀⟩ := hok
  obtain ⟨hlen, hpos, htotal, hall, -⟩ := buildAllocation_eq_ok h₀
  have ho : 0 < p.options := by
    have : 2 ≤ p.options := hlen
    omega
  have hpos' : (0 : α) < ((rows.map Probed.numel).sum : ℕ) := Nat.cast_pos.2 hpos
  rw [← cheapest_bestAt_iff ho, ← solve_fits_iff ho]
  constructor
  · intro h budget hc
    obtain ⟨a, ha⟩ := hall (budget / ((rows.map Probed.numel).sum : ℕ))
    obtain ⟨-, -, htot, -, hach⟩ := buildAllocation_eq_ok ha
    have e : budget / ((rows.map Probed.numel).sum : ℕ) * (a.totalParams : α) = budget := by
      rw [htot, div_mul_cancel₀ _ hpos'.ne']
    have := h _ a ha (by rwa [e])
    rw [hach] at this
    simp only [e] at this
    rwa [htot, div_le_div_iff_of_pos_right hpos'] at this
  · intro h target a ha hc
    obtain ⟨-, -, htot, -, hach⟩ := buildAllocation_eq_ok ha
    rw [hach]
    simp only
    rw [htot] at hc ⊢
    rw [div_le_iff₀ hpos']
    exact h _ hc

/-- Without the codebook tax the first spec of the menu is a cheapest one of every tensor: only the multiplier is left to go
wrong. -/
theorem cheapest_first (rows : List (Probed α)) (candidateSpecs : List Spec) (groupSize dtypeBytes t : ℕ) :
    (allocationProblem rows (sortedSpecs candidateSpecs groupSize false) groupSize dtypeBytes false).Cheapest t 0 := by
  intro s hs
  have hsorted := List.pairwise_insertionSort
    (fun a b : Spec => specBitsPerVector a.stages groupSize ≤ specBitsPerVector b.stages groupSize) candidateSpecs
  have hs' : s < (sortedSpecs candidateSpecs groupSize false).length := hs
  have hle : specBitsPerVector (sortedSpecs candidateSpecs groupSize false)[0].stages groupSize ≤
      specBitsPerVector (sortedSpecs candidateSpecs groupSize false)[s].stages groupSize := by
    rcases Nat.eq_zero_or_pos s with rfl | hpos
    · exact le_refl _
    · exact List.pairwise_iff_getElem.1 hsorted 0 s _ _ hpos
  simp only [allocationProblem, List.getElem?_eq_getElem hs', List.getElem?_eq_getElem (Nat.zero_lt_of_lt hs'), Option.elim_some,
    Bool.false_eq_true, if_false, add_zero]
  apply div_le_div_of_nonneg_right _ (Nat.cast_nonneg _)
  exact mul_le_mul_of_nonneg_left (Nat.cast_le.2 hle) (Nat.cast_nonneg _)

/-! ## What the allocation loses -/

/-- The distortion that the allocation records is the loss of the solver's choice. -/
theorem estimatedSse_sum {rows : List (Probed α)} {target : α} {candidateSpecs : List Spec} {groupSize dtypeBytes : ℕ}
    {sizeAware : Bool} {a : Allocation α}
    (h : buildAllocation rows target candidateSpecs groupSize dtypeBytes sizeAware = .ok a) :
    (a.tensors.map AllocationEntry.estimatedSse).sum =
      (let p := allocationProblem rows (sortedSpecs candidateSpecs groupSize sizeAware) groupSize dtypeBytes sizeAware
      p.total p.loss (solve p (target * (a.totalParams : α)))) := by
  obtain ⟨hlen, -⟩ := buildAllocation_eq_ok h
  unfold buildAllocation at h
  simp only at h
  split at h
  · cases h
  split at h
  · cases h
  split at h
  · cases h
  split at h
  · cases h
  obtain rfl := Except.ok.inj h
  simp only
  set p := allocationProblem rows (sortedSpecs candidateSpecs groupSize sizeAware) groupSize dtypeBytes sizeAware with hp
  set choice := solve p (target * (((rows.map Probed.numel).sum : ℕ) : α)) with hchoice
  have ho : 0 < p.options := by
    have : 2 ≤ p.options := hlen
    omega
  have hsize : choice.length = rows.length := (alloc_solve _ ho).length
  conv_lhs => rw [← filterMap_range_getElem? (rows.zip choice)]
  rw [List.filterMap_filterMap, sum_filterMap, List.length_zip, hsize, Nat.min_self]
  refine congrArg List.sum (List.map_congr_left fun t ht => ?_)
  have ht : t < rows.length := List.mem_range.1 ht
  have hc : choice[t]? = some (cell choice t) := by rw [cell_eq_getElem (by omega), List.getElem?_eq_getElem (by omega)]
  have hzip : (rows.zip choice)[t]? = some (rows[t], cell choice t) :=
    List.getElem?_zip_eq_some.2 ⟨List.getElem?_eq_getElem ht, hc⟩
  have hloss : p.loss t (cell choice t) = (sortedSpecs candidateSpecs groupSize sizeAware)[cell choice t]?.elim 0
      fun spec => rows[t].distortion spec.stages := by
    rw [hp, allocationProblem]
    simp only [List.getElem?_eq_getElem ht, Option.elim_some]
  rw [hzip, hloss, Option.bind_some]
  cases (sortedSpecs candidateSpecs groupSize sizeAware)[cell choice t]? <;> rfl

/-- **What the solver's choice loses.** The multiplier the bisection ends at prices the Lagrangian allocation below every other
one, the fill takes distortion off it, and the choice is never worse than the greedy fill. -/
theorem solve_loss_le {p : Problem α} (ho : 0 < p.options) (budget : α) :
    p.total p.loss (solve p budget) ≤ p.total p.loss (lagrangian p budget).bestL ∧
      (∀ c, p.Alloc c → p.total p.loss (lagrangian p budget).bestL ≤
        p.total p.loss c + (lagrangian p budget).hi * (p.total p.cost c - p.total p.cost (lagrangian p budget).bestL)) ∧
      (∀ c, p.Alloc c → p.total p.cost c ≤ p.total p.cost (lagrangian p budget).bestL →
        p.total p.loss (solve p budget) ≤ p.total p.loss c) ∧
      p.total p.loss (solve p budget) ≤ p.total p.loss (greedyFill p budget (zeros p) (p.total p.cost (zeros p))) := by
  have hspec : Bisects p budget (lagrangian p budget) := lagrangian_spec
  have hfill := (greedyFill_spec budget (alloc_lagrangian budget ho)).2.1
  have hfirst : p.total p.loss (solve p budget) ≤ p.total p.loss (lagrangian p budget).bestL := by
    rw [solve_eq]
    split
    · rename_i hle
      exact hle.trans hfill
    · exact hfill
  have hprice : ∀ c, p.Alloc c → p.total p.loss (lagrangian p budget).bestL ≤
      p.total p.loss c + (lagrangian p budget).hi * (p.total p.cost c - p.total p.cost (lagrangian p budget).bestL) := by
    intro c hc
    have hbest := score_bestAt_le hc (lagrangian p budget).hi
    rw [← hspec.best] at hbest
    rw [mul_sub]
    linarith
  refine ⟨hfirst, hprice, fun c hc hle => ?_, ?_⟩
  · have hnonneg : 0 ≤ (lagrangian p budget).hi := hspec.nonneg.trans hspec.le
    have hspend := mul_nonpos_of_nonneg_of_nonpos hnonneg (sub_nonpos.2 hle)
    linarith [hprice c hc]
  · rw [solve_eq]
    split
    · exact le_refl _
    · rename_i hlt
      exact (not_le.1 hlt).le

/-! ## Small tensors -/

/-- A tensor of 64 rows and 64 columns: the codebook of `vq-12` has an entry for each of its 512 vectors. -/
def smallRow : Probed ℚ where
  name := "model.layers.0.small.weight"
  numel := 4096
  distortion stages := if stages = [.vq 4096] then 0 else 1 / 10 ^ (3 * stages.length)

/-- The size-aware allocation of a small tensor: `rvq-s8` keeps to eight bits a weight, but `vq-12` comes first in the order of
the index bits, and its codebook alone is fifteen times the budget. -/
theorem buildAllocation_smallRow :
    ∃ a, buildAllocation [smallRow] 8 [⟨"vq-12", [.vq 4096]⟩] 8 2 true = .ok a ∧ a.achievedBpw = 259 / 2 ∧
      let p := allocationProblem [smallRow] (sortedSpecs [⟨"vq-12", [.vq 4096]⟩] 8 true) 8 2 true
      (∃ c, p.Alloc c ∧ p.total p.cost c ≤ 8 * (a.totalParams : ℚ)) ∧ ¬ a.achievedBpw ≤ 8 := by
  have hrun : (buildAllocation [smallRow] 8 [⟨"vq-12", [.vq 4096]⟩] 8 2 true).toOption.map
      (fun a => (a.achievedBpw, a.totalParams)) = some (259 / 2, 4096) := by decide +kernel
  cases h : buildAllocation [smallRow] 8 [⟨"vq-12", [.vq 4096]⟩] 8 2 true with
  | error e =>
    rw [h] at hrun
    cases hrun
  | ok a =>
    rw [h] at hrun
    obtain ⟨hach, htot⟩ := Prod.mk.inj (Option.some.inj hrun)
    refine ⟨a, rfl, hach, ⟨[1], ⟨rfl, by decide +kernel⟩, ?_⟩, ?_⟩
    · rw [htot]
      decide +kernel
    · rw [hach]
      norm_num

/-- Another tensor, of twice the size and with another distortion. -/
def largeRow : Probed ℚ where
  name := "model.layers.0.large.weight"
  numel := 8192
  distortion stages := 2 / 10 ^ (3 * stages.length)

/-- Two tensors at eight bits a weight. -/
theorem solve_loss_le_twoRows :
    let p := allocationProblem [smallRow, largeRow] (sortedSpecs [⟨"vq-12", [.vq 4096]⟩] 8 true) 8 2 true
    p.total p.loss (solve p (8 * 12288)) ≤ p.total p.loss (lagrangian p (8 * 12288)).bestL ∧
      (∀ c, p.Alloc c → p.total p.loss (lagrangian p (8 * 12288)).bestL ≤
        p.total p.loss c + (lagrangian p (8 * 12288)).hi * (p.total p.cost c - p.total p.cost (lagrangian p (8 * 12288)).bestL)) ∧
      (∀ c, p.Alloc c → p.total p.cost c ≤ p.total p.cost (lagrangian p (8 * 12288)).bestL →
        p.total p.loss (solve p (8 * 12288)) ≤ p.total p.loss c) ∧
      p.total p.loss (solve p (8 * 12288)) ≤
        p.total p.loss (greedyFill p (8 * 12288) (zeros p) (p.total p.cost (zeros p))) :=
  solve_loss_le (by decide) (8 * 12288)

/-- The same tensors without the tax, at one bit a weight: the condition holds, so the target is kept to. -/
theorem achievedBpw_le_twoRows :
    ∃ a, buildAllocation [smallRow, largeRow] 1 [⟨"vq-4", [.vq 16]⟩, ⟨"vq-12", [.vq 4096]⟩] 8 2 false = .ok a ∧
      a.achievedBpw ≤ 1 := by
  have hok : ∃ a, buildAllocation [smallRow, largeRow] (0 : ℚ) [⟨"vq-4", [.vq 16]⟩, ⟨"vq-12", [.vq 4096]⟩] 8 2 false = .ok a :=
    ⟨_, rfl⟩
  obtain ⟨a, ha⟩ : ∃ a, buildAllocation [smallRow, largeRow] 1 [⟨"vq-4", [.vq 16]⟩, ⟨"vq-12", [.vq 4096]⟩] 8 2 false = .ok a :=
    ⟨_, rfl⟩
  obtain ⟨-, -, htot, -, -⟩ := buildAllocation_eq_ok ha
  refine ⟨a, ha, (achievedBpw_le_iff [smallRow, largeRow] [⟨"vq-4", [.vq 16]⟩, ⟨"vq-12", [.vq 4096]⟩] 8 2 false hok).2
    ⟨?_, Or.inl ?_⟩ 1 a ha ⟨[0, 0], ⟨rfl, by decide +kernel⟩, ?_⟩⟩
  · decide +kernel
  · exact fun t _ => cheapest_first _ _ _ _ t
  · rw [htot]
    decide +kernel

end Orka
