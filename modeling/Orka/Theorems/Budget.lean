import Orka.Lemmas.Pipeline
import Orka.Theorems.Paths

/-!
# The byte budget of a pack

What `PrefetchBudget` has outstanding is the bytes of the candidates on their way, in every state of a run, exactly if no candidate
with bytes of its own is dropped: the finalize worker goes on after an error, and the bytes of the tensor it failed at stay
reserved.
-/

namespace Orka

open PipelineAux

variable {α : Type}

/-- The budget is kept: what is outstanding is what the candidates on their way have reserved, and it is over the budget only
while a single one of them has bytes. -/
structure Accounted (cfg : PipelineConfig) (s : Pipeline α) : Prop where
  balance : s.outstanding = (s.live.map cfg.bytes).sum
  single : ∀ budget, cfg.budget = some budget → budget < s.outstanding →
    (s.live.filter fun job => 0 < cfg.bytes job).length = 1

namespace BudgetAux

/-- Jobs that hold no bytes are no jobs in the budget. -/
theorem filter_eq_nil_of_sum {cfg : PipelineConfig} {jobs : List (Job α)} (h : (jobs.map cfg.bytes).sum = 0) :
    jobs.filter (fun job => 0 < cfg.bytes job) = [] := by
  rw [List.filter_eq_nil_iff]
  intro job hj
  have := List.sum_eq_zero_iff.1 h _ (List.mem_map_of_mem hj)
  simp [this]

theorem accounted_start (cfg : PipelineConfig) (tensors : List (PackedTensor α)) : Accounted cfg (Pipeline.start tensors) :=
  ⟨rfl, fun _ _ h => absurd h (Nat.not_lt_zero _)⟩

variable [Field α] [LinearOrder α] [FloorRing α] {cfg : PipelineConfig} {s s' : Pipeline α} {a : Action}

/-- After a step the bytes that were lost in it are outstanding as well. -/
theorem balance_step (h : cfg.step s a = some s') (hb : s.outstanding = (s.live.map cfg.bytes).sum) :
    s'.outstanding = (s'.live.map cfg.bytes).sum + cfg.lost s a := by
  rcases live_move (move_of_step h) with ⟨job, -, hl, ho, hz⟩ | ⟨job, hl, ho, hz⟩ | ⟨gone, hp, ho, hz⟩
  · rw [ho, hb, hl, hz, List.map_append, List.sum_append]
    simp
  · rw [ho, hb, hl, hz, List.map_cons, List.sum_cons]
    omega
  · rw [ho, hb, (hp.map cfg.bytes).sum_eq, List.map_append, List.sum_append, hz, Nat.add_comm]

/-- A step that loses no bytes keeps the budget. -/
theorem accounted_step (h : cfg.step s a = some s') (hz : cfg.lost s a = 0) (hs : Accounted cfg s) : Accounted cfg s' := by
  have hbalance : s'.outstanding = (s'.live.map cfg.bytes).sum := by
    rw [balance_step h hs.balance, hz, Nat.add_zero]
  refine ⟨hbalance, fun budget hcfg hover => ?_⟩
  rcases live_move (move_of_step h) with ⟨job, ha, hl, ho, -⟩ | ⟨job, hl, ho, -⟩ | ⟨gone, hp, ho, hg⟩
  · -- over the budget a candidate is admitted only when nothing is outstanding
    have hzero : s.outstanding = 0 := by
      simp only [PipelineConfig.admits, hcfg, decide_eq_true_eq, not_and, not_lt] at ha
      by_contra hne
      have := ha (Nat.pos_of_ne_zero hne)
      omega
    have hpos : 0 < cfg.bytes job := by omega
    rw [hl, List.filter_append, filter_eq_nil_of_sum (hs.balance ▸ hzero)]
    simp [hpos]
  · have hsingle := hs.single budget hcfg (by omega)
    rw [hl, List.filter_cons] at hsingle
    split at hsingle
    · -- the candidate that is finished was the only one with bytes
      have hnil := List.eq_nil_of_length_eq_zero (Nat.succ.inj hsingle)
      have hsum : (s'.live.map cfg.bytes).sum = 0 := by
        refine List.sum_eq_zero fun b hb => ?_
        obtain ⟨job', hj, rfl⟩ := List.mem_map.1 hb
        have := List.filter_eq_nil_iff.1 hnil job' hj
        simpa using this
      omega
    · exact hsingle
  · have hsingle := hs.single budget hcfg (ho ▸ hover)
    rw [(hp.filter _).length_eq, List.filter_append, filter_eq_nil_of_sum (hg.symm.trans hz)] at hsingle
    exact hsingle

end BudgetAux

open BudgetAux

variable [Field α] [LinearOrder α] [FloorRing α]

/-- **When the byte budget is kept.** It is kept in every state a run passes through exactly if every candidate whose preparing,
packing or finalizing fails in it has reserved no bytes. -/
theorem accounted_iff (cfg : PipelineConfig) (tensors : List (PackedTensor α)) (as : List Action) (s : Pipeline α)
    (h : Machine.run cfg.step (.start tensors) as = some s) :
    (∀ pre post t, as = pre ++ post → Machine.run cfg.step (.start tensors) pre = some t → Accounted cfg t) ↔
      Machine.Along cfg.step (fun t a => cfg.lost t a = 0) (.start tensors) as := by
  constructor
  · intro hall
    refine Machine.along_of_states (I := Accounted cfg) (fun s a s' hs hs' hstep => ?_) hall h
    have := balance_step hstep hs.balance
    have := hs'.balance
    omega
  · rintro hP pre post t rfl hpre
    exact Machine.invariant (fun s a s' hz hs hstep => accounted_step hstep hz hs) (accounted_start cfg tensors)
      ((Machine.along_append hpre).1 hP).1 hpre

/-! ## A small run -/

/-- A pack in one stage within four bytes. -/
def tinyPipeline : PipelineConfig := ⟨1, 32, false, some 4, fun raw => raw⟩

/-- One candidate, prepared, packed and written, up to its finalizing. -/
def tinyRun : List Action :=
  [.reserve, .put, .poll, .get, .call, .call, .call, .handOver, .writerGet, .write, .writerGet, .write, .writerGet, .write,
    .finalizerGet]

/-- The bytes of a candidate whose finalizing fails stay outstanding. -/
theorem not_accounted_finalizeFail :
    ∃ s, Machine.run tinyPipeline.step (.start [tinyTensor "a.weight"]) (tinyRun ++ [.finalizeFail]) = some s ∧
      s.outstanding = 8 ∧ s.live = [] ∧ ¬ Accounted tinyPipeline s := by
  obtain ⟨s, h, ho, hl⟩ : ∃ s, Machine.run tinyPipeline.step (.start [tinyTensor "a.weight"]) (tinyRun ++ [.finalizeFail]) =
      some s ∧ s.outstanding = 8 ∧ s.live = [] := ⟨_, rfl, rfl, rfl⟩
  refine ⟨s, h, ho, hl, fun hs => ?_⟩
  have := hs.balance
  rw [ho, hl] at this
  cases this

/-- A candidate larger than the budget is admitted alone, and its bytes are returned. -/
theorem accounted_oneTensor :
    ∃ s, Machine.run tinyPipeline.step (.start [tinyTensor "a.weight"]) (tinyRun ++ [.refresh, .finalize]) = some s ∧
      s.outstanding = 0 ∧ Accounted tinyPipeline s := by
  obtain ⟨s, h, ho⟩ : ∃ s, Machine.run tinyPipeline.step (.start [tinyTensor "a.weight"]) (tinyRun ++ [.refresh, .finalize]) =
      some s ∧ s.outstanding = 0 := ⟨_, rfl, rfl⟩
  refine ⟨s, h, ho, (accounted_iff tinyPipeline [tinyTensor "a.weight"] (tinyRun ++ [.refresh, .finalize]) s h).2
    (Machine.along_of_forall fun a ha t => ?_) _ [] s (List.append_nil _).symm h⟩
  have hf : ∀ a ∈ tinyRun ++ [.refresh, .finalize], a.fails = false := by decide
  have := hf a ha
  cases a <;> first | rfl | cases this

end Orka
