import Orka.Qat

/-!
# The training loop and its checkpoints

`main` of `qat/train.py` from the optimizer on: the loop over the steps, `_save_ckpt` and the resuming of a run. The optimizer, the
schedule, the generator and the gradient of a micro-batch are parameters, each a function of what it reads.
-/

namespace Orka

section QatTrain

variable {α : Type} [Field α] [LinearOrder α]

/-- What the loop is given. `recomputes` counts the forwards that gradient checkpointing repeats in a backward, and `bumps` the
operations in place by which the optimizer writes a parameter. -/
structure Trainer (α β γ σ τ ρ : Type) where
  gradAccum : ℤ := 1
  recomputes : ℕ := 0
  zeroGrad : γ
  /-- A batch of the corpus, with what is left of the generator. -/
  randint : ρ → β × ρ
  /-- The gradients with those of a micro-batch added, from the parameters and the assignments that its forwards used. -/
  backward : γ → List (LayerValues α) → List (Option (List (List ℕ))) → β → γ
  clipGradNorm : γ → γ
  /-- `opt.step()`, on the identities of the parameters, their values and their gradients. -/
  optStep : σ → List ℕ → List (LayerValues α) → γ → σ × List (LayerValues α)
  bumps : ℕ
  /-- `sched.step()`, which also sets the rate of the optimizer. -/
  schedStep : τ → σ → τ × σ
  /-- What `load_state_dict` of a new object makes of the state of an old one. -/
  optLoad : σ → σ → σ
  schedLoad : τ → τ → τ
  rngSetState : ρ → ρ → ρ

/-- What a process holds between two steps. -/
structure Training (α σ τ ρ : Type) where
  layers : List (QatLinear α)
  opt : σ
  sched : τ
  rng : ρ
  step : ℕ := 0

/-- `qat_ckpt.pt`. -/
structure Checkpoint (α σ τ ρ : Type) where
  student : List (LayerValues α)
  opt : σ
  sched : τ
  rng : ρ
  step : ℕ

namespace Training

variable {σ τ ρ : Type}

/-- The values of the parameters. -/
def values (s : Training α σ τ ρ) : List (LayerValues α) := s.layers.map QatLinear.values

/-- `_save_ckpt(step)`. -/
def saveCkpt (s : Training α σ τ ρ) : Checkpoint α σ τ ρ := ⟨s.values, s.opt, s.sched, s.rng, s.step⟩

end Training

namespace Trainer

variable {β γ σ τ ρ : Type} (T : Trainer α β γ σ τ ρ)

/-- One micro-batch, on the layers, the gradients and the generator. -/
def microBatch (w : List (QatLinear α) × γ × ρ) : List (QatLinear α) × γ × ρ :=
  let drawn := T.randint w.2.2
  let layers := w.1.map QatLinear.forward
  let grads := T.backward w.2.1 (layers.map QatLinear.values) (layers.map QatLinear.cachedIdx) drawn.1
  (layers.map QatLinear.forward^[T.recomputes], grads, drawn.2)

/-- The micro-batches of a step. -/
def accumulate (layers : List (QatLinear α)) (rng : ρ) : List (QatLinear α) × γ × ρ :=
  T.microBatch^[(max 1 T.gradAccum).toNat] (layers, T.zeroGrad, rng)

/-- The body of the loop. -/
def trainStep (s : Training α σ τ ρ) : Training α σ τ ρ :=
  let acc := T.accumulate s.layers s.rng
  let ids := acc.1.flatMap fun l => l.params.map QatParam.id
  let updated := T.optStep s.opt ids (acc.1.map QatLinear.values) (T.clipGradNorm acc.2.1)
  let scheduled := T.schedStep s.sched updated.1
  { layers := List.zipWith (fun l v => l.store v T.bumps) acc.1 updated.2
    opt := scheduled.2
    sched := scheduled.1
    rng := acc.2.2
    step := s.step + 1 }

/-- `--resume` in a new process, whose student has been rebuilt. -/
def resume (new : Training α σ τ ρ) (ck : Checkpoint α σ τ ρ) : Training α σ τ ρ where
  layers := List.zipWith (fun l v => l.store v 1) new.layers ck.student
  opt := T.optLoad new.opt ck.opt
  sched := T.schedLoad new.sched ck.sched
  rng := T.rngSetState new.rng ck.rng
  step := ck.step

end Trainer

end QatTrain

end Orka
