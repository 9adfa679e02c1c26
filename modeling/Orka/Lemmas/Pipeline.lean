import Orka.Lemmas.Artifact
import Orka.Pipeline

/-!
# Steps of the threads

What each action does to the state, once for all invariants, and the two facts every run keeps: the order of the candidates and
the balance of the byte budget.
-/

namespace Orka.PipelineAux

open PipelineConfig

variable {α : Type} {cfg : PipelineConfig}

/-- Everything an action can do, with the condition it is enabled under. -/
inductive Move [Field α] [LinearOrder α] [FloorRing α] (cfg : PipelineConfig) (s : Pipeline α) : Action → Pipeline α → Prop
  | reserve {job rest} (hp : s.preparing = none) (hu : s.upcoming = job :: rest) (ha : cfg.admits s.outstanding job = true) :
    Move cfg s .reserve
      { s with upcoming := rest, preparing := some job, outstanding := s.outstanding + cfg.bytes job }
  | put {job} (hp : s.preparing = some job) :
    Move cfg s .put { s with preparing := none, prefetchQueue := s.prefetchQueue ++ [job] }
  | prefetchEnd (hp : s.preparing = none) (hu : s.upcoming = []) : Move cfg s .prefetchEnd { s with prefetchDone := true }
  | prefetchFail :
    Move cfg s .prefetchFail { s with upcoming := [], preparing := none, prefetchDone := true, prefetchFailed := true }
  | leave (ht : s.thread = .idle) : Move cfg s .poll { s with thread := .left }
  | poll (ht : s.thread = .idle) : Move cfg s .poll { s with thread := .polling }
  | timeout (ht : s.thread = .polling) : Move cfg s .timeout { s with thread := .idle }
  | get {job rest} (ht : s.thread = .polling) (hq : s.prefetchQueue = job :: rest) :
    Move cfg s .get { s with thread := .packing job (cfg.calls job), prefetchQueue := rest }
  | submit {job item calls} (ht : s.thread = .packing job (.submit item :: calls)) :
    Move cfg s .call { s with thread := .packing job calls, writerQueue := s.writerQueue ++ [item] }
  | wait {job calls} (ht : s.thread = .packing job (.wait :: calls)) : Move cfg s .call { s with thread := .packing job calls }
  | handOver {job} (ht : s.thread = .packing job []) :
    Move cfg s .handOver { s with thread := .idle, finalizeQueue := s.finalizeQueue ++ [job] }
  | packFail {job calls} (ht : s.thread = .packing job calls) : Move cfg s .packFail { s with thread := .left }
  | writerGet {item rest} (hw : s.writing = none) (hq : s.writerQueue = item :: rest) :
    Move cfg s .writerGet { s with writing := some item, writerQueue := rest }
  | write {item} (hw : s.writing = some item) : Move cfg s .write (cfg.perform s item)
  | writeFail {n task} (hw : s.writing = some (.task n task)) :
    Move cfg s .writeFail { s with writing := none, writeFailed := true }
  | finalizerGet {job rest} (hf : s.finalizing = none) (hq : s.finalizeQueue = job :: rest) :
    Move cfg s .finalizerGet { s with finalizing := some ⟨job, none⟩, finalizeQueue := rest }
  | refresh {job} (hf : s.finalizing = some ⟨job, none⟩) (hb : s.barriers job.number = true) :
    Move cfg s .refresh { s with finalizing := some ⟨job, some (cfg.indexBytes s.disk job.tensor)⟩ }
  | finalize {job sizes side entry} (hf : s.finalizing = some ⟨job, some sizes⟩)
      (he : cfg.entry (s.encodings job.number) job.tensor = .ok (side, entry)) :
    Move cfg s .finalize
      { s with
        finalizing := none
        outstanding := s.outstanding - cfg.bytes job
        disk := s.disk ++ side.writes
        manifest := s.manifest ++ [⟨job, entry, sizes⟩] }
  | finalizeFail {f} (hf : s.finalizing = some f) : Move cfg s .finalizeFail { s with finalizing := none }

section Step

variable [Field α] [LinearOrder α] [FloorRing α] {s s' : Pipeline α} {a : Action}

/-- **Every step is one of these moves.** -/
theorem move_of_step (h : cfg.step s a = some s') : Move cfg s a s' := by
  cases a <;> simp only [step] at h
  case reserve =>
    split at h
    · next hp hu =>
      split at h
      · next ha => exact Option.some.inj h ▸ .reserve hp hu ha
      · cases h
    · cases h
  case put =>
    split at h
    · next hp =>
      split at h
      · exact Option.some.inj h ▸ .put hp
      · cases h
    · cases h
  case prefetchEnd =>
    split at h
    · next hp hu =>
      split at h
      · cases h
      · exact Option.some.inj h ▸ .prefetchEnd hp hu
    · cases h
  case prefetchFail =>
    split at h
    · cases h
    · exact Option.some.inj h ▸ .prefetchFail
  case poll =>
    split at h
    · next ht =>
      split at h
      · exact Option.some.inj h ▸ .leave ht
      · exact Option.some.inj h ▸ .poll ht
    · cases h
  case timeout =>
    split at h
    · next ht _ => exact Option.some.inj h ▸ .timeout ht
    · cases h
  case get =>
    split at h
    · next ht hq => exact Option.some.inj h ▸ .get ht hq
    · cases h
  case call =>
    split at h
    · next ht =>
      split at h
      · exact Option.some.inj h ▸ .submit ht
      · cases h
    · next ht =>
      split at h
      · exact Option.some.inj h ▸ .wait ht
      · cases h
    · cases h
  case handOver =>
    split at h
    · next ht =>
      split at h
      · exact Option.some.inj h ▸ .handOver ht
      · cases h
    · cases h
  case packFail =>
    split at h
    · next ht => exact Option.some.inj h ▸ .packFail ht
    · cases h
  case writerGet =>
    split at h
    · next hw hq => exact Option.some.inj h ▸ .writerGet hw hq
    · cases h
  case write =>
    obtain ⟨item, hw, rfl⟩ := Option.map_eq_some_iff.1 h
    exact .write hw
  case writeFail =>
    split at h
    · next hw => exact Option.some.inj h ▸ .writeFail hw
    · cases h
  case finalizerGet =>
    split at h
    · next hf hq => exact Option.some.inj h ▸ .finalizerGet hf hq
    · cases h
  case refresh =>
    split at h
    · next hf =>
      split at h
      · next hb => exact Option.some.inj h ▸ .refresh hf hb
      · cases h
    · cases h
  case finalize =>
    split at h
    · next hf =>
      split at h
      · cases h
      · next he => exact Option.some.inj h ▸ .finalize hf he
    · cases h
  case finalizeFail =>
    split at h
    · next hf =>
      split at h
      · exact Option.some.inj h ▸ .finalizeFail hf
      · cases h
    · cases h

/-! ## The order of the candidates -/

/-- Every candidate that is left, by how far it has come: in the manifest, on its way, and to come. -/
def order (s : Pipeline α) : List (Job α) := s.manifest.map Record.job ++ s.live ++ s.upcoming

omit [Field α] [LinearOrder α] [FloorRing α] in
theorem order_perform (item : WriterItem α) : order (cfg.perform s item) = order s := by
  cases item <;> rfl

/-- Candidates move on in order. -/
theorem order_move (h : Move cfg s a s') (hf : a.fails = false) : order s' = order s := by
  cases h with
  | reserve hp hu ha => simp [order, Pipeline.live, hp, hu]
  | put hp => simp [order, Pipeline.live, hp]
  | leave ht => simp [order, Pipeline.live, ht]
  | poll ht => simp [order, Pipeline.live, ht]
  | timeout ht => simp [order, Pipeline.live, ht]
  | get ht hq => simp [order, Pipeline.live, ht, hq]
  | submit ht => simp [order, Pipeline.live, ht]
  | wait ht => simp [order, Pipeline.live, ht]
  | handOver ht => simp [order, Pipeline.live, ht]
  | write hw => exact order_perform _
  | finalizerGet hg hq => simp [order, Pipeline.live, hg, hq]
  | refresh hg hb => simp [order, Pipeline.live, hg]
  | finalize hg he => simp [order, Pipeline.live, hg]
  | prefetchEnd | writerGet => rfl
  | prefetchFail | packFail | writeFail | finalizeFail => cases hf

/-! ## The byte budget -/

/-- What an action does to the reserved bytes: it admits a candidate, it finishes the oldest one and returns its bytes, or it
leaves the bytes alone and drops candidates, mostly none. -/
theorem live_move (h : Move cfg s a s') :
    (∃ job, cfg.admits s.outstanding job = true ∧ s'.live = s.live ++ [job] ∧
        s'.outstanding = s.outstanding + cfg.bytes job ∧ cfg.lost s a = 0) ∨
      (∃ job, s.live = job :: s'.live ∧ s'.outstanding = s.outstanding - cfg.bytes job ∧ cfg.lost s a = 0) ∨
        ∃ gone, s.live.Perm (gone ++ s'.live) ∧ s'.outstanding = s.outstanding ∧ cfg.lost s a = (gone.map cfg.bytes).sum := by
  have same : s'.live = s.live → s'.outstanding = s.outstanding → cfg.lost s a = 0 →
      ∃ gone, s.live.Perm (gone ++ s'.live) ∧ s'.outstanding = s.outstanding ∧ cfg.lost s a = (gone.map cfg.bytes).sum :=
    fun hl ho hz => ⟨[], by rw [hl, List.nil_append], ho, by rw [hz]; rfl⟩
  cases h with
  | reserve hp hu ha => exact Or.inl ⟨_, ha, by simp [Pipeline.live, hp], rfl, rfl⟩
  | finalize hf he => exact Or.inr (Or.inl ⟨_, by simp [Pipeline.live, hf], rfl, rfl⟩)
  | put hp => exact Or.inr (Or.inr (same (by simp [Pipeline.live, hp]) rfl rfl))
  | leave ht => exact Or.inr (Or.inr (same (by simp [Pipeline.live, ht]) rfl rfl))
  | poll ht => exact Or.inr (Or.inr (same (by simp [Pipeline.live, ht]) rfl rfl))
  | timeout ht => exact Or.inr (Or.inr (same (by simp [Pipeline.live, ht]) rfl rfl))
  | get ht hq => exact Or.inr (Or.inr (same (by simp [Pipeline.live, ht, hq]) rfl rfl))
  | submit ht => exact Or.inr (Or.inr (same (by simp [Pipeline.live, ht]) rfl rfl))
  | wait ht => exact Or.inr (Or.inr (same (by simp [Pipeline.live, ht]) rfl rfl))
  | handOver ht => exact Or.inr (Or.inr (same (by simp [Pipeline.live, ht]) rfl rfl))
  | write hw =>
    rename_i item
    exact Or.inr (Or.inr (same (by cases item <;> rfl) (by cases item <;> rfl) rfl))
  | finalizerGet hf hq => exact Or.inr (Or.inr (same (by simp [Pipeline.live, hf, hq]) rfl rfl))
  | refresh hf hb => exact Or.inr (Or.inr (same (by simp [Pipeline.live, hf]) rfl rfl))
  | prefetchEnd | writerGet | writeFail => exact Or.inr (Or.inr (same rfl rfl rfl))
  | prefetchFail =>
    refine Or.inr (Or.inr ⟨s.preparing.toList, ?_, rfl, rfl⟩)
    simp only [Pipeline.live, Option.toList_none, List.append_nil]
    exact List.perm_append_comm
  | packFail ht =>
    refine Or.inr (Or.inr ⟨s.thread.jobs, ?_, rfl, rfl⟩)
    simp only [Pipeline.live, PackingThread.jobs_left, List.append_nil]
    rw [List.append_assoc _ s.prefetchQueue, List.append_assoc _ s.prefetchQueue, ← List.append_assoc s.thread.jobs]
    exact List.perm_append_comm.append_right _
  | finalizeFail hf =>
    refine Or.inr (Or.inr ⟨(s.finalizing.map Finalizing.job).toList, ?_, rfl, rfl⟩)
    simp [Pipeline.live, hf]

end Step

end Orka.PipelineAux
