import Orka.Artifact
import Orka.Lib.Machine

/-!
# The threads of a pack

A pack of streamed tensors runs on four threads: the prefetch worker prepares candidates and reserves their bytes, the packing
thread quantizes them and submits their writes, the background writer writes, and the finalize worker makes the manifest entries
and returns the bytes. They meet in three bounded queues and in one event for each candidate. What preparing and quantizing
compute of a tensor is data here.
-/

namespace Orka

/-- `PREFETCH_QUEUE_DEPTH`. -/
def prefetchQueueDepth : ℕ := 4

/-- The `maxsize` of the queue of `BackgroundWriter`. -/
def writerQueueDepth : ℕ := 128

/-- The `maxsize` of the queue of `_FinalizeWorker`. -/
def finalizeQueueDepth : ℕ := 1

/-- The configuration of a pack of streamed tensors; `budget` is that of its `PrefetchBudget`, if it has one. -/
structure PipelineConfig where
  nStages : ℕ
  blockScaleSize : ℕ
  mseScale : Bool
  budget : Option ℕ
  compress : List ℕ → List ℕ

/-- The configuration of its files. -/
def PipelineConfig.pack (cfg : PipelineConfig) : PackConfig := ⟨.perTensor, cfg.nStages, cfg.blockScaleSize⟩

/-- `path.stat().st_size`. -/
def File.size {α : Type} (compress : List ℕ → List ℕ) : File α → ℕ
  | .floats .float16 values => 2 * values.length
  | .floats .float32 values => 4 * values.length
  | .int8 scales q => 2 * scales.length + q.length
  | .unsigned .uint8 values => values.length
  | .unsigned .uint16 values => 2 * values.length
  | .unsigned .uint32 values => 4 * values.length
  | .unsigned .uint64 values => 8 * values.length
  | .stream encoding raw => streamBytes compress encoding raw

section Threads

variable {α : Type}

/-- A candidate, with its place among the candidates of the source. -/
structure Job (α : Type) where
  number : ℕ
  tensor : PackedTensor α

/-- A task of the background writer: a write of a candidate's stage, or `barrier.set` of its event. -/
inductive WriterItem (α : Type) where
  | task (job : ℕ) (task : Task α)
  | barrier (job : ℕ)

/-- The candidate an item belongs to. -/
def WriterItem.job : WriterItem α → ℕ
  | .task job _ | .barrier job => job

/-- What the packing thread asks of the background writer: `submit`, or `wait` until everything is written. -/
inductive Call (α : Type) where
  | submit (item : WriterItem α)
  | wait

/-- Where the packing thread is: at the head of its loop, in `prefetch_queue.get`, at a candidate with the calls it has still to
make before it hands the candidate over, or out of the loop. -/
inductive PackingThread (α : Type) where
  | idle
  | polling
  | packing (job : Job α) (calls : List (Call α))
  | left

/-- The candidate of the finalize worker and, once they are read, the sizes of its index streams. -/
structure Finalizing (α : Type) where
  job : Job α
  indexBytes : Option (List ℕ)

/-- A manifest entry, with the `index_bytes` of its stages. -/
structure Record (α : Type) where
  job : Job α
  entry : TensorMeta
  indexBytes : List ℕ

/-- The state of a pack: its threads, its queues, the byte budget, the events that are set, what the metadata of the stages
records, the files in the order they were written, and the manifest. -/
structure Pipeline (α : Type) where
  upcoming : List (Job α)
  preparing : Option (Job α) := none
  prefetchDone : Bool := false
  prefetchFailed : Bool := false
  prefetchQueue : List (Job α) := []
  thread : PackingThread α := .idle
  writerQueue : List (WriterItem α) := []
  writing : Option (WriterItem α) := none
  writeFailed : Bool := false
  finalizeQueue : List (Job α) := []
  finalizing : Option (Finalizing α) := none
  outstanding : ℕ := 0
  barriers : ℕ → Bool := fun _ => false
  encodings : ℕ → Encodings := fun _ _ => none
  disk : List (String × File α) := []
  manifest : List (Record α) := []

/-- The candidates of a pack, in the order of the source. -/
def jobsOf (tensors : List (PackedTensor α)) : List (Job α) := tensors.mapIdx Job.mk

/-- The state a pack starts in. -/
def Pipeline.start (tensors : List (PackedTensor α)) : Pipeline α := { upcoming := jobsOf tensors }

/-- The candidate the packing thread is at. -/
def PackingThread.jobs : PackingThread α → List (Job α)
  | .packing job _ => [job]
  | _ => []

@[simp] theorem PackingThread.jobs_idle : (idle : PackingThread α).jobs = [] := rfl

@[simp] theorem PackingThread.jobs_polling : (polling : PackingThread α).jobs = [] := rfl

@[simp] theorem PackingThread.jobs_packing (job : Job α) (calls : List (Call α)) : (packing job calls).jobs = [job] := rfl

@[simp] theorem PackingThread.jobs_left : (left : PackingThread α).jobs = [] := rfl

/-- The candidates whose bytes are reserved and that are still prepared, queued, packed or to be finalized, the oldest first. -/
def Pipeline.live (s : Pipeline α) : List (Job α) :=
  (s.finalizing.map Finalizing.job).toList ++ s.finalizeQueue ++ s.thread.jobs ++ s.prefetchQueue ++ s.preparing.toList

/-- What a thread can do next. The producer reserves, puts a candidate on the queue, ends, or raises; the packing thread comes to
the head of its loop, waits in vain or gets a candidate, makes a call, hands over, or raises; the writer and the finalize worker
take from their queues and do their work or fail in it. -/
inductive Action where
  | reserve
  | put
  | prefetchEnd
  | prefetchFail
  | poll
  | timeout
  | get
  | call
  | handOver
  | packFail
  | writerGet
  | write
  | writeFail
  | finalizerGet
  | refresh
  | finalize
  | finalizeFail
  deriving DecidableEq, Repr

/-- The actions in which something fails. -/
def Action.fails : Action → Bool
  | .prefetchFail | .packFail | .writeFail | .finalizeFail => true
  | _ => false

namespace PipelineConfig

variable (cfg : PipelineConfig)

/-- `est_bytes`. -/
def bytes (job : Job α) : ℕ :=
  match cfg.budget with
  | none => 0
  | some _ => job.tensor.shape.prod * 8

/-- Whether `reserve` does not block. -/
def admits (outstanding : ℕ) (job : Job α) : Bool :=
  match cfg.budget with
  | none => true
  | some budget => ¬ (0 < outstanding ∧ budget < outstanding + cfg.bytes job)

/-- What a candidate submits: its writes, and then its barrier. -/
def items (job : Job α) : List (WriterItem α) :=
  (tensorTasks cfg.pack job.tensor).map (.task job.number) ++ [.barrier job.number]

/-- The calls `process_streamed_per_tensor_candidate` makes up to the handing over. The refinement of the scales comes last of the
strategies and waits for the writer. -/
def calls (job : Job α) : List (Call α) :=
  (tensorTasks cfg.pack job.tensor).map (fun task => .submit (.task job.number task)) ++
    (if cfg.mseScale then [.wait] else []) ++ [.submit (.barrier job.number)]

/-- `index_bytes` of each stage, read from the disk. -/
def indexBytes (disk : List (String × File α)) (t : PackedTensor α) : List ℕ :=
  (t.numberedStages cfg.pack).map fun s =>
    (Journal.get disk (t.path cfg.pack (.indices s.2))).elim 0 (File.size cfg.compress)

/-- The task of the writer, done. -/
def perform (s : Pipeline α) : WriterItem α → Pipeline α
  | .task job task =>
    let (write, encodings) := runTask cfg.compress (s.encodings job) task
    { s with writing := none, disk := s.disk ++ [write], encodings := Function.update s.encodings job encodings }
  | .barrier job => { s with writing := none, barriers := Function.update s.barriers job true }

/-- The bytes of the candidate that an action drops. -/
def lost (s : Pipeline α) : Action → ℕ
  | .prefetchFail => (s.preparing.toList.map cfg.bytes).sum
  | .packFail => (s.thread.jobs.map cfg.bytes).sum
  | .finalizeFail => ((s.finalizing.map Finalizing.job).toList.map cfg.bytes).sum
  | _ => 0

variable [Field α] [LinearOrder α] [FloorRing α]

/-- The sidecars and the entry `_finalize_tensor_manifest_entry` makes. -/
def entry (encodings : Encodings) (t : PackedTensor α) : Except PyErr (Sidecars α × TensorMeta) :=
  (persistTensorSidecars cfg.pack t).bind fun side =>
    (buildTensorManifestEntry cfg.pack t encodings side).map fun entry => (side, entry)

/-- One step of a pack. `_FinalizeWorker._run` returns a candidate's bytes at the end of its entry: where that raises it goes on
to the next candidate and the bytes stay reserved. -/
def step (s : Pipeline α) : Action → Option (Pipeline α)
  | .reserve => match s.preparing, s.upcoming with
    | none, job :: rest =>
      if cfg.admits s.outstanding job then
        some { s with upcoming := rest, preparing := some job, outstanding := s.outstanding + cfg.bytes job }
      else none
    | _, _ => none
  | .put => match s.preparing with
    | some job =>
      if s.prefetchQueue.length < prefetchQueueDepth then
        some { s with preparing := none, prefetchQueue := s.prefetchQueue ++ [job] }
      else none
    | none => none
  | .prefetchEnd => match s.preparing, s.upcoming with
    | none, [] => if s.prefetchDone then none else some { s with prefetchDone := true }
    | _, _ => none
  | .prefetchFail =>
    if s.prefetchDone then none
    else some { s with upcoming := [], preparing := none, prefetchDone := true, prefetchFailed := true }
  | .poll => match s.thread with
    | .idle =>
      if s.prefetchDone ∧ s.prefetchQueue.isEmpty ∨ s.prefetchFailed then some { s with thread := .left }
      else some { s with thread := .polling }
    | _ => none
  | .timeout => match s.thread, s.prefetchQueue with
    | .polling, [] => some { s with thread := .idle }
    | _, _ => none
  | .get => match s.thread, s.prefetchQueue with
    | .polling, job :: rest => some { s with thread := .packing job (cfg.calls job), prefetchQueue := rest }
    | _, _ => none
  | .call => match s.thread with
    | .packing job (.submit item :: calls) =>
      if s.writerQueue.length < writerQueueDepth then
        some { s with thread := .packing job calls, writerQueue := s.writerQueue ++ [item] }
      else none
    | .packing job (.wait :: calls) =>
      if s.writerQueue.isEmpty ∧ s.writing.isNone ∧ ¬ s.writeFailed then some { s with thread := .packing job calls } else none
    | _ => none
  | .handOver => match s.thread with
    | .packing job [] =>
      if s.finalizeQueue.length < finalizeQueueDepth then
        some { s with thread := .idle, finalizeQueue := s.finalizeQueue ++ [job] }
      else none
    | _ => none
  | .packFail => match s.thread with
    | .packing _ _ => some { s with thread := .left }
    | _ => none
  | .writerGet => match s.writing, s.writerQueue with
    | none, item :: rest => some { s with writing := some item, writerQueue := rest }
    | _, _ => none
  | .write => s.writing.map (cfg.perform s)
  | .writeFail => match s.writing with
    | some (.task _ _) => some { s with writing := none, writeFailed := true }
    | _ => none
  | .finalizerGet => match s.finalizing, s.finalizeQueue with
    | none, job :: rest => some { s with finalizing := some ⟨job, none⟩, finalizeQueue := rest }
    | _, _ => none
  | .refresh => match s.finalizing with
    | some ⟨job, none⟩ =>
      if s.barriers job.number then some { s with finalizing := some ⟨job, some (cfg.indexBytes s.disk job.tensor)⟩ } else none
    | _ => none
  | .finalize => match s.finalizing with
    | some ⟨job, some sizes⟩ => match cfg.entry (s.encodings job.number) job.tensor with
      | .error _ => none
      | .ok (side, entry) =>
        some { s with
          finalizing := none
          outstanding := s.outstanding - cfg.bytes job
          disk := s.disk ++ side.writes
          manifest := s.manifest ++ [⟨job, entry, sizes⟩] }
    | _ => none
  | .finalizeFail => match s.finalizing with
    | some ⟨job, _⟩ => if s.barriers job.number then some { s with finalizing := none } else none
    | none => none

end PipelineConfig

end Threads

end Orka
