import Orka.Lemmas.Ledger
import Orka.Theorems.Budget

/-!
# The manifest of a threaded pack

However the threads of a pack interleave, an entry of its manifest says what is on the disk, if the names of the packed tensors
stay distinct in file names.
-/

namespace Orka

open PipelineAux ArtifactAux

variable {α : Type}

/-- An entry is final: the writes its tensor's tasks make to a file are all on the disk, in order, and are the only ones there; no
task of the tensor is left to the writer; the codec recorded of each stage is that of the bytes on the disk, and its
`index_bytes` is their size. -/
structure Record.Final (cfg : PipelineConfig) (s : Pipeline α) (r : Record α) : Prop where
  written : ∀ task ∈ tensorTasks cfg.pack r.job.tensor, s.disk.filter (fun w => decide (w.1 = task.path)) =
    (stageWrites cfg.pack cfg.compress r.job.tensor).filter fun w => decide (w.1 = task.path)
  unqueued : ∀ item ∈ s.writing.toList ++ s.writerQueue, item.job ≠ r.job.number
  encoded : ∀ stage ∈ r.entry.stages, ∃ encoding raw, stage.encoding = some encoding ∧
    Journal.get s.disk stage.indices = some (.stream encoding raw)
  sized : r.indexBytes = r.entry.stages.map fun stage => (Journal.get s.disk stage.indices).elim 0 (File.size cfg.compress)

namespace PipelineAux

variable {cfg : PipelineConfig}

/-! ## The start -/

theorem numbers_jobsOf (tensors : List (PackedTensor α)) : (jobsOf tensors).map Job.number = List.range tensors.length := by
  apply List.ext_getElem <;> simp [jobsOf]

theorem tensors_jobsOf (tensors : List (PackedTensor α)) : (jobsOf tensors).map Job.tensor = tensors := by
  apply List.ext_getElem <;> simp [jobsOf]

/-- Tensors of distinct safe names make jobs apart. -/
theorem apart_jobsOf {tensors : List (PackedTensor α)} (h : (tensors.map fun t => safeTensorName t.name).Nodup) :
    Apart (jobsOf tensors) := by
  refine ⟨by rw [numbers_jobsOf]; exact List.nodup_range, ?_⟩
  have e : (jobsOf tensors).map (fun job => safeTensorName job.tensor.name) =
      ((jobsOf tensors).map Job.tensor).map fun t => safeTensorName t.name := by
    rw [List.map_map]
    rfl
  rw [e, tensors_jobsOf]
  exact h

/-- Before any step nothing is done. -/
theorem ledger_start (cfg : PipelineConfig) (tensors : List (PackedTensor α)) :
    Ledger cfg (jobsOf tensors) (Pipeline.start tensors) [] :=
  ⟨by simp [todo, toSubmit, Pipeline.start], fun _ => rfl, fun n => by simp [Pipeline.start], fun _ _ _ _ => rfl⟩

/-! ## The invariant -/

variable [Field α] [LinearOrder α] [FloorRing α] {jobs : List (Job α)} {s s' : Pipeline α} {a : Action}

/-- The events of the candidates in the manifest and of one whose sizes are read are set, and what has been read and recorded of
them is final. -/
structure Settled (cfg : PipelineConfig) (s : Pipeline α) : Prop where
  records : ∀ r ∈ s.manifest, s.barriers r.job.number = true ∧
    r.indexBytes = cfg.indexBytes (stageWrites cfg.pack cfg.compress r.job.tensor) r.job.tensor ∧
      ∃ side, cfg.entry (finalEncodings cfg r.job.tensor) r.job.tensor = .ok (side, r.entry)
  sizes : ∀ job sizes, s.finalizing = some ⟨job, some sizes⟩ → s.barriers job.number = true ∧
    sizes = cfg.indexBytes (stageWrites cfg.pack cfg.compress job.tensor) job.tensor

/-- An event stays set. -/
theorem barriers_move (h : Move cfg s a s') {n : ℕ} (hb : s.barriers n = true) : s'.barriers n = true := by
  cases h with
  | write hw =>
    rename_i item
    cases item with
    | task m task => exact hb
    | barrier m => by_cases hn : n = m <;> simp [PipelineConfig.perform, hn, hb]
  | _ => exact hb

/-- A step that adds no record and reads no sizes. -/
theorem Settled.congr (S : Settled cfg s) (h : Move cfg s a s') (hm : s'.manifest = s.manifest)
    (hs : s'.finalizing = s.finalizing ∨ ∀ f, s'.finalizing = some f → f.indexBytes = none) : Settled cfg s' := by
  refine ⟨fun r hr => ?_, fun job sizes hf => ?_⟩
  · obtain ⟨hb, hrest⟩ := S.records r (hm ▸ hr)
    exact ⟨barriers_move h hb, hrest⟩
  · rcases hs with hs | hs
    · obtain ⟨hb, hrest⟩ := S.sizes job sizes (hs ▸ hf)
      exact ⟨barriers_move h hb, hrest⟩
    · cases hs _ hf

/-- A move keeps settled what is settled. -/
theorem settled_move (hd : Apart jobs) (ho : order s = jobs) {done : List (WriterItem α)} (L : Ledger cfg jobs s done)
    (h : Move cfg s a s') (S : Settled cfg s) : Settled cfg s' := by
  have hmem : ∀ f, s.finalizing = some f → f.job ∈ jobs := fun f hf => by
    rw [← ho, order, Pipeline.live, hf]
    simp
  have move := h
  cases h with
  | refresh hf hb =>
    refine ⟨S.records, fun job sizes he => ?_⟩
    obtain ⟨rfl, hs⟩ := Finalizing.mk.inj (Option.some.inj he)
    obtain rfl := Option.some.inj hs
    exact ⟨hb, L.indexBytes_settled hd (hmem _ hf) hb⟩
  | finalize hf he =>
    obtain ⟨hb, hsizes⟩ := S.sizes _ _ hf
    refine ⟨fun r hr => ?_, fun job sizes h => by cases h⟩
    rcases List.mem_append.1 hr with hr | hr
    · exact S.records r hr
    · obtain rfl := List.mem_singleton.1 hr
      rw [L.encodings_settled hd (hmem _ hf) hb] at he
      exact ⟨hb, hsizes, _, he⟩
  | write hw =>
    rename_i item
    exact S.congr move (by cases item <;> rfl) (Or.inl (by cases item <;> rfl))
  | finalizerGet hf hq => exact S.congr move rfl (Or.inr fun f hf => by obtain rfl := Option.some.inj hf; rfl)
  | finalizeFail hf => exact S.congr move rfl (Or.inr fun f hf => by cases hf)
  | _ => exact S.congr move rfl (Or.inl rfl)

/-- What a run without failures keeps. -/
structure Books (cfg : PipelineConfig) (jobs : List (Job α)) (s : Pipeline α) : Prop where
  order : order s = jobs
  ledger : ∃ done, Ledger cfg jobs s done
  settled : Settled cfg s

/-- Before any step the books are right. -/
theorem books_start (cfg : PipelineConfig) (tensors : List (PackedTensor α)) :
    Books cfg (jobsOf tensors) (Pipeline.start tensors) :=
  ⟨rfl, ⟨_, ledger_start cfg tensors⟩, ⟨fun _ hr => absurd hr List.not_mem_nil, fun _ _ h => nomatch h⟩⟩

/-- A step that does not fail keeps the books right. -/
theorem books_step (hd : Apart jobs) (h : cfg.step s a = some s') (hf : a.fails = false) (B : Books cfg jobs s) :
    Books cfg jobs s' := by
  have move := move_of_step h
  obtain ⟨done, L⟩ := B.ledger
  exact ⟨(order_move move hf).trans B.order, ledger_move hd move hf L, settled_move hd B.order L move B.settled⟩

/-- The stages an entry records. -/
theorem stages_of_entry {encodings : Encodings} {t : PackedTensor α} {side : Sidecars α} {entry : TensorMeta}
    (h : cfg.entry encodings t = .ok (side, entry)) :
    entry.stages = (t.numberedStages cfg.pack).map (stageMetaOf cfg.pack t encodings) := by
  obtain ⟨side', -, h⟩ := Steps.bind_eq_ok.1 h
  obtain ⟨entry', hb, he⟩ := Steps.map_eq_ok.1 h
  obtain ⟨rfl, rfl⟩ := Prod.mk.inj he
  unfold buildTensorManifestEntry at hb
  split at hb
  · cases hb
  · next e =>
    obtain rfl := Except.ok.inj hb
    exact e.symm

/-- Under the books every record is final. -/
theorem Books.final (hd : Apart jobs) (B : Books cfg jobs s) {r : Record α} (hr : r ∈ s.manifest) : r.Final cfg s := by
  obtain ⟨done, L⟩ := B.ledger
  obtain ⟨hb, hsizes, side, hentry⟩ := B.settled.records r hr
  have hj : r.job ∈ jobs := by
    rw [← B.order, PipelineAux.order]
    exact List.mem_append_left _ (List.mem_append_left _ (List.mem_map_of_mem hr))
  have hdisk : ∀ st ∈ r.job.tensor.numberedStages cfg.pack,
      Journal.get s.disk (r.job.tensor.path cfg.pack (.indices st.2)) =
        Journal.get (stageWrites cfg.pack cfg.compress r.job.tensor) (r.job.tensor.path cfg.pack (.indices st.2)) :=
    fun st hst => Journal.get_congr (L.disk_settled hd hj hb ⟨st.2, lt_of_mem_numberedStages hst, Or.inl rfl⟩)
  refine ⟨fun task ht => ?_, fun item hi => ?_, fun stage hs => ?_, ?_⟩
  · obtain ⟨file, hf, hp, -⟩ := path_of_mem_tensorTasks ht
    rw [hp]
    exact L.disk_settled hd hj hb hf
  · exact (L.settled hd hj hb).1 item (List.mem_append_left _ hi)
  · rw [stages_of_entry hentry] at hs
    obtain ⟨st, hst, rfl⟩ := List.mem_map.1 hs
    obtain ⟨encoding, raw, he, hg⟩ := stream_stageWrites cfg hst
    exact ⟨encoding, raw, he, (hdisk st hst).trans hg⟩
  · rw [hsizes, stages_of_entry hentry, List.map_map]
    refine List.map_congr_left fun st hst => ?_
    rw [Function.comp_apply, stageMetaOf, hdisk st hst]

end PipelineAux

variable [Field α] [LinearOrder α] [FloorRing α]

/-- **The manifest of a threaded pack.** In every state of every run in which nothing fails, the entries of the manifest are
final, and the candidates are, each once and in order, those in the manifest, those on their way and those to come. -/
theorem manifest_final (cfg : PipelineConfig) (tensors : List (PackedTensor α))
    (hsafe : (tensors.map fun t => safeTensorName t.name).Nodup) (as : List Action) (hf : ∀ a ∈ as, a.fails = false)
    (s : Pipeline α) (h : Machine.run cfg.step (.start tensors) as = some s) :
    (∀ r ∈ s.manifest, r.Final cfg s) ∧ s.manifest.map Record.job ++ s.live ++ s.upcoming = jobsOf tensors := by
  have hd := apart_jobsOf hsafe
  have B : Books cfg (jobsOf tensors) s :=
    Machine.invariant (P := fun _ a => a.fails = false) (fun s a s' hf B hstep => books_step hd hstep hf B)
      (books_start cfg tensors) (Machine.along_of_forall fun a ha _ => hf a ha) h
  exact ⟨fun r hr => B.final hd hr, B.order⟩

/-! ## Two tensors -/

/-- A codec that makes 256 zeros shorter. -/
def zeroPipeline : PipelineConfig :=
  ⟨1, 32, false, none, fun raw => if raw = List.replicate 256 0 then List.replicate 12 0 else raw⟩

/-- A tensor of 256 values in groups of one, each a row of its own codebook, and the indices of their nearest rows. -/
def wideTensor (name : String) (values indices : List ℕ) : PackedTensor ℚ :=
  { tinyTensor name with
    shape := [256, 1]
    sourceFlat := values.map (↑)
    packedValues := 256
    paddedValues := 256
    vectors := values.map fun v => [(v : ℚ)]
    stages := [⟨.floats .float32 (values.map (↑)), 256, .float32, 8, indices, 1⟩] }

/-- 256 zeros: every row of the codebook is the same, and the first is the nearest. -/
def zeroTensor (name : String) : PackedTensor ℚ := wideTensor name (List.replicate 256 0) (List.replicate 256 0)

/-- The numbers up to 255. -/
def countingTensor (name : String) : PackedTensor ℚ := wideTensor name (List.range 256) (List.range 256)

/-- Two candidates one after the other. -/
def twoInTurn : List Action := tinyRun ++ [.refresh, .finalize] ++ tinyRun ++ [.refresh, .finalize]

/-- Two candidates of one safe name: the second writes a raw stream where the entry of the first says zlib. -/
theorem not_final_twoNames :
    ∃ s, Machine.run zeroPipeline.step
        (.start [zeroTensor "a b.weight", countingTensor "a_b.weight"]) twoInTurn = some s ∧
      ∃ r ∈ s.manifest, r.job.tensor.name = "a b.weight" ∧ ¬ r.Final zeroPipeline s := by
  have hmanifest : (Machine.run zeroPipeline.step
      (.start [zeroTensor "a b.weight", countingTensor "a_b.weight"]) twoInTurn).map (fun s =>
        s.manifest.map fun r => (r.job.tensor.name, r.entry.stages.map fun st => (st.encoding, st.indices))) =
      some [("a b.weight", [(some .zlib, "tensors/a_b.weight.indices")]),
        ("a_b.weight", [(some .raw, "tensors/a_b.weight.indices")])] := by decide +kernel
  have hdisk : (Machine.run zeroPipeline.step
      (.start [zeroTensor "a b.weight", countingTensor "a_b.weight"]) twoInTurn).map (fun s =>
        Journal.get s.disk "tensors/a_b.weight.indices") = some (some (.stream .raw (List.range 256))) := by decide +kernel
  obtain ⟨s, hs, hmanifest⟩ := Option.map_eq_some_iff.1 hmanifest
  rw [hs, Option.map_some, Option.some.injEq] at hdisk
  obtain ⟨r, rs, hr, hhead, -⟩ := List.map_eq_cons_iff.1 hmanifest
  obtain ⟨hname, hstages⟩ := Prod.mk.inj hhead
  refine ⟨s, hs, r, by rw [hr]; exact List.mem_cons_self, hname, fun hfinal => ?_⟩
  obtain ⟨st, sts, hst, hst', -⟩ := List.map_eq_cons_iff.1 hstages
  obtain ⟨henc, hind⟩ := Prod.mk.inj hst'
  obtain ⟨encoding, raw, he, hg⟩ := hfinal.encoded st (by rw [hst]; exact List.mem_cons_self)
  rw [hind, hdisk] at hg
  rw [henc] at he
  obtain ⟨rfl, -⟩ := File.stream.inj (Option.some.inj hg)
  cases he

/-- Two candidates of safe names of their own, the second prepared while the first is packed and packed while it is finalized. -/
def twoOverlapping : List Action :=
  [.reserve, .put, .poll, .get, .reserve, .call, .writerGet, .call, .put, .write, .call, .handOver, .writerGet, .poll, .write,
    .get, .finalizerGet, .call, .writerGet, .write, .refresh, .writerGet, .call, .finalize, .write, .call, .writerGet, .handOver,
    .write, .writerGet, .finalizerGet, .write, .refresh, .finalize]

/-- Two tensors whose writes overlap, both final at the end. -/
theorem final_twoOverlapping :
    ∃ s, Machine.run zeroPipeline.step
        (.start [zeroTensor "a.weight", countingTensor "b.weight"]) twoOverlapping = some s ∧
      s.manifest.length = 2 ∧ (∀ r ∈ s.manifest, r.Final zeroPipeline s) ∧
        s.manifest.map Record.job ++ s.live ++ s.upcoming =
          jobsOf [zeroTensor "a.weight", countingTensor "b.weight"] := by
  have hrun : (Machine.run zeroPipeline.step
      (.start [zeroTensor "a.weight", countingTensor "b.weight"]) twoOverlapping).map (fun s =>
        s.manifest.length) = some 2 := by decide +kernel
  obtain ⟨s, hs, hlen⟩ := Option.map_eq_some_iff.1 hrun
  exact ⟨s, hs, hlen, manifest_final zeroPipeline [zeroTensor "a.weight", countingTensor "b.weight"]
    (by decide +kernel) twoOverlapping (by decide) s hs⟩

end Orka
