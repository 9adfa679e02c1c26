import Orka.Lemmas.Pipeline

/-!
# What the background writer has done

The writer takes the tasks in the order in which the candidates come, so at any time it has done a first part of all of them. What
stands on the disk and in the metadata of the stages follows from that part.
-/

namespace Orka.PipelineAux

open ArtifactAux NamesAux PipelineConfig

variable {α : Type} {cfg : PipelineConfig}

/-! ## Tasks in a row -/

/-- The last task runs with the encodings of those before it. -/
theorem runTasks_concat (compress : List ℕ → List ℕ) (recorded : Encodings) (tasks : List (Task α)) (task : Task α) :
    runTasks compress recorded (tasks ++ [task]) =
      ((runTasks compress recorded tasks).1 ++ [(runTask compress (runTasks compress recorded tasks).2 task).1],
        (runTask compress (runTasks compress recorded tasks).2 task).2) := by
  induction tasks generalizing recorded with
  | nil => rfl
  | cons t tasks ih => simp only [List.cons_append, runTasks, ih]

/-- A stage without a task keeps its encoding. -/
theorem encoding_runTasks_other (compress : List ℕ → List ℕ) (recorded : Encodings) {tasks : List (Task α)} {i : ℕ}
    (h : ∀ path raw, Task.indices i path raw ∉ tasks) : (runTasks compress recorded tasks).2 i = recorded i := by
  induction tasks generalizing recorded with
  | nil => rfl
  | cons task tasks ih =>
    rw [runTasks]
    simp only
    rw [ih _ fun path raw hm => h path raw (List.mem_cons_of_mem _ hm)]
    cases task with
    | codebook path file => rfl
    | indices j path raw =>
      have hne : i ≠ j := by
        rintro rfl
        exact h path raw List.mem_cons_self
      simp [runTask, hne]

/-- **After its tasks a stage's metadata records the codec of the bytes on the disk.** -/
theorem stream_runTasks (compress : List ℕ → List ℕ) (recorded : Encodings) {tasks : List (Task α)} {i : ℕ} {p : String}
    (hp : ∀ task ∈ tasks, (∃ path raw, task = .indices i path raw) ↔ task.path = p)
    (h : ∃ path raw, Task.indices i path raw ∈ tasks) :
    ∃ encoding raw, (runTasks compress recorded tasks).2 i = some encoding ∧
      Journal.get (runTasks compress recorded tasks).1 p = some (.stream encoding raw) := by
  induction tasks generalizing recorded with
  | nil =>
    obtain ⟨path, raw, hm⟩ := h
    cases hm
  | cons task tasks ih =>
    have htail := fun t (ht : t ∈ tasks) => hp t (List.mem_cons_of_mem _ ht)
    by_cases hlater : ∃ path raw, Task.indices i path raw ∈ tasks
    · obtain ⟨encoding, raw, he, hg⟩ := ih (runTask compress recorded task).2 htail hlater
      exact ⟨encoding, raw, he, by rw [runTasks, Journal.get_cons, hg]; rfl⟩
    · -- the head is the stage's last task
      obtain ⟨path, raw, hm⟩ := h
      have hhead : task = .indices i path raw :=
        (List.mem_cons.1 hm).elim Eq.symm fun hm => absurd ⟨path, raw, hm⟩ hlater
      have hpath := (hp task List.mem_cons_self).1 ⟨path, raw, hhead⟩
      have hnone : Journal.get (runTasks compress (runTask compress recorded task).2 tasks).1 p = none := by
        rw [Journal.get_eq_none, paths_runTasks]
        intro hmem
        obtain ⟨t, ht, he⟩ := List.mem_map.1 hmem
        obtain ⟨path', raw', rfl⟩ := (htail t ht).2 he
        exact hlater ⟨path', raw', ht⟩
      subst hhead
      refine ⟨(recorded i).getD (pickEncoding compress raw), raw, ?_, ?_⟩
      · rw [runTasks]
        simp only
        rw [encoding_runTasks_other _ _ fun path' raw' hm' => hlater ⟨path', raw', hm'⟩]
        simp [runTask, writeStageIndices]
      · rw [runTasks, Journal.get_cons, hnone]
        simp only [Task.path] at hpath
        simp [runTask, writeStageIndices, hpath]

/-! ## The tasks of one candidate -/

/-- The tasks of a candidate among the writer's. -/
def tasksOf (n : ℕ) (items : List (WriterItem α)) : List (Task α) :=
  items.filterMap fun
    | .task m task => if m = n then some task else none
    | .barrier _ => none

theorem tasksOf_append (n : ℕ) (a b : List (WriterItem α)) : tasksOf n (a ++ b) = tasksOf n a ++ tasksOf n b :=
  List.filterMap_append

/-- Items of other jobs hold no task of this one. -/
theorem tasksOf_eq_nil {n : ℕ} {items : List (WriterItem α)} (h : ∀ item ∈ items, item.job ≠ n) : tasksOf n items = [] := by
  rw [tasksOf, List.filterMap_eq_nil_iff]
  intro item hi
  cases item with
  | task m task => exact if_neg (h _ hi)
  | barrier m => rfl

/-- A job's own tasks are its tasks. -/
theorem tasksOf_map_task (n : ℕ) (tasks : List (Task α)) : tasksOf n (tasks.map (.task n)) = tasks := by
  rw [tasksOf, List.filterMap_map]
  simp

/-- A job's items carry its number. -/
theorem job_of_mem_items {job : Job α} {item : WriterItem α} (h : item ∈ cfg.items job) : item.job = job.number := by
  rcases List.mem_append.1 h with h | h
  · obtain ⟨task, -, rfl⟩ := List.mem_map.1 h
    rfl
  · obtain rfl := List.mem_singleton.1 h
    rfl

/-- A task among the writer's is one of its candidate's. -/
theorem mem_tensorTasks_of_mem_items {job : Job α} {n : ℕ} {task : Task α} (h : .task n task ∈ cfg.items job) :
    n = job.number ∧ task ∈ tensorTasks cfg.pack job.tensor := by
  rcases List.mem_append.1 h with h | h
  · obtain ⟨task', ht, he⟩ := List.mem_map.1 h
    obtain ⟨rfl, rfl⟩ := WriterItem.task.inj he
    exact ⟨rfl, ht⟩
  · exact nomatch List.mem_singleton.1 h

/-- What the packing thread has still to submit of its candidate. -/
def submits (calls : List (Call α)) : List (WriterItem α) :=
  calls.filterMap fun
    | .submit item => some item
    | .wait => none

/-- What a job's calls submit are its items. -/
theorem submits_calls (job : Job α) : submits (cfg.calls job) = cfg.items job := by
  have htasks : ∀ tasks : List (Task α),
      submits (tasks.map fun task => Call.submit (.task job.number task)) = tasks.map (.task job.number) := fun tasks => by
    rw [submits, List.filterMap_map]
    simp
  rw [calls, items, submits, List.filterMap_append, List.filterMap_append]
  have := htasks (tensorTasks cfg.pack job.tensor)
  rw [submits] at this
  rw [this]
  cases cfg.mseScale <;> simp

/-! ## The ledger -/

/-- What the packing thread and the candidates behind it have still to submit. -/
def toSubmit (cfg : PipelineConfig) (s : Pipeline α) : List (WriterItem α) :=
  (match s.thread with
    | .packing _ calls => submits calls
    | _ => []) ++
    (s.prefetchQueue ++ s.preparing.toList ++ s.upcoming).flatMap cfg.items

/-- What the writer has still to do. -/
def todo (cfg : PipelineConfig) (s : Pipeline α) : List (WriterItem α) := s.writing.toList ++ s.writerQueue ++ toSubmit cfg s

/-- The items of all candidates are those that are done and those still to do, and what is done accounts for the metadata of the
stages, the events and the files of the stages. -/
structure Ledger (cfg : PipelineConfig) (jobs : List (Job α)) (s : Pipeline α) (done : List (WriterItem α)) : Prop where
  split : jobs.flatMap cfg.items = done ++ todo cfg s
  encodings : ∀ n, s.encodings n = (runTasks cfg.compress (fun _ => none) (tasksOf n done)).2
  barriers : ∀ n, s.barriers n = true ↔ .barrier n ∈ done
  disk : ∀ job ∈ jobs, ∀ file, StageFile cfg.pack job.tensor file →
    s.disk.filter (fun w => decide (w.1 = job.tensor.path cfg.pack file)) =
      (runTasks cfg.compress (fun _ => none) (tasksOf job.number done)).1.filter
        fun w => decide (w.1 = job.tensor.path cfg.pack file)

/-- Candidates with numbers and safe names of their own. -/
structure Apart (jobs : List (Job α)) : Prop where
  numbers : (jobs.map Job.number).Nodup
  safe : (jobs.map fun job => safeTensorName job.tensor.name).Nodup

/-- Two jobs apart have two safe names. -/
theorem Apart.safe_ne {jobs : List (Job α)} (hd : Apart jobs) {job job' : Job α} (hj : job ∈ jobs) (hj' : job' ∈ jobs)
    (hne : job'.number ≠ job.number) : safeTensorName job'.tensor.name ≠ safeTensorName job.tensor.name := fun e =>
  hne (congrArg Job.number (List.inj_on_of_nodup_map hd.safe hj' hj e))

section Write

variable {jobs : List (Job α)} {s : Pipeline α} {done : List (WriterItem α)}

theorem todo_perform {item : WriterItem α} (hw : s.writing = some item) : todo cfg s = item :: todo cfg (cfg.perform s item) := by
  cases item <;> simp [todo, toSubmit, hw, perform]

/-- A task of another candidate writes none of a candidate's files. -/
theorem path_ne_of_mem_items (hd : Apart jobs) {job job' : Job α} (hj : job ∈ jobs) (hj' : job' ∈ jobs)
    (hne : job'.number ≠ job.number) {task : Task α} (ht : task ∈ tensorTasks cfg.pack job'.tensor) {file : TensorFile}
    (hf : StageFile cfg.pack job.tensor file) : decide (task.path = job.tensor.path cfg.pack file) = false := by
  obtain ⟨file', hf', hp, -⟩ := path_of_mem_tensorTasks ht
  exact not_owns (hd.safe_ne hj hj' hne) (shortened_of_stageFile hf) ⟨file', shortened_of_stageFile hf', hp⟩

/-- The writer moves an item to what is done. -/
theorem Ledger.write (hd : Apart jobs) (L : Ledger cfg jobs s done) {item : WriterItem α} (hw : s.writing = some item) :
    Ledger cfg jobs (cfg.perform s item) (done ++ [item]) := by
  have hsplit : jobs.flatMap cfg.items = done ++ [item] ++ todo cfg (cfg.perform s item) := by
    rw [L.split, todo_perform hw, List.append_assoc, List.singleton_append]
  cases item with
  | barrier m =>
    have hnil : ∀ n, tasksOf n [(.barrier m : WriterItem α)] = [] := fun n => rfl
    refine ⟨hsplit, fun n => ?_, fun n => ?_, fun job hj file hf => ?_⟩
    · rw [tasksOf_append, hnil, List.append_nil]
      exact L.encodings n
    · by_cases hn : n = m
      · simp [perform, hn]
      · simp [perform, hn, L.barriers n]
    · rw [tasksOf_append, hnil, List.append_nil]
      exact L.disk job hj file hf
  | task m task =>
    have hone : ∀ n, tasksOf n [(.task m task : WriterItem α)] = if m = n then [task] else [] := fun n => by
      by_cases hn : m = n <;> simp [tasksOf, hn]
    refine ⟨hsplit, fun n => ?_, fun n => ?_, fun job hj file hf => ?_⟩
    · rw [tasksOf_append, hone]
      by_cases hn : m = n
      · subst hn
        rw [if_pos rfl, runTasks_concat]
        simp [perform, L.encodings]
      · rw [if_neg hn, List.append_nil]
        simp [perform, Ne.symm hn, L.encodings]
    · simp [perform, L.barriers]
    · have hdisk : (cfg.perform s (.task m task)).disk = s.disk ++ [(runTask cfg.compress (s.encodings m) task).1] := rfl
      rw [hdisk, List.filter_append, L.disk job hj file hf, tasksOf_append, hone]
      by_cases hn : m = job.number
      · subst hn
        rw [if_pos rfl, runTasks_concat, List.filter_append, L.encodings]
      · -- the item is another candidate's
        have hmem : (.task m task : WriterItem α) ∈ jobs.flatMap cfg.items := by
          rw [hsplit]
          simp
        obtain ⟨job', hj', hi⟩ := List.mem_flatMap.1 hmem
        obtain ⟨rfl, ht⟩ := mem_tensorTasks_of_mem_items hi
        rw [if_neg hn, List.append_nil, List.filter_cons_of_neg, List.filter_nil, List.append_nil]
        rw [fst_runTask, path_ne_of_mem_items hd hj hj' hn ht hf]
        exact Bool.false_ne_true

variable [Field α] [LinearOrder α] [FloorRing α]

/-- The sidecars of a candidate are no files of a stage. -/
theorem Ledger.sidecars (L : Ledger cfg jobs s done) {t : PackedTensor α} {side : Sidecars α} {s' : Pipeline α}
    (hside : persistTensorSidecars cfg.pack t = .ok side) (hdisk : s'.disk = s.disk ++ side.writes)
    (htodo : todo cfg s' = todo cfg s) (henc : s'.encodings = s.encodings) (hbar : s'.barriers = s.barriers) :
    Ledger cfg jobs s' done := by
  refine ⟨by rw [htodo]; exact L.split, fun n => by rw [henc]; exact L.encodings n, fun n => by rw [hbar]; exact L.barriers n,
    fun job hj file hf => ?_⟩
  have hnone : side.writes.filter (fun w => decide (w.1 = job.tensor.path cfg.pack file)) = [] := by
    rw [List.filter_eq_nil_iff]
    intro w hw he
    have hmem := List.mem_map_of_mem (f := Prod.fst) hw
    rw [(persistTensorSidecars_eq_ok hside).1] at hmem
    obtain ⟨file', hf', hp⟩ := List.mem_map.1 hmem
    have := (tensorPath_inj (shortened_of_mem_sideFiles hf' _) (shortened_of_stageFile hf)
      (hp.trans (of_decide_eq_true he))).2
    exact stageFile_notMem_sideFiles hf t (this ▸ hf')
  rw [hdisk, List.filter_append, hnone, List.append_nil]
  exact L.disk job hj file hf

end Write

section Run

variable {jobs : List (Job α)} {s s' : Pipeline α} {a : Action} {done : List (WriterItem α)}

/-- A step that leaves the writer's side alone. -/
theorem Ledger.congr (L : Ledger cfg jobs s done) (htodo : todo cfg s' = todo cfg s) (henc : s'.encodings = s.encodings)
    (hbar : s'.barriers = s.barriers) (hdisk : s'.disk = s.disk) : Ledger cfg jobs s' done :=
  ⟨by rw [htodo]; exact L.split, fun n => by rw [henc]; exact L.encodings n, fun n => by rw [hbar]; exact L.barriers n,
    fun job hj file hf => by rw [hdisk]; exact L.disk job hj file hf⟩

variable [Field α] [LinearOrder α] [FloorRing α]

/-- **The ledger is kept** by every step in which nothing fails. -/
theorem ledger_move (hd : Apart jobs) (h : Move cfg s a s') (hf : a.fails = false) (L : Ledger cfg jobs s done) :
    ∃ done', Ledger cfg jobs s' done' := by
  cases h with
  | reserve hp hu ha => exact ⟨done, L.congr (by simp [todo, toSubmit, hp, hu]) rfl rfl rfl⟩
  | put hp => exact ⟨done, L.congr (by simp [todo, toSubmit, hp]) rfl rfl rfl⟩
  | leave ht => exact ⟨done, L.congr (by simp [todo, toSubmit, ht]) rfl rfl rfl⟩
  | poll ht => exact ⟨done, L.congr (by simp [todo, toSubmit, ht]) rfl rfl rfl⟩
  | timeout ht => exact ⟨done, L.congr (by simp [todo, toSubmit, ht]) rfl rfl rfl⟩
  | get ht hq => exact ⟨done, L.congr (by simp [todo, toSubmit, ht, hq, submits_calls]) rfl rfl rfl⟩
  | submit ht => exact ⟨done, L.congr (by simp [todo, toSubmit, ht, submits]) rfl rfl rfl⟩
  | wait ht => exact ⟨done, L.congr (by simp [todo, toSubmit, ht, submits]) rfl rfl rfl⟩
  | handOver ht => exact ⟨done, L.congr (by simp [todo, toSubmit, ht, submits]) rfl rfl rfl⟩
  | writerGet hw hq => exact ⟨done, L.congr (by simp [todo, toSubmit, hw, hq]) rfl rfl rfl⟩
  | write hw => exact ⟨_, L.write hd hw⟩
  | finalize hg he =>
    obtain ⟨side, hside, he⟩ := Steps.bind_eq_ok.1 he
    obtain ⟨entry, -, he⟩ := Steps.map_eq_ok.1 he
    obtain ⟨rfl, rfl⟩ := Prod.mk.inj he
    exact ⟨done, L.sidecars hside rfl rfl rfl rfl⟩
  | prefetchEnd | finalizerGet | refresh => exact ⟨done, L.congr rfl rfl rfl rfl⟩
  | prefetchFail | packFail | writeFail | finalizeFail => cases hf

end Run

/-! ## A candidate whose event is set -/

section Settled

variable {jobs : List (Job α)} {s : Pipeline α} {done : List (WriterItem α)} {job : Job α}

/-- When a candidate's event is set, all its tasks are done and none is left. -/
theorem Ledger.settled (L : Ledger cfg jobs s done) (hd : Apart jobs) (hj : job ∈ jobs) (hb : s.barriers job.number = true) :
    (∀ item ∈ todo cfg s, item.job ≠ job.number) ∧ tasksOf job.number done = tensorTasks cfg.pack job.tensor := by
  obtain ⟨before, after, rfl⟩ := List.append_of_mem hj
  have hnodup := hd.numbers
  rw [List.map_append, List.map_cons, List.nodup_middle, List.nodup_cons, ← List.map_append] at hnodup
  have hother : ∀ js : List (Job α), (∀ j ∈ js, j ∈ before ++ after) → ∀ item ∈ js.flatMap cfg.items, item.job ≠ job.number := by
    intro js hjs item hi e
    obtain ⟨j, hjm, hi⟩ := List.mem_flatMap.1 hi
    exact hnodup.1 (List.mem_map.2 ⟨j, hjs j hjm, (job_of_mem_items hi).symm.trans e⟩)
  have hbefore := hother before fun j h => List.mem_append_left _ h
  have hafter := hother after fun j h => List.mem_append_right _ h
  -- the barrier is the last item of its candidate, and it is done
  have hlast : (.barrier job.number : WriterItem α) ∉
      before.flatMap cfg.items ++ (tensorTasks cfg.pack job.tensor).map (.task job.number) := by
    rw [List.mem_append, not_or]
    refine ⟨fun h => hbefore _ h rfl, fun h => ?_⟩
    obtain ⟨task, -, he⟩ := List.mem_map.1 h
    cases he
  have hsplit : before.flatMap cfg.items ++ (tensorTasks cfg.pack job.tensor).map (.task job.number) ++
      (.barrier job.number :: after.flatMap cfg.items) = done ++ todo cfg s := by
    rw [← L.split, List.flatMap_append, List.flatMap_cons, items]
    simp only [List.append_assoc, List.singleton_append]
  have hdone := (L.barriers job.number).1 hb
  rcases List.append_eq_append_iff.1 hsplit with ⟨c, hc, hrest⟩ | ⟨c, hc, -⟩
  · cases c with
    | nil =>
      rw [hc, List.append_nil] at hdone
      exact absurd hdone hlast
    | cons x c =>
      obtain ⟨rfl, htail⟩ := List.cons.inj hrest
      have htodo : ∀ item ∈ c ++ todo cfg s, item.job ≠ job.number := fun item hi => hafter item (htail.symm ▸ hi)
      refine ⟨fun item hi => htodo item (List.mem_append_right _ hi), ?_⟩
      have hc' : tasksOf job.number c = [] := tasksOf_eq_nil fun item hi => htodo item (List.mem_append_left _ hi)
      have hbar : tasksOf job.number (.barrier job.number :: c) = tasksOf job.number c := rfl
      rw [hc, tasksOf_append, tasksOf_append, tasksOf_eq_nil hbefore, tasksOf_map_task, hbar, hc', List.nil_append,
        List.append_nil]
  · exact absurd (hc ▸ List.mem_append_left c hdone) hlast

/-- Then its stages' files are those of its own tasks. -/
theorem Ledger.disk_settled (L : Ledger cfg jobs s done) (hd : Apart jobs) (hj : job ∈ jobs)
    (hb : s.barriers job.number = true) {file : TensorFile} (hf : StageFile cfg.pack job.tensor file) :
    s.disk.filter (fun w => decide (w.1 = job.tensor.path cfg.pack file)) =
      (stageWrites cfg.pack cfg.compress job.tensor).filter fun w => decide (w.1 = job.tensor.path cfg.pack file) := by
  rw [L.disk job hj file hf, (L.settled hd hj hb).2, stageWrites]

/-- What the metadata of a tensor's stages records in the end. -/
def finalEncodings (cfg : PipelineConfig) (t : PackedTensor α) : Encodings :=
  (runTasks cfg.compress (fun _ => none) (tensorTasks cfg.pack t)).2

/-- Past its barrier a job's encodings are final. -/
theorem Ledger.encodings_settled (L : Ledger cfg jobs s done) (hd : Apart jobs) (hj : job ∈ jobs)
    (hb : s.barriers job.number = true) : s.encodings job.number = finalEncodings cfg job.tensor := by
  rw [L.encodings, (L.settled hd hj hb).2, finalEncodings]

/-- Past its barrier a job's index bytes on disk are those it wrote. -/
theorem Ledger.indexBytes_settled (L : Ledger cfg jobs s done) (hd : Apart jobs) (hj : job ∈ jobs)
    (hb : s.barriers job.number = true) :
    cfg.indexBytes s.disk job.tensor = cfg.indexBytes (stageWrites cfg.pack cfg.compress job.tensor) job.tensor := by
  refine List.map_congr_left fun st hs => ?_
  rw [Journal.get_congr (L.disk_settled hd hj hb ⟨st.2, lt_of_mem_numberedStages hs, Or.inl rfl⟩)]

/-- The stream of a stage on the disk is in the codec the metadata records in the end. -/
theorem stream_stageWrites (cfg : PipelineConfig) {t : PackedTensor α} {st : StageResult α × ℕ}
    (hs : st ∈ t.numberedStages cfg.pack) :
    ∃ encoding raw, finalEncodings cfg t st.2 = some encoding ∧
      Journal.get (stageWrites cfg.pack cfg.compress t) (t.path cfg.pack (.indices st.2)) = some (.stream encoding raw) := by
  refine stream_runTasks cfg.compress (fun _ => none) (fun task ht => ?_) ?_
  · obtain ⟨file, hf, hp, hfor⟩ := path_of_mem_tensorTasks ht
    constructor
    · rintro ⟨path, raw, rfl⟩
      rw [hp, show file = .indices st.2 from hfor]
    · intro he
      obtain rfl := (tensorPath_inj (shortened_of_stageFile hf) (shortened_of_stageFile ⟨st.2, lt_of_mem_numberedStages hs, Or.inl rfl⟩)
        (hp.symm.trans he)).2
      cases task with
      | codebook path file =>
        obtain ⟨i, hi⟩ := hfor
        cases hi
      | indices i path raw =>
        obtain rfl := TensorFile.indices.inj hfor
        exact ⟨path, raw, rfl⟩
  · refine ⟨t.path cfg.pack (.indices st.2), st.1.indices, List.mem_append_left _ (List.mem_flatMap.2 ⟨st, hs, ?_⟩)⟩
    simp [stageTasks, pack]

end Settled

end Orka.PipelineAux
