import Orka.Lemmas.Frame
import Orka.Lemmas.Names
import Orka.Pack

/-!
# The paths of an artifact

Which files the stages and the sidecars of a tensor write, and which paths its entry records.
-/

namespace Orka

namespace ArtifactAux

open Steps NamesAux

variable {α : Type} {cfg : PackConfig} {t : PackedTensor α}

/-- The number of stages of a tensor in a pack. -/
def stageCount (cfg : PackConfig) (t : PackedTensor α) : ℕ := (t.numberedStages cfg).length

variable (cfg t) in
/-- No tensor has more stages than the configuration. -/
theorem stageCount_le : stageCount cfg t ≤ cfg.nStages := by
  simp only [stageCount, PackedTensor.numberedStages, List.length_zipIdx, List.length_take]
  omega

/-- A stage's number is below the count of stages. -/
theorem lt_of_mem_numberedStages {s : StageResult α × ℕ} (h : s ∈ t.numberedStages cfg) : s.2 < stageCount cfg t := by
  simp only [stageCount, PackedTensor.numberedStages, List.length_zipIdx] at h ⊢
  have := List.snd_lt_of_mem_zipIdx h
  omega

theorem numberedStages_snd : (t.numberedStages cfg).map Prod.snd = List.range (stageCount cfg t) := by
  simp [stageCount, PackedTensor.numberedStages, List.zipIdx_map_snd, List.range_eq_range']

/-- A stage of a tensor with short names is stage 0. -/
theorem shortened_of_lt {i : ℕ} (h : i < stageCount cfg t) : cfg.short = true → i = 0 := by
  intro hs
  have hn : cfg.nStages = 1 := by
    simp only [PackConfig.short, decide_eq_true_eq] at hs
    exact hs.2
  have := stageCount_le cfg t
  omega

/-! ## Tasks -/

/-- A task writes at its own path. -/
theorem fst_runTask (compress : List ℕ → List ℕ) (recorded : Encodings) (task : Task α) :
    (runTask compress recorded task).1.1 = task.path := by
  cases task <;> rfl

/-- Tasks write their own files, in order. -/
theorem paths_runTasks (compress : List ℕ → List ℕ) (recorded : Encodings) (tasks : List (Task α)) :
    (runTasks compress recorded tasks).1.map Prod.fst = tasks.map Task.path := by
  induction tasks generalizing recorded with
  | nil => rfl
  | cons task tasks ih => simp only [runTasks, List.map_cons, fst_runTask, ih]

/-- The file of a stage, as the background writer's tasks name it. -/
def StageFile (cfg : PackConfig) (t : PackedTensor α) (file : TensorFile) : Prop :=
  ∃ i < stageCount cfg t, file = .indices i ∨ (cfg.mode = .perTensor ∧ file = .codebook i)

/-- A stage's file is short or long as the configuration says. -/
theorem shortened_of_stageFile {file : TensorFile} (h : StageFile cfg t file) : Shortened cfg.short file := by
  obtain ⟨i, hi, rfl | ⟨-, rfl⟩⟩ := h
  · exact shortened_of_lt hi
  · exact shortened_of_lt hi

/-- The kind of file a task is about. -/
def IsFor (task : Task α) (file : TensorFile) : Prop :=
  match task with
  | .codebook _ _ => ∃ i, file = .codebook i
  | .indices i _ _ => file = .indices i

/-- Every task of a stage writes one of the stage's files. -/
theorem path_of_mem_stageTasks {s : StageResult α × ℕ} (hs : s ∈ t.numberedStages cfg) {task : Task α}
    (h : task ∈ stageTasks cfg t s) : ∃ file, StageFile cfg t file ∧ task.path = t.path cfg file ∧ IsFor task file := by
  have hi := lt_of_mem_numberedStages hs
  rcases hm : cfg.mode with _ | _ | _
  · simp only [stageTasks, hm, List.mem_cons, List.not_mem_nil, or_false] at h
    rcases h with rfl | rfl
    · exact ⟨_, ⟨s.2, hi, Or.inr ⟨hm, rfl⟩⟩, by simp only [Task.path, PackedTensor.codebookPath, hm], _, rfl⟩
    · exact ⟨_, ⟨s.2, hi, Or.inl rfl⟩, rfl, rfl⟩
  · simp only [stageTasks, hm, List.mem_singleton] at h
    subst h
    exact ⟨_, ⟨s.2, hi, Or.inl rfl⟩, rfl, rfl⟩
  · simp only [stageTasks, hm, List.mem_singleton] at h
    subst h
    exact ⟨_, ⟨s.2, hi, Or.inl rfl⟩, rfl, rfl⟩

/-- EM-AQ forms the long names itself; in a pack of several stages there are no others. -/
theorem path_eq_of_not_short (h : 1 < cfg.nStages) (file : TensorFile) :
    tensorPath false (safeTensorName t.name) file = t.path cfg file := by
  have : cfg.short = false := by
    simp only [PackConfig.short, decide_eq_false_iff_not, not_and]
    omega
  rw [PackedTensor.path, this]

/-- Every refinement task writes one of the tensor's stage files. -/
theorem path_of_mem_refinementTasks {task : Task α} (h : task ∈ refinementTasks cfg t) :
    ∃ file, StageFile cfg t file ∧ task.path = t.path cfg file ∧ IsFor task file := by
  unfold refinementTasks at h
  split at h
  · next streams hm _ =>
    obtain ⟨⟨s, raw⟩, hs, rfl⟩ := List.mem_map.1 h
    exact ⟨_, ⟨s.2, lt_of_mem_numberedStages (List.of_mem_zip hs).1, Or.inl rfl⟩, rfl, rfl⟩
  · next passes hm _ =>
    split at h
    · next hn =>
      obtain ⟨pass, -, h⟩ := List.mem_flatMap.1 h
      obtain ⟨⟨s, rewrite⟩, hs, h⟩ := List.mem_flatMap.1 h
      have hi := lt_of_mem_numberedStages (List.of_mem_zip hs).1
      cases rewrite with
      | none => cases h
      | some w =>
        simp only [List.mem_cons, List.not_mem_nil, or_false] at h
        rcases h with rfl | rfl
        · exact ⟨_, ⟨s.2, hi, Or.inr ⟨hm, rfl⟩⟩, path_eq_of_not_short hn _, _, rfl⟩
        · exact ⟨_, ⟨s.2, hi, Or.inl rfl⟩, path_eq_of_not_short hn _, rfl⟩
    · cases h
  · cases h

/-- Every task of a tensor writes one of its stage files. -/
theorem path_of_mem_tensorTasks {task : Task α} (h : task ∈ tensorTasks cfg t) :
    ∃ file, StageFile cfg t file ∧ task.path = t.path cfg file ∧ IsFor task file := by
  rcases List.mem_append.1 h with h | h
  · obtain ⟨s, hs, h⟩ := List.mem_flatMap.1 h
    exact path_of_mem_stageTasks hs h
  · exact path_of_mem_refinementTasks h

/-- Every stage's files are written by the stage loop. -/
theorem mem_paths_tensorTasks {file : TensorFile} (h : StageFile cfg t file) :
    t.path cfg file ∈ (tensorTasks cfg t).map Task.path := by
  obtain ⟨i, hi, hf⟩ := h
  have : i ∈ (t.numberedStages cfg).map Prod.snd := by
    rw [numberedStages_snd]
    exact List.mem_range.2 hi
  obtain ⟨s, hs, rfl⟩ := List.mem_map.1 this
  rw [tensorTasks, List.map_append]
  refine List.mem_append_left _ (List.mem_map.2 ?_)
  rcases hf with rfl | ⟨hm, rfl⟩
  · refine ⟨.indices s.2 (t.path cfg (.indices s.2)) s.1.indices, List.mem_flatMap.2 ⟨s, hs, ?_⟩, rfl⟩
    cases hm : cfg.mode <;> simp [stageTasks, hm]
  · refine ⟨.codebook (t.codebookPath cfg s.2) s.1.codebook, List.mem_flatMap.2 ⟨s, hs, ?_⟩, ?_⟩
    · simp [stageTasks, hm]
    · simp only [Task.path, PackedTensor.codebookPath, hm]

/-! ## Sidecars and entries -/

/-- The sidecars a tensor has. -/
def sideFiles (t : PackedTensor α) : List TensorFile :=
  (scaleFile t.normalization).toList ++
    (if t.awqColScales.isSome = true ∧ t.normalization = .awqBlockMax then [.awqColScale] else []) ++
      (if t.outliers.isEmpty then [] else [.outlierIdx, .outlierVal]) ++
        if t.salientIndices.isSome then [.salientIdx, .salientVal] else []

/-- A side file is named as both configurations name it. -/
theorem shortened_of_mem_sideFiles {file : TensorFile} (h : file ∈ sideFiles t) (short : Bool) : Shortened short file := by
  cases file with
  | codebook i => simp [sideFiles, scaleFile] at h; grind
  | indices i => simp [sideFiles, scaleFile] at h; grind
  | _ => trivial

/-- No side file is named twice. -/
theorem nodup_sideFiles : (sideFiles t).Nodup := by
  unfold sideFiles scaleFile
  cases t.normalization <;> cases t.awqColScales <;> cases t.outliers.isEmpty <;> cases t.salientIndices <;>
    simp [storesBlockScales]

/-- A stage's index stream is no sidecar. -/
theorem indices_notMem_sideFiles (i : ℕ) : TensorFile.indices i ∉ sideFiles t := by
  intro h
  simp only [sideFiles, scaleFile] at h
  grind

/-- A file of a stage is no sidecar. -/
theorem stageFile_notMem_sideFiles {file : TensorFile} (h : StageFile cfg t file) (t' : PackedTensor α) :
    file ∉ sideFiles t' := by
  obtain ⟨i, -, rfl | ⟨-, rfl⟩⟩ := h
  · exact indices_notMem_sideFiles i
  · intro h
    simp only [sideFiles, scaleFile] at h
    grind

section Finalize

variable [Field α] [LinearOrder α] [FloorRing α]

/-- Persisting writes the side files, and the entry names what was written. -/
theorem persistTensorSidecars_eq_ok {side : Sidecars α} (h : persistTensorSidecars cfg t = .ok side) :
    side.writes.map Prod.fst = (sideFiles t).map (t.path cfg) ∧
      side.scales.toList ++ side.awqColScales.toList.map VectorMeta.path ++
        side.outliers.toList.flatMap (fun o => [o.positions, o.values]) ++
          side.salient.toList.flatMap (fun s => [s.indices, s.weights]) = (sideFiles t).map (t.path cfg) := by
  obtain ⟨⟨scaleWrites, scales, count, dtype⟩, hs, h⟩ := bind_eq_ok.1 h
  obtain ⟨⟨salientWrites, salient⟩, hsal, rfl⟩ := map_eq_ok.1 h
  have h1 : scaleWrites.map Prod.fst = (scaleFile t.normalization).toList.map (t.path cfg) ∧
      scales.toList = (scaleFile t.normalization).toList.map (t.path cfg) := by
    unfold persistScales at hs
    split at hs
    · next e =>
      cases hs
      simp [e]
    · next file e =>
      split at hs
      · cases hs
      · cases hs
        simp [e]
  have h2 : (persistAwqColScales cfg t).1.map Prod.fst =
        (if t.awqColScales.isSome = true ∧ t.normalization = .awqBlockMax then [.awqColScale] else []).map (t.path cfg) ∧
      (persistAwqColScales cfg t).2.toList.map VectorMeta.path =
        (if t.awqColScales.isSome = true ∧ t.normalization = .awqBlockMax then [.awqColScale] else []).map (t.path cfg) := by
    unfold persistAwqColScales
    cases t.awqColScales with
    | none => simp
    | some scales => by_cases hn : t.normalization = .awqBlockMax <;> simp [hn]
  have h3 : (persistOutliers cfg t).1.map Prod.fst =
        (if t.outliers.isEmpty then [] else [.outlierIdx, .outlierVal]).map (t.path cfg) ∧
      (persistOutliers cfg t).2.toList.flatMap (fun o => [o.positions, o.values]) =
        (if t.outliers.isEmpty then [] else [.outlierIdx, .outlierVal]).map (t.path cfg) := by
    unfold persistOutliers
    cases t.outliers.isEmpty <;> simp
  have h4 : salientWrites.map Prod.fst = (if t.salientIndices.isSome then [.salientIdx, .salientVal] else []).map (t.path cfg) ∧
      salient.toList.flatMap (fun s => [s.indices, s.weights]) =
        (if t.salientIndices.isSome then [.salientIdx, .salientVal] else []).map (t.path cfg) := by
    unfold persistSalient at hsal
    split at hsal
    · next e =>
      cases hsal
      simp [e]
    · cases hsal
    · next e _ =>
      obtain ⟨⟨idx, val, dtype⟩, -, hw⟩ := map_eq_ok.1 hsal
      cases hw
      simp [e]
  simp only [List.map_append, sideFiles, h1, h2, h3, h4, and_self]

/-- The paths a finalized tensor records and the sidecars it writes. -/
structure Filed (cfg : PackConfig) (f : Finalized α) : Prop where
  name : f.entry.name = f.tensor.name
  pos : 0 < stageCount cfg f.tensor
  stages : f.entry.stages.map (fun s => (s.codebook, s.indices)) =
    (List.range (stageCount cfg f.tensor)).map fun i => (f.tensor.codebookPath cfg i, f.tensor.path cfg (.indices i))
  codebook : f.entry.codebook = f.tensor.codebookPath cfg 0
  indices : f.entry.indices = tensorPath (cfg.nStages = 1) (safeTensorName f.tensor.name) (.indices 0)
  writes : f.sidecars.map Prod.fst = (sideFiles f.tensor).map (f.tensor.path cfg)
  sidecars : f.entry.sidecarPaths = (sideFiles f.tensor).map (f.tensor.path cfg)

/-- Finalizing a tensor files its own sidecars and keeps the tensor. -/
theorem filed_of_finalize {compress : List ℕ → List ℕ} {f : Finalized α}
    (h : finalizeTensorManifestEntry cfg t compress = .ok f) : Filed cfg f ∧ f.tensor = t := by
  obtain ⟨side, hs, h⟩ := bind_eq_ok.1 h
  obtain ⟨entry, he, rfl⟩ := map_eq_ok.1 h
  obtain ⟨hw, hp⟩ := persistTensorSidecars_eq_ok hs
  unfold buildTensorManifestEntry at he
  split at he
  · cases he
  · next first rest e =>
    have hmap : (first :: rest).map (fun s => (s.codebook, s.indices)) =
        (List.range (stageCount cfg t)).map fun i => (t.codebookPath cfg i, t.path cfg (.indices i)) := by
      rw [← e, List.map_map, ← numberedStages_snd, List.map_map]
      rfl
    have hpos : 0 < stageCount cfg t := by
      have := congrArg List.length e
      simp only [List.length_map, List.length_cons] at this
      rw [stageCount, this]
      exact Nat.succ_pos _
    cases he
    refine ⟨⟨rfl, hpos, hmap, ?_, rfl, hw, ?_⟩, rfl⟩
    · obtain ⟨n, hn⟩ := Nat.exists_eq_succ_of_ne_zero hpos.ne'
      rw [hn, List.range_succ_eq_map, List.map_cons, List.map_cons] at hmap
      exact (Prod.mk.inj (List.cons.inj hmap).1).1
    · simpa [TensorMeta.sidecarPaths] using hp

end Finalize

/-! ## The writes of a pack -/

section Writes

variable {compress : List ℕ → List ℕ} {shared : String → ℕ → File α}

/-- A write goes to a file of the tensor. -/
def Owns (cfg : PackConfig) (t : PackedTensor α) (p : String) : Prop :=
  ∃ file, Shortened cfg.short file ∧ p = t.path cfg file

/-- What the stages write belongs to the tensor. -/
theorem owns_stageWrites {w : String × File α} (h : w ∈ stageWrites cfg compress t) : Owns cfg t w.1 := by
  have : w.1 ∈ (tensorTasks cfg t).map Task.path := by
    rw [← paths_runTasks compress fun _ => none]
    exact List.mem_map_of_mem h
  obtain ⟨task, ht, hp⟩ := List.mem_map.1 this
  obtain ⟨file, hf, he, -⟩ := path_of_mem_tensorTasks ht
  exact ⟨file, shortened_of_stageFile hf, by rw [← hp, he]⟩

/-- What the index rows write belongs to the tensor. -/
theorem owns_indexWrites {stage : ℕ} {w : String × File α} (h : w ∈ indexWrites cfg compress stage t) : Owns cfg t w.1 := by
  obtain ⟨s, hs, h⟩ := List.mem_flatMap.1 h
  have : w.1 ∈ (stageTasks cfg t s).map Task.path := by
    rw [← paths_runTasks compress fun _ => none]
    exact List.mem_map_of_mem h
  obtain ⟨task, ht, hp⟩ := List.mem_map.1 this
  obtain ⟨file, hf, he, -⟩ := path_of_mem_stageTasks (List.mem_of_mem_filter hs) ht
  exact ⟨file, shortened_of_stageFile hf, by rw [← hp, he]⟩

/-- What the sidecars write belongs to the tensor. -/
theorem owns_sidecars {f : Finalized α} (hf : Filed cfg f) {w : String × File α} (h : w ∈ f.sidecars) :
    Owns cfg f.tensor w.1 := by
  have := List.mem_map_of_mem (f := Prod.fst) h
  rw [hf.writes] at this
  obtain ⟨file, hm, he⟩ := List.mem_map.1 this
  exact ⟨file, shortened_of_mem_sideFiles hm _, he.symm⟩

/-- Tensors of different safe names own different files. -/
theorem not_owns {t' : PackedTensor α} (hne : safeTensorName t'.name ≠ safeTensorName t.name) {file : TensorFile}
    (hfile : Shortened cfg.short file) {p : String} (h : Owns cfg t' p) : decide (p = t.path cfg file) = false := by
  obtain ⟨file', hf', rfl⟩ := h
  exact decide_eq_false fun e => hne (tensorPath_inj hf' hfile e).1

/-- The writes of one tensor. -/
def ownWrites (cfg : PackConfig) (compress : List ℕ → List ℕ) (f : Finalized α) : List (String × File α) :=
  match cfg.mode with
  | .perTensor => stageWrites cfg compress f.tensor ++ f.sidecars
  | .global | .family =>
    ((List.range cfg.nStages).flatMap fun stage => indexWrites cfg compress stage f.tensor) ++ f.sidecars

/-- The names of the tensors' files. -/
def safeNames (fs : List (Finalized α)) : List String := fs.map fun f => safeTensorName f.tensor.name

/-- **Among tensors of distinct safe names a file is written by its own tensor only.** -/
theorem filter_packWrites {fs : List (Finalized α)} (hfs : ∀ f ∈ fs, Filed cfg f) (hn : (safeNames fs).Nodup) {f : Finalized α}
    (hf : f ∈ fs) {file : TensorFile} (hfile : Shortened cfg.short file) :
    (packWrites cfg compress shared fs).filter (fun w => decide (w.1 = f.tensor.path cfg file)) =
      (ownWrites cfg compress f).filter fun w => decide (w.1 = f.tensor.path cfg file) := by
  have hnod : fs.Nodup := List.Nodup.of_map _ hn
  have hne : ∀ g ∈ fs, g ≠ f → safeTensorName g.tensor.name ≠ safeTensorName f.tensor.name :=
    fun g hg hgf e => hgf (List.inj_on_of_nodup_map hn hg hf e)
  have side : (fs.flatMap Finalized.sidecars).filter (fun w => decide (w.1 = f.tensor.path cfg file)) =
      f.sidecars.filter fun w => decide (w.1 = f.tensor.path cfg file) :=
    Journal.filter_flatMap_own hf hnod fun g hg hgf w hw => not_owns (hne g hg hgf) hfile (owns_sidecars (hfs g hg) hw)
  have sharedNone : ∀ stage, (sharedWrites cfg shared (fs.map Finalized.tensor) stage).filter
      (fun w => decide (w.1 = f.tensor.path cfg file)) = [] := by
    intro stage
    rw [List.filter_eq_nil_iff]
    intro w hw
    obtain ⟨key, -, rfl⟩ := List.mem_map.1 hw
    have := tensorPath_ne_shared cfg.short (safeTensorName f.tensor.name) file cfg.nStages key stage
    rw [decide_eq_true_eq]
    exact this.symm
  have batched : (((List.range cfg.nStages).flatMap fun stage =>
        sharedWrites cfg shared (fs.map Finalized.tensor) stage ++ fs.flatMap fun f => indexWrites cfg compress stage f.tensor) ++
          fs.flatMap Finalized.sidecars).filter (fun w => decide (w.1 = f.tensor.path cfg file)) =
      (((List.range cfg.nStages).flatMap fun stage => indexWrites cfg compress stage f.tensor) ++ f.sidecars).filter
        fun w => decide (w.1 = f.tensor.path cfg file) := by
    rw [List.filter_append, List.filter_append, side, List.filter_flatMap, List.filter_flatMap]
    congr 2
    funext stage
    rw [List.filter_append, sharedNone, List.nil_append]
    exact Journal.filter_flatMap_own hf hnod fun g hg hgf w hw => not_owns (hne g hg hgf) hfile (owns_indexWrites hw)
  rcases hm : cfg.mode with _ | _ | _
  · simp only [packWrites, ownWrites, hm]
    refine Journal.filter_flatMap_own hf hnod fun g hg hgf w hw => ?_
    rcases List.mem_append.1 hw with hw | hw
    · exact not_owns (hne g hg hgf) hfile (owns_stageWrites hw)
    · exact not_owns (hne g hg hgf) hfile (owns_sidecars (hfs g hg) hw)
  · simpa only [packWrites, ownWrites, hm] using batched
  · simpa only [packWrites, ownWrites, hm] using batched

/-- A tensor's file reads as if the tensor had been packed alone. -/
theorem get_packWrites_own {fs : List (Finalized α)} (hfs : ∀ f ∈ fs, Filed cfg f) (hn : (safeNames fs).Nodup) {f : Finalized α}
    (hf : f ∈ fs) {file : TensorFile} (hfile : Shortened cfg.short file) :
    Journal.get (packWrites cfg compress shared fs) (f.tensor.path cfg file) =
      Journal.get (packWrites cfg compress shared [f]) (f.tensor.path cfg file) := by
  have hone : (safeNames [f]).Nodup := List.nodup_singleton _
  have halone : ∀ g ∈ [f], Filed cfg g := by simpa using hfs f hf
  exact Journal.get_congr ((filter_packWrites hfs hn hf hfile).trans
    (filter_packWrites halone hone List.mem_cons_self hfile).symm)

/-! ## What is written -/

variable (compress) in
theorem mem_stageWrites {file : TensorFile} (h : StageFile cfg t file) :
    t.path cfg file ∈ (stageWrites cfg compress t).map Prod.fst := by
  rw [stageWrites, paths_runTasks]
  exact mem_paths_tensorTasks h

variable (compress) in
/-- With shared codebooks the index streams are written stage by stage. -/
theorem mem_indexWrites {i : ℕ} (hi : i < stageCount cfg t) :
    t.path cfg (.indices i) ∈ (indexWrites cfg compress i t).map Prod.fst := by
  have : i ∈ (t.numberedStages cfg).map Prod.snd := by
    rw [numberedStages_snd]
    exact List.mem_range.2 hi
  obtain ⟨s, hs, rfl⟩ := List.mem_map.1 this
  rw [indexWrites, List.map_flatMap]
  refine List.mem_flatMap.2 ⟨s, List.mem_filter.2 ⟨hs, decide_eq_true rfl⟩, ?_⟩
  rw [paths_runTasks]
  refine List.mem_map.2 ⟨.indices s.2 (t.path cfg (.indices s.2)) s.1.indices, ?_, rfl⟩
  cases hm : cfg.mode <;> simp [stageTasks, hm]

variable (compress shared) in
/-- The files of its stages and its sidecars are written. -/
theorem mem_packWrites {fs : List (Finalized α)} {f : Finalized α} (hf : f ∈ fs) :
    (∀ i < stageCount cfg f.tensor, f.tensor.path cfg (.indices i) ∈ (packWrites cfg compress shared fs).map Prod.fst) ∧
      (∀ i < stageCount cfg f.tensor, f.tensor.codebookPath cfg i ∈ (packWrites cfg compress shared fs).map Prod.fst) ∧
        ∀ w ∈ f.sidecars, w ∈ packWrites cfg compress shared fs := by
  have batched : ∀ i < stageCount cfg f.tensor,
      f.tensor.path cfg (.indices i) ∈ (((List.range cfg.nStages).flatMap fun stage =>
        sharedWrites cfg shared (fs.map Finalized.tensor) stage ++ fs.flatMap fun f => indexWrites cfg compress stage f.tensor) ++
          fs.flatMap Finalized.sidecars).map Prod.fst ∧
      sharedCodebookPath cfg.nStages (f.tensor.sharedKey cfg) i ∈ (((List.range cfg.nStages).flatMap fun stage =>
        sharedWrites cfg shared (fs.map Finalized.tensor) stage ++ fs.flatMap fun f => indexWrites cfg compress stage f.tensor) ++
          fs.flatMap Finalized.sidecars).map Prod.fst := by
    intro i hi
    have hr : i ∈ List.range cfg.nStages := List.mem_range.2 (lt_of_lt_of_le hi (stageCount_le _ _))
    constructor
    · obtain ⟨w, hw, he⟩ := List.mem_map.1 (mem_indexWrites compress hi)
      exact List.mem_map.2 ⟨w, List.mem_append_left _ (List.mem_flatMap.2 ⟨i, hr,
        List.mem_append_right _ (List.mem_flatMap.2 ⟨f, hf, hw⟩)⟩), he⟩
    · refine List.mem_map.2 ⟨(_, shared (f.tensor.sharedKey cfg) i), List.mem_append_left _ (List.mem_flatMap.2 ⟨i, hr,
        List.mem_append_left _ (List.mem_map.2 ⟨f.tensor.sharedKey cfg, ?_, rfl⟩)⟩), rfl⟩
      rw [List.mem_dedup, List.map_map]
      exact List.mem_map.2 ⟨f, hf, rfl⟩
  have side : ∀ w ∈ f.sidecars, w ∈ fs.flatMap Finalized.sidecars := fun w hw => List.mem_flatMap.2 ⟨f, hf, hw⟩
  have streamed : cfg.mode = .perTensor → ∀ file, StageFile cfg f.tensor file →
      f.tensor.path cfg file ∈ (packWrites cfg compress shared fs).map Prod.fst := by
    intro hm file hfile
    obtain ⟨w, hw, he⟩ := List.mem_map.1 (mem_stageWrites compress hfile)
    simp only [packWrites, hm]
    exact List.mem_map.2 ⟨w, List.mem_flatMap.2 ⟨f, hf, List.mem_append_left _ hw⟩, he⟩
  rcases hm : cfg.mode with _ | _ | _
  · refine ⟨fun i hi => streamed hm _ ⟨i, hi, Or.inl rfl⟩, fun i hi => ?_, fun w hw => ?_⟩
    · simp only [PackedTensor.codebookPath, hm]
      exact streamed hm _ ⟨i, hi, Or.inr ⟨hm, rfl⟩⟩
    · simp only [packWrites, hm]
      exact List.mem_flatMap.2 ⟨f, hf, List.mem_append_right _ hw⟩
  · simp only [packWrites, PackedTensor.codebookPath, hm]
    exact ⟨fun i hi => (batched i hi).1, fun i hi => (batched i hi).2, fun w hw => List.mem_append_right _ (side w hw)⟩
  · simp only [packWrites, PackedTensor.codebookPath, hm]
    exact ⟨fun i hi => (batched i hi).1, fun i hi => (batched i hi).2, fun w hw => List.mem_append_right _ (side w hw)⟩

/-- A shared codebook's file holds that codebook. -/
theorem get_packWrites_shared {fs : List (Finalized α)} (hfs : ∀ f ∈ fs, Filed cfg f) {f : Finalized α} (hf : f ∈ fs)
    (hm : cfg.mode ≠ .perTensor) {i : ℕ} (hi : i < stageCount cfg f.tensor) :
    Journal.get (packWrites cfg compress shared fs) (f.tensor.codebookPath cfg i) =
      some (shared (f.tensor.sharedKey cfg) i) := by
  have hpath : f.tensor.codebookPath cfg i = sharedCodebookPath cfg.nStages (f.tensor.sharedKey cfg) i := by
    rcases hmode : cfg.mode with _ | _ | _
    · exact absurd hmode hm
    · simp only [PackedTensor.codebookPath, hmode]
    · simp only [PackedTensor.codebookPath, hmode]
  have other : ∀ t : PackedTensor α, ∀ p, Owns cfg t p → p ≠ f.tensor.codebookPath cfg i := by
    rintro t p ⟨file, -, rfl⟩
    rw [hpath]
    exact tensorPath_ne_shared _ _ _ _ _ _
  refine Journal.get_of_constant ((mem_packWrites _ _ hf).2.1 i hi) fun w hw he => ?_
  have batched : w ∈ ((List.range cfg.nStages).flatMap fun stage =>
        sharedWrites cfg shared (fs.map Finalized.tensor) stage ++ fs.flatMap fun f => indexWrites cfg compress stage f.tensor) ++
          fs.flatMap Finalized.sidecars := by
    rcases hmode : cfg.mode with _ | _ | _
    · exact absurd hmode hm
    · simpa only [packWrites, hmode] using hw
    · simpa only [packWrites, hmode] using hw
  rcases List.mem_append.1 batched with h | h
  · obtain ⟨stage, hstage, h⟩ := List.mem_flatMap.1 h
    rcases List.mem_append.1 h with h | h
    · obtain ⟨key, -, rfl⟩ := List.mem_map.1 h
      have hn : cfg.nStages = 1 → stage = i := by
        intro h1
        have := List.mem_range.1 hstage
        have := lt_of_lt_of_le hi (stageCount_le _ _)
        omega
      obtain ⟨rfl, rfl⟩ := sharedCodebookPath_inj hn (he.trans hpath)
      rfl
    · obtain ⟨g, -, h⟩ := List.mem_flatMap.1 h
      exact absurd he (other _ _ (owns_indexWrites h))
  · obtain ⟨g, hg, h⟩ := List.mem_flatMap.1 h
    exact absurd he (other _ _ (owns_sidecars (hfs g hg) h))

end Writes

end ArtifactAux

end Orka
