import Orka.Lemmas.Merge
import Orka.Theorems.Repack

/-!
# A partition merged is the whole

Packing the slots of a partition one by one and merging them gives the artifact of the pack without a partition, if the source
has a tensor that is counted; if it has none, the pack of a slot fails where the whole pack does not.
-/

namespace Orka

open Steps SelectArgs ArtifactAux PathsAux PrefetchAux MergeAux

variable {α τ : Type}

/-- The pack of one slot of a partition. -/
def PackArgs.slot (args : PackArgs α τ) (count index : ℕ) : PackArgs α τ :=
  { args with select := args.select.slot count index }

/-- One artifact is the other: the same entries, each once, with the same decoded values, and the same tensors passed through. -/
structure SameArtifact [Field α] (num : Numerics α) (whole merged : Directory α τ) : Prop where
  entries : ∃ m m', whole.manifest = some m ∧ merged.manifest = some m' ∧ m'.tensors.Perm m.tensors ∧
    (m'.tensors.map TensorMeta.name).Nodup ∧ ∀ tm ∈ m'.tensors, decodeTensor num merged.store tm = decodeTensor num whole.store tm
  passthrough : merged.passthrough = whole.passthrough

namespace PartitionAux

theorem incompatibleField_self (header : ManifestHeader) : incompatibleField header header = none := by
  simp [incompatibleField]

/-- The manifest of a slot. -/
def slotManifest (args : PackArgs α τ) (count : ℕ) (part : ℕ → Packed τ (Finalized α)) (index : ℕ) : PackManifest :=
  ⟨args.header, some (count, index), (part index).tensors.map fun e => e.2.entry⟩

/-- The manifests of the slots are compatible. -/
theorem checkManifests_slots (args : PackArgs α τ) (count : ℕ) (part : ℕ → Packed τ (Finalized α))
    (others : List String) (i : ℕ) (order : List ℕ) :
    ∃ us, checkManifests (slotManifest args count part i) (others.zip (order.map (slotManifest args count part))) = .ok us :=
  ⟨_, mapM_ok (g := fun _ => ()) fun o ho => by
    obtain ⟨j, -, e⟩ := List.mem_map.1 (List.of_mem_zip ho).2
    rw [checkManifestCompatibility, ← e, slotManifest, slotManifest, incompatibleField_self]⟩

variable [Field α] [LinearOrder α] [FloorRing α] {args : PackArgs α τ} {source : List (SourceTensor τ)}
  {packed : Packed τ (Finalized α)} {num : Numerics α}

/-- A pack of streamed tensors that returns. -/
theorem streamed_eq_ok (hm : args.header.codebookMode = .perTensor)
    (h : packCheckpoint args.header.codebookMode args.select args.finish source = .ok packed) :
    ∃ entries, ((select args.select source).emitted.mapM fun t => (args.finish [] t).map fun f => (t.name, f)) = .ok entries ∧
      packed = ⟨entries, (select args.select source).passthrough⟩ := by
  have hfinish : ∀ cs t, args.finish cs t = args.finish [] t := fun cs t => by
    rw [PackArgs.finish, PackArgs.finish, args.streamed hm cs []]
  rw [hm] at h
  simp only [packCheckpoint, candidatesOf, hfinish] at h
  split at h
  · cases h
  · split at h
    · cases h
    · obtain ⟨entries, he, rfl⟩ := map_eq_ok.1 h
      exact ⟨entries, he, rfl⟩

variable (args) in
/-- The entries of a pack are those of the tensors it emits. -/
theorem mem_entries (hm : args.header.codebookMode = .perTensor)
    (h : packCheckpoint args.header.codebookMode args.select args.finish source = .ok packed) {e : String × Finalized α} :
    e ∈ packed.tensors ↔
      ∃ t ∈ (select args.select source).emitted, ((args.finish [] t).map fun f => (t.name, f)) = .ok e := by
  obtain ⟨entries, he, rfl⟩ := streamed_eq_ok hm h
  exact mem_of_mapM_eq_ok he

/-- The whole pack: streamed, without a partition and without a maximum, of tensors whose safe names are distinct. -/
structure Whole (args : PackArgs α τ) (source : List (SourceTensor τ)) (packed : Packed τ (Finalized α)) : Prop where
  streamed : args.header.codebookMode = .perTensor
  partition : args.select.partition = none
  maxTensors : args.select.maxTensors = none
  safe : (source.map fun t => safeTensorName t.name).Nodup
  packs : packCheckpoint args.header.codebookMode args.select args.finish source = .ok packed

namespace Whole

/-- The pack of a slot. -/
def SlotPack (args : PackArgs α τ) (source : List (SourceTensor τ)) (count index : ℕ) (q : Packed τ (Finalized α)) : Prop :=
  packCheckpoint (args.slot count index).header.codebookMode (args.slot count index).select (args.slot count index).finish
    source = .ok q

/-- A whole pack has distinct names. -/
theorem names (w : Whole args source packed) : (source.map SourceTensor.name).Nodup := by
  have e : source.map (fun t => safeTensorName t.name) = (source.map SourceTensor.name).map safeTensorName := by
    rw [List.map_map]
    rfl
  exact List.Nodup.of_map _ (e ▸ w.safe)

/-- A whole pack emits every tensor it selects. -/
theorem emitted (w : Whole args source packed) : (select args.select source).emitted = args.select.emittedFrom 0 source := by
  rw [select_eq_afterAll _ w.maxTensors]
  rfl

/-- A slot selects through the whole source. -/
theorem select_slot (w : Whole args source packed) (count index : ℕ) :
    select (args.slot count index).select source = (args.select.slot count index).afterAll source :=
  select_eq_afterAll (args.select.slot count index) w.maxTensors source

/-- With a tensor that is counted every slot packs. -/
theorem exists_slotPack (w : Whole args source packed) (hel : ∃ t ∈ source, args.select.eligible t = true) (count index : ℕ) :
    ∃ q, SlotPack args source count index q := by
  have hcount : (select (args.slot count index).select source).candidateCount ≠ 0 := by
    obtain ⟨t, ht, he⟩ := hel
    rw [w.select_slot]
    exact (List.countP_pos_iff.2 ⟨t, ht, he⟩).ne'
  have hsome : (args.slot count index).select.partition ≠ none := fun h => nomatch h
  obtain ⟨whole, hwhole, -⟩ := streamed_eq_ok w.streamed w.packs
  obtain ⟨entries, he⟩ : ∃ entries, ((select (args.slot count index).select source).emitted.mapM fun t =>
      (args.finish (select (args.slot count index).select source).emitted t).map fun f => (t.name, f)) = .ok entries := by
    -- the whole pack has finished each of the slot's tensors, and it finishes a tensor alone
    refine exists_mapM_eq_ok.2 fun t ht => ?_
    rw [w.select_slot] at ht
    have hmem : t ∈ (select args.select source).emitted := by
      rw [w.emitted]
      exact mem_emitted_of_slot w.partition ht
    obtain ⟨y, hy⟩ := exists_mapM_eq_ok.1 ⟨whole, hwhole⟩ t hmem
    refine ⟨y, ?_⟩
    rw [← hy, PackArgs.finish, PackArgs.finish, args.streamed w.streamed _ []]
  refine ⟨⟨entries, (select (args.slot count index).select source).passthrough⟩, ?_⟩
  have hmode : (args.slot count index).header.codebookMode = .perTensor := w.streamed
  rw [SlotPack, hmode]
  simp only [packCheckpoint, candidatesOf]
  rw [if_neg fun h => hsome h.2.2, if_neg fun h => hcount h.2.2]
  exact congrArg (Except.map _) he

variable {count i j : ℕ} {q q' : Packed τ (Finalized α)}

theorem mem_slot (w : Whole args source packed) (h : SlotPack args source count i q) {e : String × Finalized α} :
    e ∈ q.tensors ↔ ∃ t ∈ (args.select.slot count i).emittedFrom 0 source,
      ((args.finish [] t).map fun f => (t.name, f)) = .ok e := by
  rw [mem_entries (args.slot count i) w.streamed h, w.select_slot]
  exact Iff.rfl

theorem mem_whole (w : Whole args source packed) {e : String × Finalized α} :
    e ∈ packed.tensors ↔ ∃ t ∈ args.select.emittedFrom 0 source, ((args.finish [] t).map fun f => (t.name, f)) = .ok e := by
  rw [mem_entries _ w.streamed w.packs, w.emitted]

/-- The entries of the slots are those of the whole. -/
theorem mem_whole_iff_slot (w : Whole args source packed) (hc : 0 < count) {part : ℕ → Packed τ (Finalized α)}
    (h : ∀ i < count, SlotPack args source count i (part i)) {e : String × Finalized α} :
    e ∈ packed.tensors ↔ ∃ i < count, e ∈ (part i).tensors := by
  rw [w.mem_whole]
  constructor
  · rintro ⟨t, ht, he⟩
    obtain ⟨i, hi, ht⟩ := exists_slot w.partition hc ht
    exact ⟨i, hi, (w.mem_slot (h i hi)).2 ⟨t, ht, he⟩⟩
  · rintro ⟨i, hi, he⟩
    obtain ⟨t, ht, he⟩ := (w.mem_slot (h i hi)).1 he
    exact ⟨t, mem_emitted_of_slot w.partition ht, he⟩

/-- Entries whose tensors share a safe name come from one slot. -/
theorem slot_eq (w : Whole args source packed) (h : SlotPack args source count i q) (h' : SlotPack args source count j q')
    {e e' : String × Finalized α} (he : e ∈ q.tensors) (he' : e' ∈ q'.tensors)
    (hn : safeTensorName e.1 = safeTensorName e'.1) : i = j := by
  obtain ⟨t, ht, heq⟩ := (w.mem_slot h).1 he
  obtain ⟨t', ht', heq'⟩ := (w.mem_slot h').1 he'
  obtain ⟨f, -, rfl⟩ := map_eq_ok.1 heq
  obtain ⟨f', -, rfl⟩ := map_eq_ok.1 heq'
  have := List.inj_on_of_nodup_map w.safe (emitted_sub ht).1 (emitted_sub ht').1 hn
  exact slot_unique w.names ht ht' (congrArg SourceTensor.name this)

/-- Every entry of a slot names its own files. -/
theorem filed_slot (h : SlotPack args source count i q) : ∀ f ∈ q.tensors.map Prod.snd, Filed args.config f := by
  intro f hf
  obtain ⟨e, he, rfl⟩ := List.mem_map.1 hf
  exact (filed_of_packCheckpoint (args.slot count i) h e he).1

/-- Every entry of the whole pack names its own files. -/
theorem filed_whole (w : Whole args source packed) : ∀ f ∈ packed.tensors.map Prod.snd, Filed args.config f := by
  intro f hf
  obtain ⟨e, he, rfl⟩ := List.mem_map.1 hf
  exact (filed_of_packCheckpoint _ w.packs e he).1

/-- The safe names of a slot's entries are distinct. -/
theorem safe_slot (w : Whole args source packed) (h : SlotPack args source count i q) :
    (safeNames (q.tensors.map Prod.snd)).Nodup := by
  rw [safeNames_eq (args.slot count i) h, w.select_slot]
  exact w.safe.sublist ((emittedFrom_sublist _ _ _).map _)

/-- No two entries of the whole pack share a safe name. -/
theorem safe_whole (w : Whole args source packed) : (safeNames (packed.tensors.map Prod.snd)).Nodup := by
  rw [safeNames_eq _ w.packs, w.emitted]
  exact w.safe.sublist ((emittedFrom_sublist _ _ _).map _)

/-- The files of two slots are apart. -/
theorem apart (w : Whole args source packed) (h : SlotPack args source count i q) (h' : SlotPack args source count j q')
    (hij : i ≠ j) : Apart (packFiles (args.slot count i) source q) (packFiles (args.slot count j) source q') := by
  intro p
  by_contra hp
  rw [not_or, Journal.get_eq_none, Journal.get_eq_none, not_not, not_not] at hp
  obtain ⟨f, hf, file, hfile, rfl⟩ := owner_of_streamed (filed_slot h) w.streamed hp.1
  obtain ⟨f', hf', file', hfile', he⟩ := owner_of_streamed (filed_slot h') w.streamed hp.2
  obtain ⟨e, hem, rfl⟩ := List.mem_map.1 hf
  obtain ⟨e', hem', rfl⟩ := List.mem_map.1 hf'
  have hsafe := (NamesAux.tensorPath_inj hfile hfile' he).1
  rw [(filed_of_packCheckpoint (args.slot count i) h e hem).2,
    (filed_of_packCheckpoint (args.slot count j) h' e' hem').2] at hsafe
  exact hij (w.slot_eq h h' hem hem' hsafe)

/-- An entry decodes in its slot's files as in the whole's. -/
theorem decode_slot (w : Whole args source packed) (h : SlotPack args source count i q) {e : String × Finalized α}
    (he : e ∈ q.tensors) (hw : e ∈ packed.tensors) :
    decodeTensor num (Journal.get (packFiles (args.slot count i) source q)) e.2.entry =
      decodeTensor num (Journal.get (packFiles args source packed)) e.2.entry := by
  have hmode : args.config.mode = .perTensor := w.streamed
  refine decodeTensor_congr num fun p hp => ?_
  have h1 := get_reads_own args.compress (args.shared (select (args.slot count i).select source).emitted)
    (filed_slot h) (w.safe_slot h) (List.mem_map_of_mem he) p hp
  have h2 := get_reads_own args.compress (args.shared (select args.select source).emitted)
    w.filed_whole w.safe_whole (List.mem_map_of_mem hw) p hp
  have alone : ∀ shared shared' : String → ℕ → File α, packWrites args.config args.compress shared [e.2] =
      packWrites args.config args.compress shared' [e.2] := fun _ _ => by simp only [packWrites, hmode]
  calc Journal.get (packFiles (args.slot count i) source q) p = _ := h1
    _ = _ := by rw [alone]
    _ = Journal.get (packFiles args source packed) p := h2.symm

/-- The directory the pack of a slot leaves. -/
def slotDir (args : PackArgs α τ) (source : List (SourceTensor τ)) (count index : ℕ) (q : Packed τ (Finalized α)) :
    Directory α τ :=
  ⟨packFiles (args.slot count index) source q, if q.passthrough = [] then none else some q.passthrough,
    some ⟨args.header, some (count, index), q.tensors.map fun e => e.2.entry⟩⟩

/-- What passes through is the same in every slot. -/
theorem passthrough_slot (w : Whole args source packed) (h : SlotPack args source count i q) :
    q.passthrough = packed.passthrough := by
  rw [(packCheckpoint_eq_ok h).2, (packCheckpoint_eq_ok w.packs).2, w.select_slot, select_eq_afterAll _ w.maxTensors]
  rfl

/-- A tensor that passes through has the name of no entry. -/
theorem passthrough_not_packed (w : Whole args source packed) {t : SourceTensor τ} (ht : t ∈ packed.passthrough)
    {e : String × Finalized α} (he : e ∈ packed.tensors) : t.name ≠ e.1 := by
  rw [(packCheckpoint_eq_ok w.packs).2, select_eq_afterAll _ w.maxTensors, mem_passthrough_afterAll] at ht
  obtain ⟨t', ht', heq⟩ := w.mem_whole.1 he
  obtain ⟨f, -, rfl⟩ := map_eq_ok.1 heq
  intro hn
  obtain ⟨hs, hel⟩ := emitted_sub ht'
  have := List.inj_on_of_nodup_map w.names ht.1 hs hn
  rw [← this, not_eligible_of_passes ht.2] at hel
  cases hel

variable {part : ℕ → Packed τ (Finalized α)} {order : List ℕ}

/-- The entries of all slots, slot by slot. -/
def slotEntries (part : ℕ → Packed τ (Finalized α)) (order : List ℕ) : List (String × Finalized α) :=
  order.flatMap fun i => (part i).tensors

theorem mem_slotEntries (w : Whole args source packed) (hc : 0 < count) (h : ∀ i < count, SlotPack args source count i (part i))
    (hperm : order.Perm (List.range count)) {e : String × Finalized α} : e ∈ slotEntries part order ↔ e ∈ packed.tensors := by
  rw [w.mem_whole_iff_slot hc h, slotEntries, List.mem_flatMap]
  simp only [hperm.mem_iff, List.mem_range]

/-- No name comes twice among them. -/
theorem nodup_slotEntries (w : Whole args source packed) (h : ∀ i < count, SlotPack args source count i (part i))
    (hperm : order.Perm (List.range count)) : ((slotEntries part order).map Prod.fst).Nodup := by
  have hlt : ∀ i ∈ order, i < count := fun i hi => List.mem_range.1 (hperm.mem_iff.1 hi)
  rw [slotEntries, List.map_flatMap, List.nodup_flatMap]
  refine ⟨fun i hi => ?_, (hperm.nodup_iff.2 List.nodup_range).imp_of_mem fun {i j} hi hj hij => ?_⟩
  · rw [(packCheckpoint_eq_ok (h i (hlt i hi))).1, w.select_slot]
    exact w.names.sublist ((emittedFrom_sublist _ _ _).map _)
  · intro name hn hn'
    obtain ⟨e, he, rfl⟩ := List.mem_map.1 hn
    obtain ⟨e', he', heq⟩ := List.mem_map.1 hn'
    exact hij (w.slot_eq (h i (hlt i hi)) (h j (hlt j hj)) he he' (by rw [heq]))

/-- The inputs of the merge. -/
def slotInputs (args : PackArgs α τ) (source : List (SourceTensor τ)) (count : ℕ) (part : ℕ → Packed τ (Finalized α))
    (paths : ℕ → String) (order : List ℕ) : List (String × Directory α τ) :=
  order.map fun i => (paths i, slotDir args source count i (part i))

variable {paths : ℕ → String}

theorem lt_of_mem_order (hperm : order.Perm (List.range count)) : ∀ i ∈ order, i < count :=
  fun _ hi => List.mem_range.1 (hperm.mem_iff.1 hi)

/-- The names of entries are their tensors'. -/
theorem entry_names (w : Whole args source packed) {es : List (String × Finalized α)} (hes : ∀ e ∈ es, e ∈ packed.tensors) :
    (es.map fun e => e.2.entry).map TensorMeta.name = es.map Prod.fst := by
  rw [List.map_map]
  refine List.map_congr_left fun e he => ?_
  obtain ⟨hf, hn⟩ := filed_of_packCheckpoint _ w.packs e (hes e he)
  rw [Function.comp_apply, hf.name, hn]

/-- No two slots have an entry of one name. -/
theorem nodup_entryNames (w : Whole args source packed) (hc : 0 < count)
    (h : ∀ i < count, SlotPack args source count i (part i)) (hperm : order.Perm (List.range count)) :
    (((slotEntries part order).map fun e => e.2.entry).map TensorMeta.name).Nodup := by
  rw [w.entry_names fun e he => (w.mem_slotEntries hc h hperm).1 he]
  exact w.nodup_slotEntries h hperm

variable (paths) in
/-- The files of all slots are copied side by side. -/
theorem copy_slots (w : Whole args source packed) (h : ∀ i < count, SlotPack args source count i (part i))
    (hperm : order.Perm (List.range count)) :
    ∃ files, copyAll ((slotInputs args source count part paths order).map Prod.snd) [] = .ok files ∧
      ∀ i ∈ order, ∀ p v, Journal.get (packFiles (args.slot count i) source (part i)) p = some v →
        Journal.get files p = some v := by
  have hdirs : (slotInputs args source count part paths order).map Prod.snd =
      order.map fun i => slotDir args source count i (part i) := by
    rw [slotInputs, List.map_map]
    rfl
  rw [hdirs]
  obtain ⟨files, hfiles, -, hget⟩ := copyAll_ok (order.map fun i => slotDir args source count i (part i)) []
    (by
      rw [List.pairwise_map]
      refine (hperm.nodup_iff.2 List.nodup_range).imp_of_mem fun {i j} hi hj hij => ?_
      exact w.apart (h i (lt_of_mem_order hperm i hi)) (h j (lt_of_mem_order hperm j hj)) hij)
    (fun d _ p => Or.inr rfl)
  exact ⟨files, hfiles, fun i hi => hget _ (List.mem_map_of_mem hi)⟩

/-- The entries of all slots are collected. -/
theorem mergeTensors_slots (w : Whole args source packed) (hc : 0 < count)
    (h : ∀ i < count, SlotPack args source count i (part i)) (hperm : order.Perm (List.range count)) :
    mergeTensors ((order.map (slotManifest args count part)).flatMap PackManifest.tensors) [] =
      .ok ((slotEntries part order).map fun e => e.2.entry) := by
  have htensors : (order.map (slotManifest args count part)).flatMap PackManifest.tensors =
      (slotEntries part order).map fun e => e.2.entry := by
    rw [slotEntries, List.map_flatMap, List.flatMap_map]
    rfl
  rw [htensors]
  exact mergeTensors_ok [] (w.nodup_entryNames hc h hperm)

variable (paths) in
/-- What passes through is kept once. -/
theorem mergePassthrough_slots (w : Whole args source packed) (hc : 0 < count)
    (h : ∀ i < count, SlotPack args source count i (part i)) (hperm : order.Perm (List.range count)) (hne : order ≠ []) :
    mergePassthrough (((slotEntries part order).map fun e => e.2.entry).map TensorMeta.name)
      ((slotInputs args source count part paths order).flatMap fun input => input.2.passthrough.getD []) [] =
        packed.passthrough := by
  have hall : ∀ e ∈ slotEntries part order, e ∈ packed.tensors := fun e he => (w.mem_slotEntries hc h hperm).1 he
  have hpass : (slotInputs args source count part paths order).flatMap (fun input => input.2.passthrough.getD []) =
      order.flatMap fun _ => packed.passthrough := by
    rw [slotInputs, List.flatMap_map]
    refine List.flatMap_congr fun i hi => ?_
    simp only [slotDir, w.passthrough_slot (h i (lt_of_mem_order hperm i hi))]
    by_cases hnil : packed.passthrough = []
    · rw [if_pos hnil, hnil]
      rfl
    · rw [if_neg hnil]
      rfl
  rw [hpass]
  refine mergePassthrough_same order hne ?_ fun t ht hmem => ?_
  · rw [(packCheckpoint_eq_ok w.packs).2, select_eq_afterAll _ w.maxTensors]
    exact w.names.sublist ((List.filter_sublist).map _)
  · rw [w.entry_names hall] at hmem
    obtain ⟨e, he, hn⟩ := List.mem_map.1 hmem
    exact w.passthrough_not_packed ht (hall e he) hn.symm

/-- **The slots merge**, in any order. -/
theorem merge_slots (w : Whole args source packed) (hc : 2 ≤ count) (h : ∀ i < count, SlotPack args source count i (part i))
    (hperm : order.Perm (List.range count)) {outDir : String} (hout : ∀ i < count, paths i ≠ outDir)
    {files : List (String × File α)}
    (hfiles : copyAll ((slotInputs args source count part paths order).map Prod.snd) [] = .ok files) :
    mergeOrkaArtifacts (slotInputs args source count part paths order) outDir {} =
      .ok ⟨files, if packed.passthrough = [] then none else some packed.passthrough,
        some ⟨args.header, none, ((slotEntries part order).map fun e => e.2.entry).insertionSort fun a b => a.name ≤ b.name⟩⟩ := by
  have hc0 : 0 < count := by omega
  have hlen : order.length = count := by rw [hperm.length_eq, List.length_range]
  have h1 : ¬ (slotInputs args source count part paths order).length < 2 := by
    rw [slotInputs, List.length_map, hlen]
    omega
  have h2 : outDir ∉ (slotInputs args source count part paths order).map Prod.fst := by
    rw [slotInputs, List.map_map, List.mem_map]
    rintro ⟨i, hi, e⟩
    exact hout i (lt_of_mem_order hperm i hi) e
  have hmanifests : (slotInputs args source count part paths order).mapM inputManifest =
      .ok (order.map (slotManifest args count part)) := by
    rw [slotInputs, List.mapM_map]
    exact mapM_ok fun i _ => rfl
  have hne : order ≠ [] := fun e => by rw [e, List.length_nil] at hlen; omega
  have htensors := w.mergeTensors_slots hc0 h hperm
  have hkept := w.mergePassthrough_slots paths hc0 h hperm hne
  rw [mergeOrkaArtifacts, if_neg h1, if_neg h2, if_neg (by simp [Directory.isEmpty]), hmanifests, ok_bind]
  cases order with
  | nil => exact absurd rfl hne
  | cons i order =>
    obtain ⟨us, hcheck⟩ := checkManifests_slots args count part
      (((slotInputs args source count part paths (i :: order)).map Prod.fst).drop 1) i order
    simp only [List.map_cons] at hcheck htensors ⊢
    rw [hcheck, ok_bind, hfiles, ok_bind, htensors, ok_map, hkept]
    rfl

/-- What they merge to is the whole. -/
theorem sameArtifact_slots (w : Whole args source packed) (hc : 0 < count)
    (h : ∀ i < count, SlotPack args source count i (part i)) (hperm : order.Perm (List.range count))
    {files : List (String × File α)}
    (hget : ∀ i ∈ order, ∀ p v, Journal.get (packFiles (args.slot count i) source (part i)) p = some v →
      Journal.get files p = some v) :
    SameArtifact num
      ⟨packFiles args source packed, if packed.passthrough = [] then none else some packed.passthrough,
        some ⟨args.header, args.select.partition, packed.tensors.map fun e => e.2.entry⟩⟩
      ⟨files, if packed.passthrough = [] then none else some packed.passthrough,
        some ⟨args.header, none, ((slotEntries part order).map fun e => e.2.entry).insertionSort fun a b => a.name ≤ b.name⟩⟩ := by
  refine ⟨⟨_, _, rfl, rfl, ?_, ?_, ?_⟩, rfl⟩
  · refine (List.perm_insertionSort _ _).trans (List.Perm.map _ ?_)
    have hn1 := List.Nodup.of_map _ (w.nodup_slotEntries h hperm)
    have hn2 : packed.tensors.Nodup := by
      refine List.Nodup.of_map Prod.fst ?_
      rw [(packCheckpoint_eq_ok w.packs).1, w.emitted]
      exact w.names.sublist ((emittedFrom_sublist _ _ _).map _)
    exact (List.perm_ext_iff_of_nodup hn1 hn2).2 fun e => w.mem_slotEntries hc h hperm
  · exact ((List.perm_insertionSort _ _).map _).nodup_iff.2 (w.nodup_entryNames hc h hperm)
  · intro tm htm
    rw [List.mem_insertionSort] at htm
    obtain ⟨e, he, rfl⟩ := List.mem_map.1 htm
    obtain ⟨i, hi, hei⟩ := List.mem_flatMap.1 he
    have hslot := h i (lt_of_mem_order hperm i hi)
    rw [Directory.store, Directory.store, ← w.decode_slot hslot hei ((w.mem_slotEntries hc h hperm).1 he)]
    refine decodeTensor_congr num fun p hp => ?_
    have hw := reads_written args.compress
      (args.shared (select (args.slot count i).select source).emitted) (filed_slot hslot)
      (List.mem_map_of_mem hei) p hp
    obtain ⟨v, hv⟩ := Option.ne_none_iff_exists'.1 (mt Journal.get_eq_none.1 (not_not.2 hw))
    have hv : Journal.get (packFiles (args.slot count i) source (part i)) p = some v := hv
    rw [hv]
    exact hget i hi p v hv

end Whole

end PartitionAux

open PartitionAux PartitionAux.Whole

variable [Field α] [LinearOrder α] [FloorRing α]

/-- **When a partition merges to the whole.** Every slot packs, and the slots merge in any order to the artifact of the pack
without a partition, exactly if the source has a tensor that is counted: a candidate that is listed and not skipped. -/
theorem merge_partition_iff (num : Numerics α) (args : PackArgs α τ) (source : List (SourceTensor τ)) (count : ℕ)
    (hc : 2 ≤ count) (hm : args.header.codebookMode = .perTensor) (hpart : args.select.partition = none)
    (hmax : args.select.maxTensors = none) (hsafe : (source.map fun t => safeTensorName t.name).Nodup)
    (whole : Directory α τ) (h : packInto args source {} = .ok whole) (paths : ℕ → String) (outDir : String)
    (hout : ∀ i < count, paths i ≠ outDir) :
    (∃ part : ℕ → Directory α τ, (∀ i < count, packInto (args.slot count i) source {} = .ok (part i)) ∧
        ∀ order : List ℕ, order.Perm (List.range count) →
          ∃ merged, mergeOrkaArtifacts (order.map fun i => (paths i, part i)) outDir {} = .ok merged ∧
            SameArtifact num whole merged) ↔
      ∃ t ∈ source, args.select.eligible t = true := by
  obtain ⟨packed, hp, rfl⟩ := packInto_eq_ok h
  have w : Whole args source packed := ⟨hm, hpart, hmax, hsafe, hp⟩
  constructor
  · rintro ⟨part, hpack, -⟩
    by_contra hel
    -- without a counted tensor the pack of a slot finds no candidates
    obtain ⟨q, hq, -⟩ := packInto_eq_ok (hpack 0 (by omega))
    have hcount : args.select.counted source = 0 := List.countP_eq_zero.2 fun t ht he => hel ⟨t, ht, he⟩
    have hemitted : (args.select.slot count 0).emittedFrom 0 source = [] :=
      List.eq_nil_iff_forall_not_mem.2 fun t ht => by
        have := emitted_sub ht
        exact hel ⟨t, this⟩
    rw [packCheckpoint, w.select_slot] at hq
    rw [if_neg (fun h => by cases h.2.2), if_pos ⟨hemitted, (fun h => by cases h), hcount⟩] at hq
    cases hq
  · intro hel
    choose part hpart using fun i => w.exists_slotPack hel count i
    refine ⟨fun i => slotDir args source count i (part i), fun i _ => ?_, fun order hperm => ?_⟩
    · rw [packInto, hpart i]
      rfl
    · obtain ⟨files, hfiles, hget⟩ := w.copy_slots paths (fun i _ => hpart i) hperm
      exact ⟨_, w.merge_slots hc (fun i _ => hpart i) hperm hout hfiles,
        w.sameArtifact_slots (by omega) (fun i _ => hpart i) hperm hget⟩

/-! ## A small partition -/

/-- A weight and a norm, packed in two slots. -/
theorem merge_partition_withNorm : ∃ whole : Directory ℚ Unit, packInto (tinyArgs .perTensor) withNorm {} = .ok whole ∧
    ∃ part : ℕ → Directory ℚ Unit,
      (∀ i < 2, packInto ((tinyArgs .perTensor).slot 2 i) withNorm {} = .ok (part i)) ∧
        ∀ order : List ℕ, order.Perm (List.range 2) →
          ∃ merged, mergeOrkaArtifacts (order.map fun i => (toString i, part i)) "merged" {} = .ok merged ∧
            SameArtifact rationalNumerics whole merged := by
  have hsel : select (tinyArgs .perTensor).select withNorm = ⟨withNorm.take 1, withNorm.drop 1, 1⟩ := by decide +kernel
  obtain ⟨whole, hwhole⟩ : ∃ whole, packInto (tinyArgs .perTensor) withNorm {} = .ok whole := by
    rw [packInto, packCheckpoint, hsel]
    exact ⟨_, rfl⟩
  have hout : ∀ i < 2, toString i ≠ "merged" := by decide +kernel
  exact ⟨whole, hwhole, (merge_partition_iff rationalNumerics (tinyArgs .perTensor) withNorm 2 le_rfl rfl rfl rfl
    (by decide +kernel) whole hwhole toString "merged" hout).2 ⟨⟨"layers.0.mlp.weight", [1, 1], ()⟩, List.mem_cons_self,
      by decide +kernel⟩⟩

/-- A norm alone is an artifact, but no slot of it is. -/
theorem not_merge_partition_norm :
    (∃ whole, packInto (tinyArgs .perTensor) (withNorm.drop 1) {} = .ok whole ∧ whole.passthrough = some (withNorm.drop 1)) ∧
      ∀ i, packInto ((tinyArgs .perTensor).slot 2 i) (withNorm.drop 1) {} = .error noCandidates := by
  have hsel : select (tinyArgs .perTensor).select (withNorm.drop 1) = ⟨[], withNorm.drop 1, 0⟩ := by decide +kernel
  constructor
  · rw [packInto, packCheckpoint, hsel]
    exact ⟨_, rfl, rfl⟩
  · intro i
    -- the loop never asks for the slot, as the norm is no candidate
    have hslot : select ((tinyArgs .perTensor).slot 2 i).select (withNorm.drop 1) = ⟨[], withNorm.drop 1, 0⟩ := by
      have hnorm : isQuantCandidate "model.norm.weight" [1] = false := by decide +kernel
      simp [select, selectLoop, withNorm, hnorm]
    rw [packInto, packCheckpoint, hslot]
    rfl

end Orka
