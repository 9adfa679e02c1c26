import Orka.Lemmas.Artifact
import Orka.Lemmas.Prefetch

/-!
# Every tensor of an artifact has files of its own

The paths an entry records are written, belong to one tensor and one stage, and decode to the tensor's own values, exactly if the
names of the packed tensors stay distinct in file names and the pack is not one of one stage with shared codebooks.
-/

namespace Orka

open Steps NamesAux ArtifactAux

/-- Every path an entry records. -/
def TensorMeta.paths (tm : TensorMeta) : List String :=
  tm.indices :: tm.codebook :: (tm.stages.flatMap (fun s => [s.codebook, s.indices]) ++ tm.sidecarPaths)

/-- The paths that are to belong to the tensor alone: the index streams of its stages and its sidecars. -/
def TensorMeta.ownPaths (tm : TensorMeta) : List String := tm.stages.map StageMeta.indices ++ tm.sidecarPaths

variable {α τ : Type}

namespace PathsAux

/-- The files that are the tensor's own. -/
def ownFiles (cfg : PackConfig) (t : PackedTensor α) : List TensorFile :=
  (List.range (stageCount cfg t)).map .indices ++ sideFiles t

/-- An entry names its own files and no other. -/
theorem ownPaths_eq {cfg : PackConfig} {f : Finalized α} (hf : Filed cfg f) :
    f.entry.ownPaths = (ownFiles cfg f.tensor).map (f.tensor.path cfg) := by
  have h : f.entry.stages.map StageMeta.indices = (f.entry.stages.map fun s => (s.codebook, s.indices)).map Prod.snd := by
    rw [List.map_map]
    rfl
  rw [TensorMeta.ownPaths, h, hf.stages, hf.sidecars, ownFiles, List.map_append, List.map_map, List.map_map]
  rfl

/-- Its own files are named as the configuration says. -/
theorem shortened_of_mem_ownFiles {cfg : PackConfig} {t : PackedTensor α} {file : TensorFile} (h : file ∈ ownFiles cfg t) :
    Shortened cfg.short file := by
  rcases List.mem_append.1 h with h | h
  · obtain ⟨i, hi, rfl⟩ := List.mem_map.1 h
    exact shortened_of_lt (List.mem_range.1 hi)
  · exact shortened_of_mem_sideFiles h _

/-- No file is named twice. -/
theorem nodup_ownFiles (cfg : PackConfig) (t : PackedTensor α) : (ownFiles cfg t).Nodup := by
  refine List.Nodup.append (List.Nodup.map (fun i j e => TensorFile.indices.inj e) List.nodup_range) nodup_sideFiles ?_
  intro file h h'
  obtain ⟨i, -, rfl⟩ := List.mem_map.1 h
  exact indices_notMem_sideFiles i h'

/-- Distinct safe names are enough for the paths to be owned, and needed. -/
theorem owned_iff {cfg : PackConfig} {fs : List (Finalized α)} (hfs : ∀ f ∈ fs, Filed cfg f) :
    (fs.flatMap fun f => f.entry.ownPaths).Nodup ↔ (safeNames fs).Nodup := by
  rw [List.nodup_flatMap, safeNames, List.Nodup, List.pairwise_map]
  constructor
  · rintro ⟨-, hd⟩
    refine hd.imp_of_mem fun hf hg hdis e => ?_
    -- both entries record the index stream of stage 0
    have mem : ∀ f : Finalized α, Filed cfg f → f.tensor.path cfg (.indices 0) ∈ f.entry.ownPaths := fun f hf => by
      rw [ownPaths_eq hf]
      exact List.mem_map.2 ⟨_, List.mem_append_left _ (List.mem_map.2 ⟨0, List.mem_range.2 hf.pos, rfl⟩), rfl⟩
    have hpath := mem _ (hfs _ hf)
    rw [PackedTensor.path, e] at hpath
    exact hdis hpath (mem _ (hfs _ hg))
  · intro hn
    refine ⟨fun f hf => ?_, hn.imp_of_mem fun hf hg hne => ?_⟩
    · rw [ownPaths_eq (hfs f hf)]
      refine List.Nodup.map_on (fun a ha b hb e => ?_) (nodup_ownFiles cfg f.tensor)
      exact (tensorPath_inj (shortened_of_mem_ownFiles ha) (shortened_of_mem_ownFiles hb) e).2
    · intro p (hp : p ∈ TensorMeta.ownPaths _) (hp' : p ∈ TensorMeta.ownPaths _)
      rw [ownPaths_eq (hfs _ hf)] at hp
      rw [ownPaths_eq (hfs _ hg)] at hp'
      obtain ⟨a, ha, rfl⟩ := List.mem_map.1 hp
      obtain ⟨b, hb, e⟩ := List.mem_map.1 hp'
      exact hne (tensorPath_inj (shortened_of_mem_ownFiles hb) (shortened_of_mem_ownFiles ha) e).1.symm

/-- What a pack of streamed tensors writes goes to a tensor's file. -/
theorem owner_of_streamed {cfg : PackConfig} {compress : List ℕ → List ℕ} {shared : String → ℕ → File α}
    {fs : List (Finalized α)} (hfs : ∀ f ∈ fs, Filed cfg f) (hm : cfg.mode = .perTensor) {p : String}
    (h : p ∈ (packWrites cfg compress shared fs).map Prod.fst) : ∃ f ∈ fs, Owns cfg f.tensor p := by
  obtain ⟨w, hw, rfl⟩ := List.mem_map.1 h
  simp only [packWrites, hm] at hw
  obtain ⟨f, hf, hw⟩ := List.mem_flatMap.1 hw
  rcases List.mem_append.1 hw with hw | hw
  · exact ⟨f, hf, owns_stageWrites hw⟩
  · exact ⟨f, hf, owns_sidecars (hfs f hf) hw⟩

/-- What a pack with shared codebooks writes goes to a tensor's file or to a shared codebook. -/
theorem owner_of_shared {cfg : PackConfig} {compress : List ℕ → List ℕ} {shared : String → ℕ → File α}
    {fs : List (Finalized α)} (hfs : ∀ f ∈ fs, Filed cfg f) (hm : cfg.mode ≠ .perTensor) {p : String}
    (h : p ∈ (packWrites cfg compress shared fs).map Prod.fst) :
    (∃ f ∈ fs, Owns cfg f.tensor p) ∨ ∃ key stage, p = sharedCodebookPath cfg.nStages key stage := by
  obtain ⟨w, hw, rfl⟩ := List.mem_map.1 h
  have batched : w ∈ ((List.range cfg.nStages).flatMap fun stage =>
        sharedWrites cfg shared (fs.map Finalized.tensor) stage ++ fs.flatMap fun f => indexWrites cfg compress stage f.tensor) ++
          fs.flatMap Finalized.sidecars := by
    rcases hmode : cfg.mode with _ | _ | _
    · exact absurd hmode hm
    · simpa only [packWrites, hmode] using hw
    · simpa only [packWrites, hmode] using hw
  rcases List.mem_append.1 batched with hw | hw
  · obtain ⟨stage, -, hw⟩ := List.mem_flatMap.1 hw
    rcases List.mem_append.1 hw with hw | hw
    · obtain ⟨key, -, rfl⟩ := List.mem_map.1 hw
      exact Or.inr ⟨key, stage, rfl⟩
    · obtain ⟨f, hf, hw⟩ := List.mem_flatMap.1 hw
      exact Or.inl ⟨f, hf, owns_indexWrites hw⟩
  · obtain ⟨f, hf, hw⟩ := List.mem_flatMap.1 hw
    exact Or.inl ⟨f, hf, owns_sidecars (hfs f hf) hw⟩

/-- The short name of an index stream is no long name of a tensor with a safe name as long. -/
theorem short_indices_ne_long {safe safe' : String} {file : TensorFile}
    (h : tensorPath true safe (.indices 0) = tensorPath false safe' file) : safe'.length < safe.length := by
  have h8 : (".indices" : String).length = 8 := by decide
  have hs : safe ++ ".indices" = safe' ++ file.suffix false := (String.append_right_inj _).1 h
  have hl := congrArg String.length hs
  rw [String.length_append, String.length_append] at hl
  have hfile : 8 < (file.suffix false).length := by
    cases file with
    | codebook i =>
      have : (".codebook.f32" : String).length = 13 := by decide
      simp only [TensorFile.suffix, Bool.false_eq_true, if_false, String.length_append]
      omega
    | indices i =>
      have : (".s" : String).length = 2 := by decide
      simp only [TensorFile.suffix, Bool.false_eq_true, if_false, String.length_append]
      omega
    | _ => decide
  omega

/-- A pack of one stage with shared codebooks records an index file that it does not write. -/
theorem not_written_of_shared {cfg : PackConfig} (compress : List ℕ → List ℕ) (shared : String → ℕ → File α)
    {fs : List (Finalized α)} (hfs : ∀ f ∈ fs, Filed cfg f) (hm : cfg.mode ≠ .perTensor) (hn : cfg.nStages = 1)
    (h : ∀ f ∈ fs, f.entry.indices ∈ (packWrites cfg compress shared fs).map Prod.fst) : fs = [] := by
  have hshort : cfg.short = false := by simp [PackConfig.short, hm]
  -- the file would have to be one of a tensor with a shorter name, and so on
  have descent : ∀ n, ∀ f ∈ fs, (safeTensorName f.tensor.name).length = n → False := by
    intro n
    induction n using Nat.strong_induction_on with
    | _ n ih =>
      intro f hf hlen
      have hw := h f hf
      rw [(hfs f hf).indices, decide_eq_true hn] at hw
      rcases owner_of_shared hfs hm hw with ⟨g, hg, file, -, he⟩ | ⟨key, stage, he⟩
      · rw [PackedTensor.path, hshort] at he
        exact ih _ (hlen ▸ short_indices_ne_long he) g hg rfl
      · exact tensorPath_ne_shared _ _ _ _ _ _ he
  cases fs with
  | nil => rfl
  | cons f fs => exact (descent _ f List.mem_cons_self rfl).elim

/-- A filed entry resolves to its own stages. -/
theorem resolveStages_eq {cfg : PackConfig} {f : Finalized α} (hf : Filed cfg f) : resolveStages f.entry = f.entry.stages := by
  rw [resolveStages, if_neg]
  intro he
  have := congrArg List.length hf.stages
  rw [List.isEmpty_iff.1 he] at this
  simp only [List.length_map, List.length_nil, List.length_range] at this
  exact hf.pos.ne this

/-- A path the decoder opens: the codebook or the index stream of a stage, or a sidecar. -/
theorem reads_cases {cfg : PackConfig} {f : Finalized α} (hf : Filed cfg f) {p : String} (hp : p ∈ f.entry.reads) :
    (∃ i < stageCount cfg f.tensor, p = f.tensor.codebookPath cfg i) ∨
      (∃ i < stageCount cfg f.tensor, p = f.tensor.path cfg (.indices i)) ∨
        ∃ file ∈ sideFiles f.tensor, p = f.tensor.path cfg file := by
  rcases List.mem_append.1 hp with hp | hp
  · rw [resolveStages_eq hf] at hp
    obtain ⟨s, hs, hp⟩ := List.mem_flatMap.1 hp
    have hmem := List.mem_map_of_mem (f := fun s : StageMeta => (s.codebook, s.indices)) hs
    rw [hf.stages] at hmem
    obtain ⟨i, hlt, he⟩ := List.mem_map.1 hmem
    obtain ⟨hcb, hidx⟩ := Prod.mk.inj he
    simp only [List.mem_cons, List.not_mem_nil, or_false] at hp
    rcases hp with rfl | rfl
    · exact Or.inl ⟨i, List.mem_range.1 hlt, hcb.symm⟩
    · exact Or.inr (Or.inl ⟨i, List.mem_range.1 hlt, hidx.symm⟩)
  · rw [hf.sidecars] at hp
    obtain ⟨file, hfile, rfl⟩ := List.mem_map.1 hp
    exact Or.inr (Or.inr ⟨file, hfile, rfl⟩)

/-- What the decoder opens has been written. -/
theorem reads_written {cfg : PackConfig} (compress : List ℕ → List ℕ) (shared : String → ℕ → File α)
    {fs : List (Finalized α)} (hfs : ∀ f ∈ fs, Filed cfg f) {f : Finalized α} (hf : f ∈ fs) :
    ∀ p ∈ f.entry.reads, p ∈ (packWrites cfg compress shared fs).map Prod.fst := by
  obtain ⟨hi, hc, hs⟩ := mem_packWrites compress shared hf
  intro p hp
  rcases reads_cases (hfs f hf) hp with ⟨i, hlt, rfl⟩ | ⟨i, hlt, rfl⟩ | ⟨file, hfile, rfl⟩
  · exact hc i hlt
  · exact hi i hlt
  · have hmem := List.mem_map_of_mem (f := f.tensor.path cfg) hfile
    rw [← (hfs f hf).writes] at hmem
    obtain ⟨w, hw, he⟩ := List.mem_map.1 hmem
    rw [← he]
    exact List.mem_map_of_mem (hs w hw)

/-- Every path an entry records is written, but for the index file of a pack of one stage with shared codebooks. -/
theorem written_of_not_shared {cfg : PackConfig} {compress : List ℕ → List ℕ} {shared : String → ℕ → File α}
    {fs : List (Finalized α)} (hfs : ∀ f ∈ fs, Filed cfg f) (hm : ¬ (cfg.mode ≠ .perTensor ∧ cfg.nStages = 1)) {f : Finalized α}
    (hf : f ∈ fs) : ∀ p ∈ f.entry.paths, p ∈ (packWrites cfg compress shared fs).map Prod.fst := by
  obtain ⟨hi, hc, -⟩ := mem_packWrites compress shared hf
  have hfiled := hfs f hf
  intro p hp
  simp only [TensorMeta.paths, List.mem_cons] at hp
  rcases hp with rfl | rfl | hp
  · have hshort : cfg.short = decide (cfg.nStages = 1) := by
      by_cases h1 : cfg.nStages = 1
      · have : cfg.mode = .perTensor := by
          by_contra hne
          exact hm ⟨hne, h1⟩
        simp [PackConfig.short, this]
      · simp [PackConfig.short, h1]
    rw [hfiled.indices, ← hshort]
    exact hi 0 hfiled.pos
  · rw [hfiled.codebook]
    exact hc 0 hfiled.pos
  · rw [← resolveStages_eq hfiled] at hp
    exact reads_written _ _ hfs hf p hp

/-- What the decoder opens is the tensor's own, or a shared codebook. -/
theorem get_reads_own {cfg : PackConfig} (compress : List ℕ → List ℕ) (shared : String → ℕ → File α)
    {fs : List (Finalized α)} (hfs : ∀ f ∈ fs, Filed cfg f) (hn : (safeNames fs).Nodup) {f : Finalized α} (hf : f ∈ fs) :
    ∀ p ∈ f.entry.reads,
      Journal.get (packWrites cfg compress shared fs) p = Journal.get (packWrites cfg compress shared [f]) p := by
  have halone : ∀ g ∈ [f], Filed cfg g := by simpa using hfs f hf
  intro p hp
  rcases reads_cases (hfs f hf) hp with ⟨i, hlt, rfl⟩ | ⟨i, hlt, rfl⟩ | ⟨file, hfile, rfl⟩
  · by_cases hm : cfg.mode = .perTensor
    · simp only [PackedTensor.codebookPath, hm]
      exact get_packWrites_own hfs hn hf (shortened_of_stageFile ⟨i, hlt, Or.inr ⟨hm, rfl⟩⟩)
    · rw [get_packWrites_shared hfs hf hm hlt, get_packWrites_shared halone List.mem_cons_self hm hlt]
  · exact get_packWrites_own hfs hn hf (shortened_of_lt hlt)
  · exact get_packWrites_own hfs hn hf (shortened_of_mem_sideFiles hfile _)

end PathsAux

section Separate

variable [Field α] [LinearOrder α] [FloorRing α]

/-- The files of a pack are kept apart: every recorded path is written by the pack, no index stream and no sidecar is recorded
twice, and every entry decodes as from the files of its tensor alone. -/
structure Separate (num : Numerics α) (args : PackArgs α τ) (source : List (SourceTensor τ))
    (packed : Packed τ (Finalized α)) : Prop where
  written : ∀ e ∈ packed.tensors, ∀ p ∈ e.2.entry.paths, p ∈ (packFiles args source packed).map Prod.fst
  owned : (packed.tensors.flatMap fun e => e.2.entry.ownPaths).Nodup
  decoded : ∀ e ∈ packed.tensors, decodeTensor num (Journal.get (packFiles args source packed)) e.2.entry =
    decodeTensor num (Journal.get (packFiles args source ⟨[e], []⟩)) e.2.entry

namespace PathsAux

variable {args : PackArgs α τ} {source : List (SourceTensor τ)} {packed : Packed τ (Finalized α)}

variable (args) in
/-- What is in the manifest was finalized. -/
theorem filed_of_packCheckpoint (h : packCheckpoint args.header.codebookMode args.select args.finish source = .ok packed) :
    ∀ e ∈ packed.tensors, Filed args.config e.2 ∧ e.2.tensor.name = e.1 := by
  have tensors : ∀ (cs l : List (SourceTensor τ)) (entries : List (String × Finalized α)),
      (l.mapM fun t => (args.finish cs t).map fun e => (t.name, e)) = .ok entries →
        ∀ e ∈ entries, Filed args.config e.2 ∧ e.2.tensor.name = e.1 := by
    intro cs l
    induction l with
    | nil =>
      intro entries h e he
      obtain rfl := Except.ok.inj h
      cases he
    | cons t l ih =>
      intro entries h
      rw [mapM_cons_eq] at h
      obtain ⟨v, hv, h⟩ := bind_eq_ok.1 h
      obtain ⟨vs, hvs, rfl⟩ := map_eq_ok.1 h
      obtain ⟨f, hf, rfl⟩ := map_eq_ok.1 hv
      obtain ⟨p, hp, hf⟩ := bind_eq_ok.1 hf
      obtain ⟨hfiled, rfl⟩ := filed_of_finalize hf
      rintro e (_ | ⟨_, he⟩)
      · exact ⟨hfiled, args.named _ _ _ hp⟩
      · exact ih vs hvs e he
  unfold packCheckpoint at h
  simp only at h
  split at h
  · cases h
  · split at h
    · cases h
    · obtain ⟨entries, he, rfl⟩ := map_eq_ok.1 h
      exact tensors _ _ _ he

variable (args) in
/-- The safe names of the entries are those of the tensors taken. -/
theorem safeNames_eq (h : packCheckpoint args.header.codebookMode args.select args.finish source = .ok packed) :
    safeNames (packed.tensors.map Prod.snd) = (select args.select source).emitted.map fun t => safeTensorName t.name := by
  have hnames := (PrefetchAux.packCheckpoint_eq_ok h).1
  have e : (select args.select source).emitted.map (fun t => safeTensorName t.name) =
      ((select args.select source).emitted.map SourceTensor.name).map safeTensorName := by
    rw [List.map_map]
    rfl
  rw [e, ← hnames, safeNames, List.map_map, List.map_map]
  refine List.map_congr_left fun e he => ?_
  rw [Function.comp_apply, Function.comp_apply, (filed_of_packCheckpoint _ h e he).2]

end PathsAux

open PathsAux

/-- **When the files of a pack are kept apart.** Exactly if no two of the tensors it takes have one safe name, and it is no pack
of one stage with shared codebooks that takes a tensor. -/
theorem packCheckpoint_separate_iff (num : Numerics α) (args : PackArgs α τ) (source : List (SourceTensor τ))
    (packed : Packed τ (Finalized α))
    (h : packCheckpoint args.header.codebookMode args.select args.finish source = .ok packed) :
    Separate num args source packed ↔
      ((select args.select source).emitted.map fun t => safeTensorName t.name).Nodup ∧
        (args.header.codebookMode ≠ .perTensor → args.header.nStages = 1 → (select args.select source).emitted = []) := by
  have hfs : ∀ f ∈ packed.tensors.map Prod.snd, Filed args.config f := by
    intro f hf
    obtain ⟨e, he, rfl⟩ := List.mem_map.1 hf
    exact (filed_of_packCheckpoint _ h e he).1
  have hnil : (select args.select source).emitted = [] ↔ packed.tensors.map Prod.snd = [] := by
    have hnames := (PrefetchAux.packCheckpoint_eq_ok h).1
    rw [List.map_eq_nil_iff, ← List.map_eq_nil_iff (f := SourceTensor.name), ← hnames, List.map_eq_nil_iff]
  rw [← safeNames_eq _ h, hnil]
  constructor
  · intro hsep
    refine ⟨(owned_iff hfs).1 (by simpa only [List.flatMap_map] using hsep.owned), fun hm hn => ?_⟩
    refine not_written_of_shared args.compress (args.shared (select args.select source).emitted)
      hfs hm hn fun f hf => ?_
    obtain ⟨e, he, rfl⟩ := List.mem_map.1 hf
    exact hsep.written e he _ List.mem_cons_self
  · rintro ⟨hn, hshared⟩
    refine ⟨fun e he => ?_, by simpa only [List.flatMap_map] using (owned_iff hfs).2 hn, fun e he => ?_⟩
    · refine written_of_not_shared hfs (fun ⟨hm, h1⟩ => ?_) (List.mem_map_of_mem he)
      have := List.mem_map_of_mem (f := Prod.snd) he
      rw [hshared hm h1] at this
      cases this
    · exact decodeTensor_congr num (get_reads_own _ _ hfs hn (List.mem_map_of_mem he))

end Separate

/-! ## Small packs -/

open PathsAux

/-- A tensor of one value, quantized in one stage. -/
def tinyTensor (name : String) : PackedTensor ℚ :=
  { name := name, shape := [1, 1], sourceFlat := [0], packedValues := 1, paddedValues := 1, vectors := [[0]],
    rowScales := none, awqColScales := none, salientWeights := none, salientIndices := none, normalization := .none,
    blockScaleSize := none, rotationSeed := none, rotation := .none, groupSize := 1, family := "other",
    stages := [⟨.floats .float32 [0], 1, .float32, 8, [0], 1⟩], refinement := .none, outliers := [] }

/-- The arguments of a pack of such tensors in one stage. -/
def tinyArgs (mode : CodebookMode) : PackArgs ℚ Unit where
  select := {}
  header := ⟨"orka", 3, "model.json", 1, "numpy", .none, .none, 0, mode, 1, some [1], none⟩
  blockScaleSize := 32
  compress raw := raw
  quantize _ t := .ok (tinyTensor t.name)
  shared _ _ _ := .floats .float32 [0]
  streamed _ _ _ _ := rfl
  named := by
    rintro - t p h
    cases h
    rfl

/-- Two weights whose names differ in one character that no file name has. -/
def twoNames : List (SourceTensor Unit) := [⟨"a b.weight", [1, 1], ()⟩, ⟨"a_b.weight", [1, 1], ()⟩]

/-- Two weights whose safe names are one, and a weight packed with a shared codebook: the files are not kept apart. -/
theorem not_separate_twoNames :
    (∃ packed, packCheckpoint .perTensor (tinyArgs .perTensor).select (tinyArgs .perTensor).finish twoNames = .ok packed ∧
      ¬ Separate rationalNumerics (tinyArgs .perTensor) twoNames packed) ∧
    ∃ packed, packCheckpoint .global (tinyArgs .global).select (tinyArgs .global).finish (twoNames.take 1) = .ok packed ∧
      ¬ Separate rationalNumerics (tinyArgs .global) (twoNames.take 1) packed := by
  have filed : ∀ {mode source packed},
      packCheckpoint mode (tinyArgs mode).select (tinyArgs mode).finish source = .ok packed →
        ∀ f ∈ packed.tensors.map Prod.snd, Filed (tinyArgs mode).config f := by
    intro mode source packed h f hf
    obtain ⟨e, he, rfl⟩ := List.mem_map.1 hf
    exact (filed_of_packCheckpoint (tinyArgs mode) h e he).1
  have hsel : select {} twoNames = ⟨twoNames, [], 2⟩ := by decide +kernel
  have hsel' : select {} (twoNames.take 1) = ⟨twoNames.take 1, [], 1⟩ := by decide +kernel
  constructor
  · obtain ⟨packed, h⟩ : ∃ packed, packCheckpoint .perTensor (tinyArgs .perTensor).select (tinyArgs .perTensor).finish twoNames =
        .ok packed := by
      rw [packCheckpoint, show select (tinyArgs .perTensor).select twoNames = _ from hsel]
      exact ⟨_, rfl⟩
    refine ⟨packed, h, fun hsep => ?_⟩
    have hn := (owned_iff (filed h)).1 (by simpa only [List.flatMap_map] using hsep.owned)
    rw [safeNames_eq (tinyArgs .perTensor) h, show select (tinyArgs .perTensor).select twoNames = _ from hsel] at hn
    exact absurd hn (by decide +kernel)
  · obtain ⟨packed, h⟩ : ∃ packed, packCheckpoint .global (tinyArgs .global).select (tinyArgs .global).finish (twoNames.take 1) =
        .ok packed := by
      rw [packCheckpoint, show select (tinyArgs .global).select (twoNames.take 1) = _ from hsel']
      exact ⟨_, rfl⟩
    refine ⟨packed, h, fun hsep => ?_⟩
    have hnil := not_written_of_shared (tinyArgs .global).compress
      ((tinyArgs .global).shared (select (tinyArgs .global).select (twoNames.take 1)).emitted) (filed h)
      (by decide) rfl fun f hf => by
        obtain ⟨e, he, rfl⟩ := List.mem_map.1 hf
        exact hsep.written e he _ List.mem_cons_self
    have hnames := (PrefetchAux.packCheckpoint_eq_ok h).1
    rw [List.map_eq_nil_iff.1 hnil, show select (tinyArgs .global).select (twoNames.take 1) = _ from hsel'] at hnames
    cases hnames

/-- Two weights whose safe names differ. -/
def apartNames : List (SourceTensor Unit) := [⟨"a.weight", [1, 1], ()⟩, ⟨"b.weight", [1, 1], ()⟩]

/-- Their files are kept apart. -/
theorem separate_apartNames :
    ∃ packed, packCheckpoint .perTensor (tinyArgs .perTensor).select (tinyArgs .perTensor).finish apartNames = .ok packed ∧
      Separate rationalNumerics (tinyArgs .perTensor) apartNames packed := by
  have hsel : select {} apartNames = ⟨apartNames, [], 2⟩ := by decide +kernel
  obtain ⟨packed, h⟩ : ∃ packed, packCheckpoint .perTensor (tinyArgs .perTensor).select (tinyArgs .perTensor).finish
      apartNames = .ok packed := by
    rw [packCheckpoint, show select (tinyArgs .perTensor).select apartNames = _ from hsel]
    exact ⟨_, rfl⟩
  refine ⟨packed, h, (packCheckpoint_separate_iff rationalNumerics (tinyArgs .perTensor) apartNames packed h).2 ?_⟩
  rw [show select (tinyArgs .perTensor).select apartNames = _ from hsel]
  exact ⟨by decide +kernel, fun hm => absurd rfl hm⟩

end Orka
