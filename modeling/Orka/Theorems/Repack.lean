import Orka.PackCache
import Orka.Reconstruct
import Orka.Theorems.Paths

/-!
# Packing twice into one directory

What a first pack left in the output directory shows in the reconstruction of the second exactly if the second writes no
passthrough file and the first left one with a tensor that the second neither packs nor finds unchanged in its source. That is where
the second takes from the directory no codebook but those it would learn itself: with its codebook cache in the output directory it
may find others under its keys.
-/

namespace Orka

open Steps ArtifactAux PathsAux

variable {α τ : Type}

namespace RepackAux

/-- The first tensor of a source under a name. -/
def sourceTensor (source : List (SourceTensor τ)) (name : String) : Option (SourceTensor τ) :=
  source.find? fun t => t.name = name

/-- The tensor a passthrough file holds under a name. -/
def passthroughTensor (passthrough : List (SourceTensor τ)) (name : String) : Option (SourceTensor τ) :=
  Journal.get (passthrough.map fun t => (t.name, t)) name

/-- The origin by name is that of the tensor found under it. -/
theorem get_byName (origin : SourceTensor τ → Origin τ) (ts : List (SourceTensor τ)) (name : String) :
    Journal.get (byName origin ts) name = (passthroughTensor ts name).map origin := by
  have := Journal.get_map origin (ts.map fun t => (t.name, t)) name
  rw [List.map_map] at this
  exact this

/-- A name that is not packed falls back to the source. -/
theorem get_addFallback {packedNames : List String} {name : String} (hname : name ∉ packedNames)
    (source : List (SourceTensor τ)) (registry : List (String × Origin τ)) :
    Journal.get (addFallback packedNames source registry) name =
      (Journal.get registry name).or ((sourceTensor source name).map .sourceFallback) := by
  induction source generalizing registry with
  | nil => simp [addFallback, sourceTensor]
  | cons t source ih =>
    rw [addFallback]
    by_cases ht : t.name = name
    · have hfind : sourceTensor (t :: source) name = some t := by simp [sourceTensor, ht]
      have hp : t.name ∉ packedNames := ht ▸ hname
      by_cases hr : t.name ∈ registry.map Prod.fst
      · have hsome : Journal.get registry name ≠ none := fun h => Journal.get_eq_none.1 h (ht ▸ hr)
        obtain ⟨o, ho⟩ := Option.ne_none_iff_exists'.1 hsome
        rw [if_pos (Or.inr hr), ih, ho]
        rfl
      · have hnone : Journal.get registry name = none := Journal.get_eq_none.2 (ht ▸ hr)
        rw [if_neg (by simp [hp, hr]), ih, Journal.get_append, hnone, hfind]
        simp [Journal.get, ht]
    · have hfind : sourceTensor (t :: source) name = sourceTensor source name := by simp [sourceTensor, ht]
      rw [hfind]
      split
      · exact ih registry
      · rw [ih, Journal.get_append]
        simp [Journal.get, ht]

/-- Under which names there is something: packed, passed through or in the source. -/
theorem get_registryOf {sources : String → Option (List (SourceTensor τ))} {passthrough : Option (List (SourceTensor τ))}
    {manifest : PackManifest} {name : String} (hname : name ∉ manifest.tensors.map TensorMeta.name) :
    Journal.get (registryOf sources passthrough manifest) name =
      ((passthroughTensor (passthrough.getD []) name).map .passthrough).or
        ((sourceTensor ((sources manifest.header.source).getD []) name).map .sourceFallback) := by
  have hq : Journal.get (manifest.tensors.map fun tm => (tm.name, Origin.quantized (τ := τ) tm)) name = none := by
    rw [Journal.get_eq_none, List.map_map]
    exact hname
  rw [registryOf, Journal.get_append, hq, Option.none_or, get_addFallback hname, get_byName]

/-- A packed tensor's registration is its entry, whatever passes through. -/
theorem get_registryOf_packed (sources : String → Option (List (SourceTensor τ))) {manifest : PackManifest} {name : String}
    (hname : name ∈ manifest.tensors.map TensorMeta.name) :
    ∃ tm ∈ manifest.tensors, ∀ passthrough,
      Journal.get (registryOf sources passthrough manifest) name = some (.quantized tm) := by
  have hq : Journal.get (manifest.tensors.map fun tm => (tm.name, Origin.quantized (τ := τ) tm)) name ≠ none := by
    rw [Ne, Journal.get_eq_none, List.map_map, not_not]
    exact hname
  obtain ⟨o, ho⟩ := Option.ne_none_iff_exists'.1 hq
  obtain ⟨tm, htm, he⟩ := List.mem_map.1 (Journal.mem_of_get ho)
  refine ⟨tm, htm, fun passthrough => ?_⟩
  rw [registryOf, Journal.get_append, ho, ← (Prod.mk.inj he).2]
  rfl

/-- Registries with the same names list them alike. -/
theorem sortedNames_congr {r r' : List (String × Origin τ)}
    (h : ∀ name, Journal.get r name = none ↔ Journal.get r' name = none) : sortedNames r = sortedNames r' := by
  have hp : (Journal.keys r).Perm (Journal.keys r') := by
    refine (List.perm_ext_iff_of_nodup (Journal.nodup_keys r) (Journal.nodup_keys r')).2 fun name => ?_
    rw [Journal.mem_keys, Journal.mem_keys, Ne, Ne, h]
  exact (((List.perm_insertionSort _ _).trans hp).trans (List.perm_insertionSort _ _).symm).eq_of_sortedLE
    List.sortedLE_insertionSort List.sortedLE_insertionSort

end RepackAux

open RepackAux

variable [Field α] (num : Numerics α) (flat : τ → List α) (sources : String → Option (List (SourceTensor τ)))

/-! ## What stands under a name -/

/-- What is left of an earlier pack shows nowhere: each of its passthrough tensors is packed again, or the source has it still. -/
def Superseded (packedNames : List String) (source leftover : List (SourceTensor τ)) : Prop :=
  ∀ name t, passthroughTensor leftover name = some t → name ∉ packedNames →
    ∃ s, sourceTensor source name = some s ∧ s.shape = t.shape ∧ flat s.value = flat t.value

/-- What a reconstruction writes under a name. -/
def registered (dir : Directory α τ) (manifest : PackManifest) (name : String) : Option (Except PyErr (List ℕ × List α)) :=
  (Journal.get (registryOf sources dir.passthrough manifest) name).map (originValues num flat dir.store)

/-- The shape and the values of a tensor that is not packed. -/
def sourceValues (t : SourceTensor τ) : Except PyErr (List ℕ × List α) := .ok (t.shape, flat t.value)

section Registered

variable {num flat sources} {dir dir' : Directory α τ}

/-- Two directories of one manifest that hold the same under every name reconstruct alike. -/
theorem writeCompleteSafetensors_congr {manifest : PackManifest}
    (h : ∀ name, registered num flat sources dir manifest name = registered num flat sources dir' manifest name) :
    writeCompleteSafetensors num flat sources dir manifest = writeCompleteSafetensors num flat sources dir' manifest := by
  have hnone : ∀ name, Journal.get (registryOf sources dir.passthrough manifest) name = none ↔
      Journal.get (registryOf sources dir'.passthrough manifest) name = none := by
    intro name
    rw [← Option.map_eq_none_iff (f := originValues num flat dir.store), ← Option.map_eq_none_iff (f := originValues num flat dir'.store)]
    exact iff_of_eq (congrArg (· = none) (h name))
  simp only [writeCompleteSafetensors]
  rw [sortedNames_congr hnone]
  refine mapM_congr fun name _ => ?_
  have hname := h name
  simp only [registered] at hname
  cases ho : Journal.get (registryOf sources dir.passthrough manifest) name with
  | none => rw [(hnone name).1 ho]
  | some o =>
    obtain ⟨o', ho'⟩ := Option.ne_none_iff_exists'.1 fun h => by cases ho.symm.trans ((hnone name).2 h)
    rw [ho, ho'] at hname
    rw [ho']
    simp only [Option.some.inj hname]

/-- A tensor written has the values of its name's origin. -/
theorem mem_writeCompleteSafetensors {manifest : PackManifest} {out : List (String × List ℕ × List α)}
    (h : writeCompleteSafetensors num flat sources dir manifest = .ok out) {name : String} {values : List ℕ × List α} :
    (name, values) ∈ out ↔ registered num flat sources dir manifest name = some (.ok values) := by
  rw [mem_of_mapM_eq_ok h, registered, Option.map_eq_some_iff]
  constructor
  · rintro ⟨name', -, he⟩
    cases ho : Journal.get (registryOf sources dir.passthrough manifest) name' with
    | none =>
      rw [ho] at he
      cases he
    | some o =>
      rw [ho] at he
      obtain ⟨v, hv, he⟩ := map_eq_ok.1 he
      obtain ⟨rfl, rfl⟩ := Prod.mk.inj he
      exact ⟨o, ho, hv⟩
  · rintro ⟨o, ho, hv⟩
    refine ⟨name, mem_sortedNames.2 (by simp [ho]), ?_⟩
    rw [ho]
    simp only [hv, ok_map]

/-- A name that is not packed is looked up among the passthrough tensors, then in the source. -/
theorem registered_of_not_packed {manifest : PackManifest} {name : String}
    (hname : name ∉ manifest.tensors.map TensorMeta.name) :
    registered num flat sources dir manifest name = ((passthroughTensor (dir.passthrough.getD []) name).or
      (sourceTensor ((sources manifest.header.source).getD []) name)).map (sourceValues flat) := by
  rw [registered, get_registryOf hname]
  cases passthroughTensor (dir.passthrough.getD []) name with
  | some t => rfl
  | none => cases sourceTensor ((sources manifest.header.source).getD []) name <;> rfl

/-- A packed name stands for its entry, whatever passes through. -/
theorem registered_of_packed {manifest : PackManifest} {name : String} (hname : name ∈ manifest.tensors.map TensorMeta.name)
    (hdecode : ∀ tm ∈ manifest.tensors, decodeTensor num dir.store tm = decodeTensor num dir'.store tm) :
    registered num flat sources dir manifest name = registered num flat sources dir' manifest name := by
  obtain ⟨tm, htm, hreg⟩ := get_registryOf_packed sources hname
  rw [registered, registered, hreg, hreg, Option.map_some, Option.map_some, originValues, originValues, hdecode tm htm]

/-- A reconstruction that returns met no truncated tensor. -/
theorem truncatedTensors_of_ok {manifest : PackManifest} (hm : dir.manifest = some manifest)
    {out : List (String × List ℕ × List α)} (h : reconstructArtifact num flat sources .safetensors dir = .ok out) :
    truncatedTensors manifest = [] := by
  simp only [reconstructArtifact, hm] at h
  split at h
  · next e => exact e
  · cases h

end Registered

/-! ## The codebook cache -/

/-- The codebooks a pack finds in its output directory are those it would learn. -/
def FindsItsOwn {α : Type} (p : CachingArgs α τ) (source : List (SourceTensor τ)) (cache : CodebookCache α) : Prop :=
  match p.cacheDir with
  | .absent | .outside _ => True
  | .inside => ∀ s ∈ p.firstCodebooks source, Journal.get cache (codebookCacheKey p.digest s.parts) = none ∨
      Journal.get cache (codebookCacheKey p.digest s.parts) = some s.learned

/-- Two caches give the same codebooks if they agree on every key, but for codebooks in the one that the other learns. -/
theorem takeCodebooks_congr {α : Type} (digest : String → String) (ss : List (FirstCodebook α)) (held fresh : CodebookCache α)
    (h : ∀ s ∈ ss, Journal.get held (codebookCacheKey digest s.parts) = Journal.get fresh (codebookCacheKey digest s.parts) ∨
      Journal.get held (codebookCacheKey digest s.parts) = some s.learned ∧
        Journal.get fresh (codebookCacheKey digest s.parts) = none) :
    (takeCodebooks digest ss held).1 = (takeCodebooks digest ss fresh).1 := by
  induction ss generalizing held fresh with
  | nil => rfl
  | cons s ss ih =>
    have hsaved : ∀ cache : CodebookCache α, ∀ key, Journal.get (cache ++ [(codebookCacheKey digest s.parts, s.learned)]) key =
        if codebookCacheKey digest s.parts = key then some s.learned else Journal.get cache key := by
      intro cache key
      rw [Journal.get_append, Journal.get_cons]
      by_cases hkey : codebookCacheKey digest s.parts = key <;> simp [hkey]
    have htail := fun s' (hs' : s' ∈ ss) => h s' (List.mem_cons_of_mem _ hs')
    obtain heq | ⟨hheld, hfresh⟩ := h s List.mem_cons_self
    · cases hget : Journal.get fresh (codebookCacheKey digest s.parts) with
      | some cb =>
        simp only [takeCodebooks, heq, hget]
        rw [ih held fresh htail]
      | none =>
        simp only [takeCodebooks, heq, hget]
        rw [ih _ _ fun s' hs' => ?_]
        rw [hsaved, hsaved]
        by_cases hkey : codebookCacheKey digest s.parts = codebookCacheKey digest s'.parts
        · rw [if_pos hkey, if_pos hkey]
          exact .inl rfl
        · rw [if_neg hkey, if_neg hkey]
          exact htail s' hs'
    · simp only [takeCodebooks, hheld, hfresh]
      rw [ih _ _ fun s' hs' => ?_]
      rw [hsaved]
      by_cases hkey : codebookCacheKey digest s.parts = codebookCacheKey digest s'.parts
      · rw [if_pos hkey, ← hkey, hheld]
        exact .inl rfl
      · rw [if_neg hkey]
        exact htail s' hs'

/-- A pack that finds its own codebooks goes on from those it learns in an empty directory. -/
theorem codebooks_eq {α : Type} {p : CachingArgs α τ} {source : List (SourceTensor τ)} {cache : CodebookCache α}
    (h : FindsItsOwn p source cache) :
    (p.codebooks source cache).1 = (p.codebooks source []).1 := by
  unfold FindsItsOwn at h
  unfold CachingArgs.codebooks
  cases hdir : p.cacheDir with
  | absent => rfl
  | outside held => rfl
  | inside =>
    rw [hdir] at h
    exact takeCodebooks_congr p.digest _ cache [] fun s hs => (h s hs).imp_right fun hget => ⟨hget, rfl⟩

/-! ## Two packs -/

section Repack

variable [LinearOrder α] [FloorRing α] {num} {args : PackArgs α τ} {source : List (SourceTensor τ)} {dir dir' fresh : Directory α τ}

/-- What a pack leaves in a directory, beside what it leaves in an empty one. -/
theorem packInto_eq_ok (h : packInto args source dir = .ok dir') :
    ∃ packed, packCheckpoint args.header.codebookMode args.select args.finish source = .ok packed ∧
      dir' = ⟨dir.files ++ packFiles args source packed,
        if packed.passthrough = [] then dir.passthrough else some packed.passthrough,
        some ⟨args.header, args.select.partition, packed.tensors.map fun e => e.2.entry⟩⟩ := by
  obtain ⟨packed, hp, rfl⟩ := map_eq_ok.1 h
  exact ⟨packed, hp, rfl⟩

variable (num) in
/-- An entry decodes as if the directory had been empty. -/
theorem decodeTensor_repack {packed : Packed τ (Finalized α)}
    (h : packCheckpoint args.header.codebookMode args.select args.finish source = .ok packed)
    (old : List (String × File α)) {tm : TensorMeta} (htm : tm ∈ packed.tensors.map fun e => e.2.entry) :
    decodeTensor num (Journal.get (old ++ packFiles args source packed)) tm =
      decodeTensor num (Journal.get ([] ++ packFiles args source packed)) tm := by
  obtain ⟨e, he, rfl⟩ := List.mem_map.1 htm
  have hfs : ∀ f ∈ packed.tensors.map Prod.snd, Filed args.config f := by
    intro f hf
    obtain ⟨e, he, rfl⟩ := List.mem_map.1 hf
    exact (filed_of_packCheckpoint _ h e he).1
  refine decodeTensor_congr num fun p hp => ?_
  have hw := reads_written args.compress (args.shared (select args.select source).emitted) hfs
    (List.mem_map_of_mem he) p hp
  obtain ⟨v, hv⟩ := Option.ne_none_iff_exists'.1 (mt Journal.get_eq_none.1 (not_not.2 hw))
  have hv : Journal.get (packFiles args source packed) p = some v := hv
  rw [Journal.get_append, Journal.get_append, hv]
  rfl

/-- The names a manifest lists are those of the tensors taken. -/
theorem names_manifest {packed : Packed τ (Finalized α)}
    (h : packCheckpoint args.header.codebookMode args.select args.finish source = .ok packed) :
    (packed.tensors.map fun e => e.2.entry).map TensorMeta.name = (select args.select source).emitted.map SourceTensor.name := by
  rw [← (PrefetchAux.packCheckpoint_eq_ok h).1, List.map_map]
  refine List.map_congr_left fun e he => ?_
  obtain ⟨hf, hn⟩ := filed_of_packCheckpoint _ h e he
  rw [Function.comp_apply, hf.name, hn]

/-- What a second pack makes of the directory beside what it makes of an empty one, with the same codebooks. -/
theorem reconstruct_packInto_iff (num : Numerics α) (flat : τ → List α) (sources : String → Option (List (SourceTensor τ)))
    (args : PackArgs α τ) (source : List (SourceTensor τ)) (dir dir' fresh : Directory α τ)
    (h : packInto args source dir = .ok dir') (hfresh : packInto args source {} = .ok fresh)
    (out : List (String × List ℕ × List α)) (hout : reconstructArtifact num flat sources .safetensors fresh = .ok out) :
    (∀ outputFormat, reconstructArtifact num flat sources outputFormat dir' =
        reconstructArtifact num flat sources outputFormat fresh) ↔
      (select args.select source).passthrough ≠ [] ∨
        Superseded flat ((select args.select source).emitted.map SourceTensor.name) ((sources args.header.source).getD [])
          (dir.passthrough.getD []) := by
  obtain ⟨packed, hp, rfl⟩ := packInto_eq_ok h
  obtain ⟨packed', hp', rfl⟩ := packInto_eq_ok hfresh
  obtain rfl := Except.ok.inj (hp.symm.trans hp')
  have htrunc := truncatedTensors_of_ok rfl hout
  rw [← (PrefetchAux.packCheckpoint_eq_ok hp).2, ← names_manifest hp]
  have hdecode := fun tm (htm : tm ∈ packed.tensors.map fun e => e.2.entry) =>
    decodeTensor_repack num hp dir.files htm
  simp only [reconstructArtifact, htrunc] at hout
  constructor
  · intro hall
    by_cases hnil : packed.passthrough = []
    · -- a tensor left over is in the first reconstruction, hence in the second
      have hsafe := hall .safetensors
      simp only [reconstructArtifact, htrunc] at hsafe
      rw [hout] at hsafe
      refine Or.inr fun name t ht hname => ?_
      have hin : (name, t.shape, flat t.value) ∈ out := by
        rw [mem_writeCompleteSafetensors hsafe, registered_of_not_packed hname, if_pos hnil, ht]
        rfl
      rw [mem_writeCompleteSafetensors hout, registered_of_not_packed hname, if_pos hnil] at hin
      obtain ⟨s, hs, hv⟩ := Option.map_eq_some_iff.1 hin
      obtain ⟨h1, h2⟩ := Prod.mk.inj (Except.ok.inj hv)
      exact ⟨s, hs, h1, h2⟩
    · exact Or.inl hnil
  · intro hcond outputFormat
    cases outputFormat with
    | json =>
      refine mapM_congr fun tm htm => ?_
      simp only [Directory.store]
      rw [hdecode tm htm]
    | safetensors =>
      simp only [reconstructArtifact, htrunc]
      refine writeCompleteSafetensors_congr fun name => ?_
      by_cases hname : name ∈ (packed.tensors.map fun e => e.2.entry).map TensorMeta.name
      · exact registered_of_packed hname hdecode
      · rw [registered_of_not_packed hname, registered_of_not_packed hname]
        by_cases hnil : packed.passthrough = []
        · rw [if_pos hnil, if_pos hnil]
          cases ht : passthroughTensor (dir.passthrough.getD []) name with
          | none => rfl
          | some t =>
            obtain ⟨s, hs, h1, h2⟩ := hcond.resolve_left (not_not.2 hnil) name t ht hname
            rw [hs]
            simp [passthroughTensor, sourceValues, h1, h2]
        · rw [if_neg hnil, if_neg hnil]

/-- **When a second pack hides the first.** Where it finds no codebook but its own, packing into a directory and packing into an
empty one reconstruct to the same tensors exactly if the pack passes a tensor through, or what the directory's passthrough file
holds is packed or in the source still. -/
theorem reconstruct_repack_iff (num : Numerics α) (flat : τ → List α) (sources : String → Option (List (SourceTensor τ)))
    (p : CachingArgs α τ) (source : List (SourceTensor τ)) (dir dir' fresh : CachedDirectory α τ)
    (h : packCached p source dir = .ok dir') (hfresh : packCached p source {} = .ok fresh) (hown : FindsItsOwn p source dir.cache)
    (out : List (String × List ℕ × List α))
    (hout : reconstructArtifact num flat sources .safetensors fresh.toDirectory = .ok out) :
    (∀ outputFormat, reconstructArtifact num flat sources outputFormat dir'.toDirectory =
        reconstructArtifact num flat sources outputFormat fresh.toDirectory) ↔
      (select p.select source).passthrough ≠ [] ∨
        Superseded flat ((select p.select source).emitted.map SourceTensor.name) ((sources p.header.source).getD [])
          (dir.passthrough.getD []) := by
  obtain ⟨left, hleft, rfl⟩ := map_eq_ok.1 h
  obtain ⟨new, hnew, rfl⟩ := map_eq_ok.1 hfresh
  rw [codebooks_eq hown] at hleft
  have hiff := reconstruct_packInto_iff num flat sources _ source dir.toDirectory left new hleft hnew out hout
  rwa [p.args_select, p.args_header] at hiff

end Repack

/-! ## Small packs -/

/-- A weight and a norm. -/
def withNorm : List (SourceTensor Unit) := [⟨"layers.0.mlp.weight", [1, 1], ()⟩, ⟨"model.norm.weight", [1], ()⟩]

/-- The weight alone. -/
def withoutNorm : List (SourceTensor Unit) := withNorm.take 1

/-- What reconstructing to safetensors gives, the source gone. -/
def tinyReconstruct (dir : CachedDirectory ℚ Unit) : Except PyErr (List (String × List ℕ × List ℚ)) :=
  reconstructArtifact rationalNumerics (fun _ => [0]) (fun _ => none) .safetensors dir.toDirectory

/-- A pack of the weight whose first codebook is `[[learned]]`, whatever its key says. -/
def tinyCaching (cacheDir : CacheDir ℚ) (learned : ℚ) : CachingArgs ℚ Unit where
  cacheDir := cacheDir
  digest := id
  firstCodebooks _ := [⟨perTensorKeyParts ⟨"9-1", "None", "1", "numpy", "block-max", "none", "0", "0.0", "None"⟩
    "layers.0.mlp.weight" "1" "1" "unweighted", [[learned]]⟩]
  args cbs :=
    { tinyArgs .perTensor with
      quantize := fun _ t => .ok { tinyTensor t.name with stages := [⟨.floats .float32 cbs.flatten.flatten, 1, .float32, 8, [0], 1⟩] }
      streamed := fun _ _ _ _ => rfl
      named := by
        rintro - t p h
        cases h
        rfl }
  select := {}
  header := (tinyArgs .perTensor).header
  args_select _ := rfl
  args_header _ := rfl

/-- These packs return. -/
theorem packCached_tiny (cacheDir : CacheDir ℚ) (learned : ℚ) (dir : CachedDirectory ℚ Unit) :
    (∃ dir', packCached (tinyCaching cacheDir learned) withNorm dir = .ok dir') ∧
      ∃ dir', packCached (tinyCaching cacheDir learned) withoutNorm dir = .ok dir' := by
  have hnorm : select {} withNorm = ⟨withNorm.take 1, withNorm.drop 1, 1⟩ := by decide +kernel
  have halone : select {} withoutNorm = ⟨withoutNorm, [], 1⟩ := by decide +kernel
  constructor
  · rw [packCached, packInto, packCheckpoint, (tinyCaching cacheDir learned).args_select,
      show select (tinyCaching cacheDir learned).select withNorm = _ from hnorm]
    exact ⟨_, rfl⟩
  · rw [packCached, packInto, packCheckpoint, (tinyCaching cacheDir learned).args_select,
      show select (tinyCaching cacheDir learned).select withoutNorm = _ from halone]
    exact ⟨_, rfl⟩

/-- The norm that a first pack passed through is in the reconstruction of a second pack whose source has no norm. -/
theorem reconstruct_repack_withNorm : ∃ dir dir' fresh,
    packCached (tinyCaching .absent 0) withNorm {} = .ok dir ∧ packCached (tinyCaching .absent 0) withoutNorm dir = .ok dir' ∧
      packCached (tinyCaching .absent 0) withoutNorm {} = .ok fresh ∧
        tinyReconstruct dir' = .ok [("layers.0.mlp.weight", [1, 1], [0]), ("model.norm.weight", [1], [0])] ∧
          tinyReconstruct fresh = .ok [("layers.0.mlp.weight", [1, 1], [0])] := by
  obtain ⟨dir, hdir⟩ := (packCached_tiny .absent 0 {}).1
  obtain ⟨dir', hdir'⟩ := (packCached_tiny .absent 0 dir).2
  obtain ⟨fresh, hfresh⟩ := (packCached_tiny .absent 0 {}).2
  refine ⟨dir, dir', fresh, hdir, hdir', hfresh, ?_, ?_⟩
  · have : (packCached (tinyCaching .absent 0) withNorm {}).bind (fun dir =>
        (packCached (tinyCaching .absent 0) withoutNorm dir).bind tinyReconstruct) =
          .ok [("layers.0.mlp.weight", [1, 1], [0]), ("model.norm.weight", [1], [0])] := by decide +kernel
    rwa [hdir, ok_bind, hdir'] at this
  · have : (packCached (tinyCaching .absent 0) withoutNorm {}).bind tinyReconstruct =
        .ok [("layers.0.mlp.weight", [1, 1], [0])] := by decide +kernel
    rwa [hfresh] at this

/-- With the cache in the output directory, a second pack that would learn another codebook under the same key takes the one the
first left: both pass the norm through, and the weight differs from that of a pack into an empty directory. -/
theorem reconstruct_repack_cached : ∃ dir dir' fresh,
    packCached (tinyCaching .inside 1) withNorm {} = .ok dir ∧ packCached (tinyCaching .inside 2) withNorm dir = .ok dir' ∧
      packCached (tinyCaching .inside 2) withNorm {} = .ok fresh ∧
        tinyReconstruct dir' = .ok [("layers.0.mlp.weight", [1, 1], [1]), ("model.norm.weight", [1], [0])] ∧
          tinyReconstruct fresh = .ok [("layers.0.mlp.weight", [1, 1], [2]), ("model.norm.weight", [1], [0])] := by
  obtain ⟨dir, hdir⟩ := (packCached_tiny .inside 1 {}).1
  obtain ⟨dir', hdir'⟩ := (packCached_tiny .inside 2 dir).1
  obtain ⟨fresh, hfresh⟩ := (packCached_tiny .inside 2 {}).1
  refine ⟨dir, dir', fresh, hdir, hdir', hfresh, ?_, ?_⟩
  · have : (packCached (tinyCaching .inside 1) withNorm {}).bind (fun dir =>
        (packCached (tinyCaching .inside 2) withNorm dir).bind tinyReconstruct) =
          .ok [("layers.0.mlp.weight", [1, 1], [1]), ("model.norm.weight", [1], [0])] := by decide +kernel
    rwa [hdir, ok_bind, hdir'] at this
  · have : (packCached (tinyCaching .inside 2) withNorm {}).bind tinyReconstruct =
        .ok [("layers.0.mlp.weight", [1, 1], [2]), ("model.norm.weight", [1], [0])] := by decide +kernel
    rwa [hfresh] at this

/-- A second pack that finds the codebook it would learn and passes the norm through hides the first. -/
theorem reconstruct_repack_twice : ∃ dir dir' fresh,
    packCached (tinyCaching .inside 1) withNorm {} = .ok dir ∧ packCached (tinyCaching .inside 1) withNorm dir = .ok dir' ∧
      packCached (tinyCaching .inside 1) withNorm {} = .ok fresh ∧
        ∀ outputFormat, reconstructArtifact rationalNumerics (fun _ => [0]) (fun _ => none) outputFormat dir'.toDirectory =
          reconstructArtifact rationalNumerics (fun _ => [0]) (fun _ => none) outputFormat fresh.toDirectory := by
  have hsel : select {} withNorm = ⟨withNorm.take 1, withNorm.drop 1, 1⟩ := by decide +kernel
  obtain ⟨fresh, hfresh⟩ := (packCached_tiny .inside 1 {}).1
  obtain ⟨dir', hdir'⟩ := (packCached_tiny .inside 1 fresh).1
  have hout : (packCached (tinyCaching .inside 1) withNorm {}).bind tinyReconstruct =
      .ok [("layers.0.mlp.weight", [1, 1], [1]), ("model.norm.weight", [1], [0])] := by decide +kernel
  rw [hfresh] at hout
  have hcache : (packCached (tinyCaching .inside 1) withNorm {}).map CachedDirectory.cache =
      .ok (takeCodebooks id ((tinyCaching .inside 1).firstCodebooks withNorm) []).2 := by
    rw [hfresh]
    obtain ⟨out, -, rfl⟩ := map_eq_ok.1 hfresh
    rfl
  rw [hfresh] at hcache
  refine ⟨fresh, dir', fresh, hfresh, hdir', hfresh, (reconstruct_repack_iff rationalNumerics (fun _ => [0]) (fun _ => none)
    (tinyCaching .inside 1) withNorm fresh dir' fresh hdir' hfresh ?_ _ hout).2 (Or.inl ?_)⟩
  · rw [Except.ok.inj hcache]
    exact List.forall_mem_singleton.2 (by decide +kernel)
  · rw [show select (tinyCaching .inside 1).select withNorm = _ from hsel]
    exact List.cons_ne_nil _ _

end Orka
