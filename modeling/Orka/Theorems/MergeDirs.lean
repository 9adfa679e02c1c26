import Orka.Lemmas.Merge
import Orka.MergeDirs

/-!
# What a failed merge leaves

The files of all inputs are copied before the entries and the passthrough files are looked at, and nothing is taken back. A merge that
is refused after the first copied file leaves a directory that the next one refuses too.
-/

namespace Orka

open Steps MergeAux

section MergeDirs

variable {β ε τ : Type}

/-! ## What the inputs hold -/

/-- The files of a list that are copied. -/
def copiedOf (files : List (String × β)) : List (String × β) := files.filter fun f => f.1 ∉ mergedApart

/-- The manifests of the inputs that have one. -/
def manifestsOf (inputs : List (Partition β ε τ)) : List (PartitionManifest ε) :=
  inputs.filterMap fun input => input.manifest.bind Except.toOption

/-- The entries of all inputs. -/
def entriesOf (inputs : List (Partition β ε τ)) : List (PartitionEntry ε) := (manifestsOf inputs).flatMap PartitionManifest.tensors

/-- The names of all entries. -/
def namesOf (inputs : List (Partition β ε τ)) : List String := (entriesOf inputs).filterMap fun entry => entry.name.toOption

/-- The passthrough tensors of all inputs. -/
def passthroughOf (inputs : List (Partition β ε τ)) : List (SourceTensor τ) :=
  inputs.flatMap fun input => ((input.passthrough.bind Except.toOption).getD [])

/-- Two files can lie in one directory: at one path they are the same, and neither stands where the other needs a directory. -/
def Fits (f g : String × β) : Prop := (f.1 = g.1 → f.2 = g.2) ∧ ¬ Under f.1 g.1 ∧ ¬ Under g.1 f.1

theorem Fits.symm {f g : String × β} (h : Fits f g) : Fits g f := ⟨fun e => (h.1 e.symm).symm, h.2.2, h.2.1⟩

/-- No path lies under itself. -/
theorem not_under_self (p : String) : ¬ Under p p := by
  intro h
  have := h.length_le
  rw [List.length_append] at this
  simp at this

/-- The inputs agree on the files they share. -/
def Agree (inputs : List (Partition β ε τ)) : Prop :=
  ∀ a ∈ inputs, ∀ b ∈ inputs, ∀ f ∈ copiedOf a.files, ∀ g ∈ copiedOf b.files, Fits f g

/-! ## Copying -/

/-- The files copied of all inputs are those of each. -/
theorem copiedOf_flatMap (inputs : List (Partition β ε τ)) :
    copiedOf (inputs.flatMap Partition.files) = inputs.flatMap fun input => copiedOf input.files :=
  List.filter_flatMap

/-- Files that fit pairwise. -/
def Tree (files : List (String × β)) : Prop := ∀ f ∈ files, ∀ g ∈ files, Fits f g

/-- A file that fits beside every other extends the tree. -/
theorem Tree.append_singleton {files : List (String × β)} {f : String × β} (h : Tree files) (hf : ∀ g ∈ files, Fits f g) :
    Tree (files ++ [f]) := by
  intro a ha b hb
  rcases List.mem_append.1 ha with ha | ha <;> rcases List.mem_append.1 hb with hb | hb
  · exact h a ha b hb
  · rw [List.mem_singleton.1 hb]
    exact (hf a ha).symm
  · rw [List.mem_singleton.1 ha]
    exact hf b hb
  · rw [List.mem_singleton.1 ha, List.mem_singleton.1 hb]
    exact ⟨fun _ => rfl, not_under_self _, not_under_self _⟩

/-- A file of the tree is found under its path. -/
theorem Tree.get_eq {files : List (String × β)} {f : String × β} (h : Tree files) (hf : f ∈ files) :
    Journal.get files f.1 = some f.2 := by
  obtain ⟨bytes, hget⟩ := Option.ne_none_iff_exists'.1 (mt Journal.get_eq_none.1 (not_not.2 (List.mem_map_of_mem hf)))
  rw [hget, (h f hf _ (Journal.mem_of_get hget)).1 rfl]

theorem copiedOf_cons_of_mem {f : String × β} (h : f.1 ∈ mergedApart) (files : List (String × β)) :
    copiedOf (f :: files) = copiedOf files :=
  List.filter_cons_of_neg (by simpa using h)

theorem copiedOf_cons_of_not_mem {f : String × β} (h : f.1 ∉ mergedApart) (files : List (String × β)) :
    copiedOf (f :: files) = f :: copiedOf files :=
  List.filter_cons_of_pos (by simpa using h)

section Copying

variable [DecidableEq β] {pathErr : String → PyErr}

/-- One step of the copying: a file is left out, is there already, is new, or cannot be copied next to what is there. -/
theorem copyFiles_cases (pathErr : String → PyErr) (f : String × β) (files target : List (String × β)) :
    (f.1 ∈ mergedApart ∧ copyFiles pathErr (f :: files) target = copyFiles pathErr files target) ∨
    (f.1 ∉ mergedApart ∧ Journal.get target f.1 = some f.2 ∧ copyFiles pathErr (f :: files) target = copyFiles pathErr files target) ∨
    (f.1 ∉ mergedApart ∧ Journal.get target f.1 = none ∧ (∀ g ∈ target, Fits f g) ∧
      copyFiles pathErr (f :: files) target = copyFiles pathErr files (target ++ [f])) ∨
    (f.1 ∉ mergedApart ∧ (∃ g ∈ target, ¬ Fits f g) ∧ ∃ e, copyFiles pathErr (f :: files) target = (some e, target)) := by
  obtain ⟨path, bytes⟩ := f
  by_cases hap : path ∈ mergedApart
  · exact .inl ⟨hap, by rw [copyFiles, if_pos hap]⟩
  cases hget : Journal.get target path with
  | some old =>
    by_cases hsame : bytes = old
    · exact .inr (.inl ⟨hap, by rw [hsame], by rw [copyFiles, if_neg hap, hget]; simp only [hsame, if_true]⟩)
    · refine .inr (.inr (.inr ⟨hap, ⟨(path, old), Journal.mem_of_get hget, fun h => hsame (h.1 rfl)⟩, ?_⟩))
      exact ⟨_, by rw [copyFiles, if_neg hap, hget]; simp only [hsame, if_false]; rfl⟩
  | none =>
    have hnew : ∀ g ∈ target, path ≠ g.1 := fun g hg e => Journal.get_eq_none.1 hget (e ▸ List.mem_map_of_mem hg)
    by_cases hway : ∃ g ∈ target, Under path g.1 ∨ Under g.1 path
    · refine .inr (.inr (.inr ⟨hap, ?_, _, by rw [copyFiles, if_neg hap, hget]; simp only [if_pos hway]; rfl⟩))
      obtain ⟨g, hg, h⟩ := hway
      exact ⟨g, hg, fun hfit => h.elim hfit.2.1 hfit.2.2⟩
    · refine .inr (.inr (.inl ⟨hap, rfl, fun g hg => ?_, by rw [copyFiles, if_neg hap, hget]; simp only [if_neg hway]⟩))
      exact ⟨fun e => absurd e (hnew g hg), fun h => hway ⟨g, hg, .inl h⟩, fun h => hway ⟨g, hg, .inr h⟩⟩

/-- What is there after all files could be copied: they fit each other and what was there. -/
theorem copyFiles_none {files target r : List (String × β)} (ht : Tree target) (h : copyFiles pathErr files target = (none, r)) :
    Tree r ∧ ∀ f, f ∈ r ↔ f ∈ target ∨ f ∈ copiedOf files := by
  induction files generalizing target with
  | nil =>
    obtain ⟨-, rfl⟩ := Prod.mk.inj h
    exact ⟨ht, fun f => by simp [copiedOf]⟩
  | cons f files ih =>
    rcases copyFiles_cases pathErr f files target with ⟨hap, hrun⟩ | ⟨hap, hget, hrun⟩ | ⟨hap, -, hfits, hrun⟩ | ⟨-, -, e, hrun⟩
    · rw [copiedOf_cons_of_mem hap]
      exact ih ht (hrun.symm.trans h)
    · obtain ⟨htree, hmem⟩ := ih ht (hrun.symm.trans h)
      refine ⟨htree, fun g => ?_⟩
      have hthere : f ∈ target := Journal.mem_of_get hget
      rw [hmem, copiedOf_cons_of_not_mem hap, List.mem_cons]
      exact ⟨fun hg => hg.imp_right .inr, fun hg => hg.elim .inl fun hg => hg.elim (fun e => .inl (e ▸ hthere)) .inr⟩
    · obtain ⟨htree, hmem⟩ := ih (ht.append_singleton hfits) (hrun.symm.trans h)
      refine ⟨htree, fun g => ?_⟩
      rw [hmem, copiedOf_cons_of_not_mem hap, List.mem_append, List.mem_singleton, List.mem_cons, or_assoc]
    · cases hrun.symm.trans h

/-- A file that could not be copied: something is there already, and two files do not fit. -/
theorem copyFiles_some {files target r : List (String × β)} {e : PyErr} (h : copyFiles pathErr files target = (some e, r)) :
    r ≠ [] ∧ ∃ f ∈ copiedOf files, ∃ g ∈ target ++ copiedOf files, ¬ Fits f g := by
  induction files generalizing target with
  | nil => cases h
  | cons f files ih =>
    rcases copyFiles_cases pathErr f files target with ⟨hap, hrun⟩ | ⟨hap, -, hrun⟩ | ⟨hap, -, -, hrun⟩ | ⟨hap, ⟨g, hg, hclash⟩, e', hrun⟩
    · rw [copiedOf_cons_of_mem hap]
      exact ih (hrun.symm.trans h)
    · obtain ⟨hne, a, ha, b, hb, hab⟩ := ih (hrun.symm.trans h)
      rw [copiedOf_cons_of_not_mem hap]
      refine ⟨hne, a, List.mem_cons_of_mem _ ha, b, ?_, hab⟩
      exact List.mem_append.2 ((List.mem_append.1 hb).imp_right (List.mem_cons_of_mem _))
    · obtain ⟨hne, a, ha, b, hb, hab⟩ := ih (hrun.symm.trans h)
      rw [copiedOf_cons_of_not_mem hap]
      refine ⟨hne, a, List.mem_cons_of_mem _ ha, b, ?_, hab⟩
      rwa [List.append_assoc, List.singleton_append] at hb
    · obtain ⟨-, rfl⟩ := Prod.mk.inj (hrun.symm.trans h)
      rw [copiedOf_cons_of_not_mem hap]
      exact ⟨List.ne_nil_of_mem hg, f, List.mem_cons_self, g, List.mem_append_left _ hg, hclash⟩

/-- Copying goes on with the rest unless the first part failed. -/
theorem copyFiles_append (a b target : List (String × β)) : copyFiles pathErr (a ++ b) target =
    match copyFiles pathErr a target with
    | (some e, target) => (some e, target)
    | (none, target) => copyFiles pathErr b target := by
  induction a generalizing target with
  | nil => rfl
  | cons f a ih =>
    rw [List.cons_append, copyFiles, copyFiles]
    split
    · exact ih target
    · split
      · split
        · exact ih target
        · rfl
      · split
        · rfl
        · exact ih _

/-- Copying the inputs is copying their files in order. -/
theorem copyInputs_eq (inputs : List (Partition β ε τ)) (target : List (String × β)) :
    copyInputs pathErr inputs target = copyFiles pathErr (inputs.flatMap Partition.files) target := by
  induction inputs generalizing target with
  | nil => rfl
  | cons input inputs ih =>
    rw [copyInputs, List.flatMap_cons, copyFiles_append]
    rcases copyFiles pathErr input.files target with ⟨_ | e, r⟩
    · exact ih r
    · rfl

/-- All inputs could be copied: what is there is a tree of their files, and they agree. -/
theorem copyInputs_none {inputs : List (Partition β ε τ)} {r : List (String × β)} (h : copyInputs pathErr inputs [] = (none, r)) :
    Agree inputs ∧ Tree r ∧ ∀ f, f ∈ r ↔ ∃ input ∈ inputs, f ∈ copiedOf input.files := by
  rw [copyInputs_eq] at h
  obtain ⟨htree, hmem⟩ := copyFiles_none (fun f hf => absurd hf List.not_mem_nil) h
  have hmem : ∀ f, f ∈ r ↔ ∃ input ∈ inputs, f ∈ copiedOf input.files := by
    intro f
    rw [hmem, copiedOf_flatMap, List.mem_flatMap, or_iff_right List.not_mem_nil]
  exact ⟨fun a ha b hb f hf g hg => htree f ((hmem f).2 ⟨a, ha, hf⟩) g ((hmem g).2 ⟨b, hb, hg⟩), htree, hmem⟩

/-- Some input could not be copied: files are there, and the inputs do not agree. -/
theorem copyInputs_some {inputs : List (Partition β ε τ)} {r : List (String × β)} {e : PyErr}
    (h : copyInputs pathErr inputs [] = (some e, r)) : r ≠ [] ∧ ¬ Agree inputs := by
  rw [copyInputs_eq] at h
  obtain ⟨hne, f, hf, g, hg, hclash⟩ := copyFiles_some h
  rw [List.nil_append] at hg
  rw [copiedOf_flatMap, List.mem_flatMap] at hf hg
  obtain ⟨a, ha, hf⟩ := hf
  obtain ⟨b, hb, hg⟩ := hg
  exact ⟨hne, fun hagree => hclash (hagree a ha b hb f hf g hg)⟩

end Copying

/-! ## Collecting -/

/-- Every entry has a name of its own, and every passthrough file can be read. -/
structure Collectable (inputs : List (Partition β ε τ)) : Prop where
  named : ∀ entry ∈ entriesOf inputs, ∃ name, entry.name = .ok name
  distinct : (namesOf inputs).Nodup
  readable : ∀ input ∈ inputs, ∀ e, input.passthrough ≠ some (.error e)

/-- Entries are collected when each has a name and no two have the same. -/
theorem collectEntries_ok {entries : List (PartitionEntry ε)} (merged : List (String × PartitionEntry ε))
    {collected : List (String × PartitionEntry ε)} (hn : (merged.map Prod.fst).Nodup) :
    collectEntries entries merged = .ok collected ↔
      (∀ entry ∈ entries, ∃ name, entry.name = .ok name) ∧
        (merged.map Prod.fst ++ entries.filterMap fun entry => entry.name.toOption).Nodup ∧
        collected = merged ++ entries.filterMap fun entry => entry.name.toOption.map fun name => (name, entry) := by
  induction entries generalizing merged with
  | nil => simp [collectEntries, hn, eq_comm]
  | cons entry entries ih =>
    cases hname : entry.name with
    | error e => simp [collectEntries, hname]
    | ok name =>
      rw [collectEntries, hname, ok_bind]
      by_cases hmem : name ∈ merged.map Prod.fst
      · rw [if_pos hmem]
        refine ⟨fun h => (by cases h), fun h => absurd h.2.1 fun hnodup => ?_⟩
        rw [List.filterMap_cons_some (by rw [hname]; rfl)] at hnodup
        exact (List.nodup_append.1 hnodup).2.2 _ hmem _ List.mem_cons_self rfl
      · have hn' : ((merged ++ [(name, entry)]).map Prod.fst).Nodup := by
          rw [List.map_append, List.map_singleton]
          refine List.nodup_append.2 ⟨hn, List.nodup_singleton _, fun a ha b hb e => hmem ?_⟩
          rwa [e, List.mem_singleton.1 hb] at ha
        rw [if_neg hmem, ih _ hn', List.filterMap_cons_some (by rw [hname]; rfl), List.filterMap_cons_some (by rw [hname]; rfl),
          List.map_append, List.map_singleton, List.append_assoc, List.append_assoc, List.singleton_append, List.singleton_append]
        simp [hname]

/-- Passthrough files are collected when each can be read. -/
theorem collectPassthrough_ok {packed : List String} {inputs : List (Partition β ε τ)} {kept collected : List (SourceTensor τ)} :
    collectPassthrough packed inputs kept = .ok collected ↔
      (∀ input ∈ inputs, ∀ e, input.passthrough ≠ some (.error e)) ∧ collected = mergePassthrough packed (passthroughOf inputs) kept := by
  induction inputs generalizing kept with
  | nil => simp [collectPassthrough, passthroughOf, mergePassthrough, eq_comm]
  | cons input inputs ih =>
    rw [collectPassthrough, passthroughOf, List.flatMap_cons, mergePassthrough_append]
    rcases hp : input.passthrough with _ | e | tensors
    · simp only [ih, List.forall_mem_cons, hp]
      simp [mergePassthrough, passthroughOf]
    · simp [hp]
    · simp only [ok_bind, ih, List.forall_mem_cons, hp]
      simp [passthroughOf, Except.toOption]

/-- Of tensors of one name that nothing packs the first is kept. -/
theorem find_mergePassthrough {packed : List String} {name : String} (h : name ∉ packed) (ts kept : List (SourceTensor τ)) :
    (mergePassthrough packed ts kept).find? (fun t => t.name = name) = (kept ++ ts).find? fun t => t.name = name := by
  induction ts generalizing kept with
  | nil => rw [mergePassthrough, List.append_nil]
  | cons t ts ih =>
    rw [mergePassthrough]
    split
    · next hout =>
      rw [ih, List.find?_append, List.find?_append]
      by_cases ht : t.name = name
      · obtain ⟨u, hu, hname⟩ := List.mem_map.1 (hout.resolve_left (ht ▸ h))
        obtain ⟨v, hv⟩ := Option.isSome_iff_exists.1
          (List.find?_isSome.2 ⟨u, hu, decide_eq_true (hname.trans ht)⟩ : (kept.find? fun t => t.name = name).isSome)
        rw [hv, Option.some_or, Option.some_or]
      · rw [List.find?_cons_of_neg (by simpa using ht)]
    · rw [ih, List.append_assoc, List.singleton_append]

/-- Nothing is kept exactly when everything is packed. -/
theorem mergePassthrough_eq_nil {packed : List String} {ts : List (SourceTensor τ)} :
    mergePassthrough packed ts [] = [] ↔ ∀ t ∈ ts, t.name ∈ packed := by
  refine ⟨fun h t ht => ?_, fun h => ?_⟩
  · by_contra hout
    have hfind := find_mergePassthrough hout ts []
    rw [h, List.nil_append] at hfind
    exact absurd (decide_eq_true rfl) (List.find?_eq_none.1 hfind.symm t ht)
  · induction ts with
    | nil => rfl
    | cons t ts ih =>
      rw [mergePassthrough, if_pos (.inl (h t List.mem_cons_self))]
      exact ih fun t ht => h t (List.mem_cons_of_mem _ ht)

/-- The index bytes can be summed when each entry has them. -/
theorem exists_sumIndexBytes {entries : List (String × PartitionEntry ε)} :
    (∃ n, sumIndexBytes entries = .ok n) ↔ ∀ entry ∈ entries, ∃ n, entry.2.indexBytes = .ok n := by
  induction entries with
  | nil => exact ⟨fun _ entry h => absurd h List.not_mem_nil, fun _ => ⟨0, rfl⟩⟩
  | cons entry entries ih =>
    rw [List.forall_mem_cons, ← ih]
    obtain ⟨name, entry⟩ := entry
    cases hbytes : entry.indexBytes with
    | error e => simp [sumIndexBytes, hbytes]
    | ok n => simp [sumIndexBytes, hbytes, map_eq_ok]

/-! ## Checking -/

/-- What is refused before the output directory is made. -/
inductive Refused (inputs : List (Partition β ε τ)) (outDir : String) (out : Option (MergeTarget β ε τ)) : Prop
  | few : inputs.length < 2 → Refused inputs outDir out
  | input : outDir ∈ inputs.map Partition.path → Refused inputs outDir out
  | content : ¬ isVacant out → Refused inputs outDir out
  | manifest (input : Partition β ε τ) : input ∈ inputs → (∀ m, input.manifest ≠ some (.ok m)) → Refused inputs outDir out
  | incompatible (base other : PartitionManifest ε) : (manifestsOf inputs).head? = some base → other ∈ (manifestsOf inputs).tail →
      incompatibleField base.header other.header ≠ none → Refused inputs outDir out

/-- A manifest passes exactly when no compared field differs. -/
theorem checkManifestCompatibility_ok (base candidate : ManifestHeader) (dir : String) :
    checkManifestCompatibility base candidate dir = .ok () ↔ incompatibleField base candidate = none := by
  unfold checkManifestCompatibility
  cases incompatibleField base candidate <;> simp

/-- The others pass exactly when each does. -/
theorem checkOthers_ok {base : PartitionManifest ε} {others : List (String × PartitionManifest ε)} :
    checkOthers base others = .ok () ↔ ∀ other ∈ others, incompatibleField base.header other.2.header = none := by
  induction others with
  | nil => simp [checkOthers]
  | cons other others ih =>
    rw [checkOthers, List.forall_mem_cons, ← ih, ← checkManifestCompatibility_ok base.header other.2.header other.1]
    cases checkManifestCompatibility base.header other.2.header other.1 <;> simp

/-- A manifest is read exactly when the input has one that parses. -/
theorem readManifest_ok {input : Partition β ε τ} {m : PartitionManifest ε} :
    input.readManifest = .ok m ↔ input.manifest = some (.ok m) := by
  unfold Partition.readManifest
  rcases input.manifest with _ | e | m' <;> simp

theorem manifestsOf_cons {input : Partition β ε τ} {m : PartitionManifest ε} (h : input.manifest = some (.ok m))
    (inputs : List (Partition β ε τ)) : manifestsOf (input :: inputs) = m :: manifestsOf inputs :=
  List.filterMap_cons_some (by rw [h]; rfl)

/-- Where every input has a manifest all are read. -/
theorem mapM_readManifest {inputs : List (Partition β ε τ)} (h : ∀ input ∈ inputs, ∃ m, input.manifest = some (.ok m)) :
    inputs.mapM Partition.readManifest = .ok (manifestsOf inputs) := by
  induction inputs with
  | nil => rfl
  | cons input inputs ih =>
    obtain ⟨⟨m, hm⟩, hall⟩ := List.forall_mem_cons.1 h
    rw [mapM_cons_eq, readManifest_ok.2 hm, ok_bind, ih hall, ok_map, manifestsOf_cons hm]

/-- Where every input has a manifest there are as many. -/
theorem length_manifestsOf {inputs : List (Partition β ε τ)} (h : ∀ input ∈ inputs, ∃ m, input.manifest = some (.ok m)) :
    (manifestsOf inputs).length = inputs.length := by
  induction inputs with
  | nil => rfl
  | cons input inputs ih =>
    obtain ⟨⟨m, hm⟩, hall⟩ := List.forall_mem_cons.1 h
    rw [manifestsOf_cons hm, List.length_cons, List.length_cons, ih hall]

/-- The first manifest agrees with the others. -/
theorem checkOthers_inputs {inputs : List (Partition β ε τ)} {base : PartitionManifest ε} {rest : List (PartitionManifest ε)}
    (hall : ∀ input ∈ inputs, ∃ m, input.manifest = some (.ok m)) (h : manifestsOf inputs = base :: rest) :
    checkOthers base (((inputs.map Partition.path).drop 1).zip rest) = .ok () ↔
      ∀ other ∈ rest, incompatibleField base.header other.header = none := by
  have hlen : rest.length = ((inputs.map Partition.path).drop 1).length := by
    rw [List.length_drop, List.length_map, ← length_manifestsOf hall, h, List.length_cons, Nat.add_sub_cancel]
  rw [checkOthers_ok]
  constructor
  · intro hcheck other ho
    have hzip : (((inputs.map Partition.path).drop 1).zip rest).map Prod.snd = rest := List.map_snd_zip hlen.le
    rw [← hzip] at ho
    obtain ⟨pair, hpair, rfl⟩ := List.mem_map.1 ho
    exact hcheck pair hpair
  · exact fun hcheck pair hpair => hcheck pair.2 (List.of_mem_zip hpair).2

/-- The checks: what is refused is an error, and all else goes on with the manifests of the inputs. -/
theorem mergeChecks_cases (inputs : List (Partition β ε τ)) (outDir : String) (out : Option (MergeTarget β ε τ)) :
    (Refused inputs outDir out ∧ ∃ e, mergeChecks inputs outDir out = .error e) ∨
      (¬ Refused inputs outDir out ∧ ∃ base rest, manifestsOf inputs = base :: rest ∧
        mergeChecks inputs outDir out = .ok (base :: rest)) := by
  by_cases hfew : inputs.length < 2
  · exact .inl ⟨.few hfew, _, if_pos hfew⟩
  by_cases hinput : outDir ∈ inputs.map Partition.path
  · exact .inl ⟨.input hinput, _, (if_neg hfew).trans (if_pos hinput)⟩
  by_cases hvacant : isVacant out
  swap
  · exact .inl ⟨.content hvacant, _, (if_neg hfew).trans ((if_neg hinput).trans (if_pos hvacant))⟩
  rw [mergeChecks, if_neg hfew, if_neg hinput, if_neg (not_not.2 hvacant)]
  by_cases hall : ∀ input ∈ inputs, ∃ m, input.manifest = some (.ok m)
  swap
  · push Not at hall
    obtain ⟨input, hin, hno⟩ := hall
    refine .inl ⟨.manifest input hin hno, ?_⟩
    cases hrun : inputs.mapM Partition.readManifest with
    | error e => exact ⟨e, rfl⟩
    | ok ms =>
      obtain ⟨m, hm⟩ := exists_mapM_eq_ok.1 ⟨ms, hrun⟩ input hin
      exact absurd (readManifest_ok.1 hm) (hno m)
  rw [mapM_readManifest hall, ok_bind]
  cases hms : manifestsOf inputs with
  | nil =>
    have := length_manifestsOf hall
    rw [hms, List.length_nil] at this
    omega
  | cons base rest =>
    by_cases hcompat : ∀ other ∈ rest, incompatibleField base.header other.header = none
    · refine .inr ⟨fun hrefused => ?_, base, rest, rfl, by simp only [(checkOthers_inputs hall hms).2 hcompat, ok_map]⟩
      cases hrefused with
      | few h => exact hfew h
      | input h => exact hinput h
      | content h => exact h hvacant
      | manifest input hin hno => exact (hall input hin).elim hno
      | incompatible b other hb ho hne =>
        rw [hms] at hb ho
        obtain rfl := Option.some.inj hb
        exact hne (hcompat other ho)
    · refine .inl ⟨?_, ?_⟩
      · push Not at hcompat
        obtain ⟨other, ho, hne⟩ := hcompat
        exact .incompatible base other (by rw [hms]; rfl) (by rw [hms]; exact ho) hne
      · cases hrun : checkOthers base (((inputs.map Partition.path).drop 1).zip rest) with
        | error e => exact ⟨e, by simp only [hrun, error_map]⟩
        | ok u => exact absurd ((checkOthers_inputs hall hms).1 hrun) hcompat

/-! ## What is left -/

/-- A complete merge: every file of an input at its path, the entries of all inputs in the order of their names, and of the passthrough
tensors of a name that nothing packs the first. -/
structure CompleteMerge (inputs : List (Partition β ε τ)) (manifest : MergedManifest ε) (out : MergeTarget β ε τ) : Prop where
  written : out.manifest = some manifest
  header : (manifestsOf inputs).head?.map PartitionManifest.header = some manifest.header
  files : ∀ input ∈ inputs, ∀ f ∈ copiedOf input.files, Journal.get out.files f.1 = some f.2
  entries : (manifest.tensors.map Prod.snd).Perm (entriesOf inputs)
  named : ∀ entry ∈ manifest.tensors, entry.2.name = .ok entry.1
  sorted : (manifest.tensors.map Prod.fst).Pairwise (· ≤ ·)
  distinct : (manifest.tensors.map Prod.fst).Nodup
  passthrough : ∀ name ∉ manifest.tensors.map Prod.fst, (out.passthrough.getD []).find? (fun t => t.name = name) =
    (passthroughOf inputs).find? fun t => t.name = name
  counted : manifest.passthroughCount = (out.passthrough.getD []).length
  total : sumIndexBytes manifest.tensors = .ok manifest.totalIndexBytes

/-- Every entry has its index bytes. -/
def Counted (inputs : List (Partition β ε τ)) : Prop := ∀ entry ∈ entriesOf inputs, ∃ n, entry.indexBytes = .ok n

/-- Nothing is written before the manifest: no file is copied, and the entries cannot be collected or nothing passes through. -/
structure Untouched (inputs : List (Partition β ε τ)) : Prop where
  files : ∀ input ∈ inputs, copiedOf input.files = []
  passthrough : Collectable inputs → ∀ t ∈ passthroughOf inputs, t.name ∈ namesOf inputs

/-- Collected entries: their names, and the entries behind them. -/
theorem collected_facts {entries : List (PartitionEntry ε)} (h : ∀ entry ∈ entries, ∃ name, entry.name = .ok name) :
    ((entries.filterMap fun entry => entry.name.toOption.map fun name => (name, entry)).map Prod.snd) = entries ∧
      ((entries.filterMap fun entry => entry.name.toOption.map fun name => (name, entry)).map Prod.fst) =
        entries.filterMap (fun entry => entry.name.toOption) ∧
      ∀ pair ∈ entries.filterMap (fun entry => entry.name.toOption.map fun name => (name, entry)), pair.2.name = .ok pair.1 := by
  induction entries with
  | nil => simp
  | cons entry entries ih =>
    obtain ⟨⟨name, hname⟩, h⟩ := List.forall_mem_cons.1 h
    obtain ⟨hsnd, hfst, hnamed⟩ := ih h
    rw [List.filterMap_cons_some (b := (name, entry)) (by rw [hname]; rfl),
      List.filterMap_cons_some (f := fun entry : PartitionEntry ε => entry.name.toOption) (b := name) (by rw [hname]; rfl),
      List.map_cons, List.map_cons, hsnd, hfst, List.forall_mem_cons]
    exact ⟨rfl, rfl, hname, hnamed⟩

/-- What is written after collecting. -/
theorem writeMerged_spec {inputs : List (Partition β ε τ)} {base : PartitionManifest ε} {rest : List (PartitionManifest ε)}
    {files : List (String × β)} {entries : List (String × PartitionEntry ε)} {kept : List (SourceTensor τ)}
    (hms : manifestsOf inputs = base :: rest) (hcollect : Collectable inputs)
    (hentries : entries = (entriesOf inputs).filterMap fun entry => entry.name.toOption.map fun name => (name, entry))
    (hkept : kept = mergePassthrough (entries.map Prod.fst) (passthroughOf inputs) []) (htree : Tree files)
    (hfiles : ∀ f, f ∈ files ↔ ∃ input ∈ inputs, f ∈ copiedOf input.files) :
    (∃ manifest dir, writeMerged base entries kept files = (.ok manifest, some dir) ∧ Counted inputs ∧
        CompleteMerge inputs manifest dir) ∨
      ∃ e, writeMerged base entries kept files =
        (.error e, some { files := files, passthrough := if kept.isEmpty then none else some kept }) ∧ ¬ Counted inputs := by
  obtain ⟨hsnd, hfst, hnamed⟩ := collected_facts hcollect.named
  rw [← hentries] at hsnd hfst hnamed
  have hperm : (entries.mergeSort fun a b => a.1 ≤ b.1).Perm entries := List.mergeSort_perm _ _
  have hcounted : (∃ n, sumIndexBytes (entries.mergeSort fun a b => a.1 ≤ b.1) = .ok n) ↔ Counted inputs := by
    rw [exists_sumIndexBytes, Counted, ← hsnd, List.forall_mem_map]
    exact forall_congr' fun pair => by rw [hperm.mem_iff]
  unfold writeMerged
  cases hsum : sumIndexBytes (entries.mergeSort fun a b => a.1 ≤ b.1) with
  | error e =>
    refine .inr ⟨e, by simp only [hsum], fun hc => ?_⟩
    obtain ⟨n, hn⟩ := hcounted.2 hc
    cases hsum.symm.trans hn
  | ok total =>
    refine .inl ⟨_, _, (by simp only [hsum]; rfl), hcounted.1 ⟨total, hsum⟩, ?_⟩
    have hpass : (if kept.isEmpty then none else some kept).getD [] = kept := by
      cases kept <;> rfl
    constructor
    · rfl
    · rw [hms]
      rfl
    · exact fun input hin f hf => htree.get_eq ((hfiles f).2 ⟨input, hin, hf⟩)
    · rw [← hsnd]
      exact hperm.map _
    · exact fun pair hpair => hnamed pair (hperm.mem_iff.1 hpair)
    · rw [List.pairwise_map]
      refine (List.pairwise_mergeSort (fun a b c hab hbc => ?_) (fun a b => ?_) entries).imp fun h => of_decide_eq_true h
      · exact decide_eq_true ((of_decide_eq_true hab).trans (of_decide_eq_true hbc))
      · rw [Bool.or_eq_true, decide_eq_true_iff, decide_eq_true_iff]
        exact le_total _ _
    · exact (hperm.map _).nodup_iff.2 (by rw [hfst]; exact hcollect.distinct)
    · intro name hname
      rw [(hperm.map Prod.fst).mem_iff] at hname
      rw [hpass, hkept, find_mergePassthrough hname, List.nil_append]
    · rw [hpass]
    · exact hsum

/-- Left behind: an output directory that was absent or empty is again exactly when nothing was written. -/
theorem left_iff {out : Option (MergeTarget β ε τ)} (hout : isVacant out) (files : List (String × β))
    (passthrough : Option (List (SourceTensor τ))) :
    (some ({ files := files, passthrough := passthrough } : MergeTarget β ε τ) = out ∨
      (isVacant out ∧ isVacant (some ({ files := files, passthrough := passthrough } : MergeTarget β ε τ)))) ↔
      files = [] ∧ passthrough = none := by
  have hvacant : isVacant (some ({ files := files, passthrough := passthrough } : MergeTarget β ε τ)) ↔
      files = [] ∧ passthrough = none := by
    simp [isVacant]
  rw [← hvacant]
  exact ⟨fun h => h.elim (fun e => e ▸ hout) And.right, fun h => .inr ⟨hout, h⟩⟩

variable [DecidableEq β]

/-- What is to hold of a merge: it returns with a complete merge in the output directory, or leaves it as it was, absent or empty. -/
def MergesOrLeaves (pathErr : String → PyErr) (inputs : List (Partition β ε τ)) (outDir : String)
    (out : Option (MergeTarget β ε τ)) : Prop :=
  match mergeOrkaArtifactsInto pathErr inputs outDir out with
  | (.ok manifest, out') => ∃ dir, out' = some dir ∧ CompleteMerge inputs manifest dir
  | (.error _, out') => out' = out ∨ (isVacant out ∧ isVacant out')

/-- An input with one file and one entry, `w`. -/
def oneEntry (path : String) : Partition ℕ Unit Unit where
  path := path
  files := [("indices/w.idx", 7)]
  manifest := some (.ok ⟨⟨"orka", 3, "model", 8, "numpy", .none, .none, 0, .perTensor, 1, none, none⟩, [⟨.ok "w", .ok 1, ()⟩]⟩)
  passthrough := none

end MergeDirs

end Orka
