import Orka.Lemmas.DecodeLength
import Orka.Lib.JsonRound
import Orka.ReconstructFile

/-!
# What a reconstruction holds

The header of the file gives each tensor the place where its values are: the places follow one another without a gap up to the end of
the file, and each holds the float32 values of the tensor that counts for the name.
-/

set_option linter.unusedSectionVars false

namespace Orka

open Flat Json Steps

/-! ## The registry -/

section Registry

variable {τ : Type}

/-- The tensor that counts for a name: the packed one, else the one that passes through, else that of the source. -/
def expectedOrigin (packed : List TensorMeta) (passthrough source : List (SourceTensor τ)) (name : String) : Option (Origin τ) :=
  ((packed.reverse.find? fun tm => tm.name = name).map .quantized).or
    (((passthrough.reverse.find? fun t => t.name = name).map .passthrough).or
      ((source.find? fun t => t.name = name).map .sourceFallback))

/-- The fallback adds the first tensor of the source under each name that nothing holds yet. -/
theorem get_addFallback {packedNames : List String} {name : String} (hname : name ∉ packedNames) (ts : List (SourceTensor τ))
    (registry : List (String × Origin τ)) : Journal.get (addFallback packedNames ts registry) name =
      (Journal.get registry name).or ((ts.find? fun t => t.name = name).map .sourceFallback) := by
  induction ts generalizing registry with
  | nil => simp [addFallback]
  | cons t ts ih =>
    rw [addFallback]
    split
    · next hout =>
      rw [ih]
      by_cases ht : t.name = name
      · obtain ⟨origin, horigin⟩ := Option.ne_none_iff_exists'.1
          (mt Journal.get_eq_none.1 (not_not.2 (ht ▸ hout.resolve_left (ht ▸ hname))))
        rw [horigin, Option.some_or, Option.some_or]
      · rw [List.find?_cons_of_neg (by simpa using ht)]
    · next hnew =>
      rw [ih, Journal.get_append, Journal.get_cons, Journal.get_nil, Option.none_or]
      by_cases ht : t.name = name
      · have hnone : Journal.get registry name = none := Journal.get_eq_none.2 fun hmem => hnew (.inr (ht ▸ hmem))
        rw [if_pos ht, hnone, Option.some_or, Option.some_or, Option.none_or, List.find?_cons_of_pos (by simpa using ht)]
        rfl
      · rw [if_neg ht, Option.none_or, List.find?_cons_of_neg (by simpa using ht)]

/-- **Packed tensors come before those that pass through, and these before the source.** -/
theorem get_registryOf_eq_expected (sources : String → Option (List (SourceTensor τ))) (passthrough : Option (List (SourceTensor τ)))
    (manifest : PackManifest) (name : String) : Journal.get (registryOf sources passthrough manifest) name =
      expectedOrigin manifest.tensors (passthrough.getD []) ((sources manifest.header.source).getD []) name := by
  rw [registryOf, Journal.get_append, Journal.get_map_eq_find TensorMeta.name Origin.quantized, expectedOrigin]
  by_cases hname : name ∈ manifest.tensors.map TensorMeta.name
  · obtain ⟨tm, htm, rfl⟩ := List.mem_map.1 hname
    obtain ⟨tm', htm'⟩ := Option.isSome_iff_exists.1 (List.find?_isSome.2 ⟨tm, List.mem_reverse.2 htm, decide_eq_true rfl⟩ :
      (manifest.tensors.reverse.find? fun t => t.name = tm.name).isSome)
    rw [htm', Option.map_some, Option.some_or, Option.some_or]
  · rw [get_addFallback hname, byName, Journal.get_map_eq_find SourceTensor.name Origin.passthrough]

variable (registry : List (String × Origin τ))

/-- The entries stand in order of name. -/
theorem registryEntries_names : (registryEntries registry).map Prod.fst = sortedNames registry := by
  have hall : ∀ names : List String, (∀ name ∈ names, Journal.get registry name ≠ none) →
      (names.filterMap fun name => (Journal.get registry name).map fun origin => (name, origin)).map Prod.fst = names := by
    intro names
    induction names with
    | nil => exact fun _ => rfl
    | cons name names ih =>
      intro h
      obtain ⟨hname, hnames⟩ := List.forall_mem_cons.1 h
      obtain ⟨origin, horigin⟩ := Option.ne_none_iff_exists'.1 hname
      rw [List.filterMap_cons_some (by rw [horigin]; rfl), List.map_cons, ih hnames]
  exact hall _ fun name => mem_sortedNames.1

/-- An entry has the origin registered under its name. -/
theorem get_of_mem_registryEntries {entry : String × Origin τ} (h : entry ∈ registryEntries registry) :
    Journal.get registry entry.1 = some entry.2 := by
  obtain ⟨name, -, hentry⟩ := List.mem_filterMap.1 h
  obtain ⟨origin, horigin, rfl⟩ := Option.map_eq_some_iff.1 hentry
  exact horigin

/-- The names ascend strictly. -/
theorem sortedNames_pairwise : (sortedNames registry).Pairwise (· < ·) := by
  have hsorted : (sortedNames registry).Pairwise (· ≤ ·) := List.pairwise_insertionSort _ _
  have hnodup : (sortedNames registry).Nodup := (List.perm_insertionSort _ _).nodup_iff.2 (Journal.nodup_keys registry)
  exact hsorted.imp₂ (fun _ _ h hne => lt_of_le_of_ne h hne) hnodup

end Registry

/-! ## The layout -/

/-- A tensor in a file: its name and shape, the place of its bytes and the float32 patterns there. -/
structure Placement where
  name : String
  shape : List ℕ
  start : ℕ
  stop : ℕ
  values : List (BitVec 32)

/-- Places that follow one another from `start` to `stop`. -/
def Tiles : ℕ → List Placement → ℕ → Prop
  | start, [], stop => start = stop
  | start, p :: ps, stop => p.start = start ∧ p.start ≤ p.stop ∧ Tiles p.stop ps stop

/-- The header length that a file names. -/
def headerLength (file : List ℕ) : ℕ := Endian.ofLE (file.take 8)

/-- The header of a file. -/
def headerText (file : List ℕ) : Text := (file.drop 8).take (headerLength file)

/-- What follows the header. -/
def dataSection (file : List ℕ) : List ℕ := file.drop (8 + headerLength file)

/-- The entry of a tensor in the header. -/
def Placement.entry (p : Placement) : Text × Json.Value := (text p.name, headerEntry p.shape p.start p.stop)

/-- A safetensors file of float32 tensors: a padded header that names the places of all tensors, which tile what follows it, and at
each place the values of the tensor, the lowest byte first. -/
structure IsReconstruction (file : List ℕ) (device : Backend) (placed : List Placement) : Prop where
  aligned : 8 ∣ headerLength file
  fits : 8 + headerLength file ≤ file.length
  header : loads (headerText file) = some (.obj (metadataEntry device :: placed.map Placement.entry))
  tiles : Tiles 0 placed (dataSection file).length
  bytes : ∀ p ∈ placed, ((dataSection file).drop p.start).take (p.stop - p.start) =
    p.values.flatMap fun v => Endian.toLE 4 v.toNat

section Layout

variable {τ : Type}

/-- The places of tensors one after the other. -/
def place : List ((String × Origin τ) × List (BitVec 32)) → ℕ → List Placement
  | [], _ => []
  | ((name, origin), values) :: tensors, offset =>
    ⟨name, origin.shape, offset, offset + byteSize origin.shape, values⟩ :: place tensors (offset + byteSize origin.shape)

/-- Two names of one text are one name. -/
theorem text_injective : Function.Injective text := by
  intro s t h
  exact String.toList_injective (List.map_injective_iff.2 (fun _ _ => Char.toNat_inj.1) h)

/-- Placing keeps the names. -/
theorem map_name_place (tensors : List ((String × Origin τ) × List (BitVec 32))) (offset : ℕ) :
    (place tensors offset).map Placement.name = tensors.map fun t => t.1.1 := by
  induction tensors generalizing offset with
  | nil => rfl
  | cons t tensors ih => rw [place, List.map_cons, ih, List.map_cons]

/-- A placement has the name, shape and values of a tensor. -/
theorem mem_place {tensors : List ((String × Origin τ) × List (BitVec 32))} {offset : ℕ} {p : Placement} (h : p ∈ place tensors offset) :
    ∃ t ∈ tensors, p.name = t.1.1 ∧ p.shape = t.1.2.shape ∧ p.values = t.2 := by
  induction tensors generalizing offset with
  | nil => cases h
  | cons t tensors ih =>
    rcases List.mem_cons.1 h with rfl | h
    · exact ⟨t, List.mem_cons_self, rfl, rfl, rfl⟩
    · obtain ⟨t', ht', hp⟩ := ih h
      exact ⟨t', List.mem_cons_of_mem _ ht', hp⟩

/-- The header that is laid out, where no name is there yet or occurs twice. -/
theorem layOut_eq {tensors : List ((String × Origin τ) × List (BitVec 32))} {header : List (Text × Json.Value)} (offset : ℕ)
    (h : (header.map Prod.fst ++ tensors.map fun t => text t.1.1).Nodup) :
    layOut (tensors.map Prod.fst) offset header = header ++ (place tensors offset).map Placement.entry := by
  induction tensors generalizing offset header with
  | nil => simp [layOut, place]
  | cons t tensors ih =>
    have hnew : text t.1.1 ∉ header.map Prod.fst := fun hm => (List.nodup_append.1 h).2.2 _ hm _ List.mem_cons_self rfl
    rw [List.map_cons, layOut, setItem, if_neg hnew, ih _ (by simpa using h), place, List.map_cons, List.append_assoc]
    rfl

/-- Places that follow one another tile the bytes of their tensors. -/
theorem tiles_place (tensors : List ((String × Origin τ) × List (BitVec 32))) (offset : ℕ) :
    Tiles offset (place tensors offset) (offset + (tensors.map fun t => byteSize t.1.2.shape).sum) := by
  induction tensors generalizing offset with
  | nil => rfl
  | cons t tensors ih =>
    refine ⟨rfl, Nat.le_add_right _ _, ?_⟩
    rw [List.map_cons, List.sum_cons, ← Nat.add_assoc]
    exact ih _

/-- The bytes at each place, where every tensor has as many values as its shape. -/
theorem bytes_place {tensors : List ((String × Origin τ) × List (BitVec 32))} (h : ∀ t ∈ tensors, t.2.length = t.1.2.shape.prod)
    (front : List ℕ) : ∀ p ∈ place tensors front.length,
      ((front ++ tensors.flatMap fun t => t.2.flatMap fun v => Endian.toLE 4 v.toNat).drop p.start).take (p.stop - p.start) =
        p.values.flatMap fun v => Endian.toLE 4 v.toNat := by
  induction tensors generalizing front with
  | nil => exact fun p hp => absurd hp List.not_mem_nil
  | cons t tensors ih =>
    obtain ⟨ht, htensors⟩ := List.forall_mem_cons.1 h
    have hlen : (t.2.flatMap fun v => Endian.toLE 4 v.toNat).length = byteSize t.1.2.shape := by
      rw [List.length_flatMap]
      simp [byteSize, ht]
    intro p hp
    rcases List.mem_cons.1 hp with rfl | hp
    · rw [List.drop_left, List.flatMap_cons, Nat.add_sub_cancel_left]
      exact List.take_left' hlen
    · have := ih htensors (front ++ t.2.flatMap fun v => Endian.toLE 4 v.toNat) p (by rwa [List.length_append, hlen])
      rwa [List.append_assoc] at this

end Layout

/-! ## The header -/

/-- An entry of the header is plain. -/
theorem plain_headerEntry (shape : List ℕ) (start stop : ℕ) : Plain (headerEntry shape start stop) := by
  refine ⟨(by decide : [text "dtype", text "shape", text "data_offsets"].Nodup), plainMembers_iff.2 fun w hw => ?_⟩
  simp only [List.mem_cons, List.not_mem_nil, or_false] at hw
  rcases hw with rfl | rfl | rfl
  · exact ⟨isScalar_text, isScalar_text⟩
  · refine ⟨isScalar_text, plainItems_iff.2 fun v hv => ?_⟩
    obtain ⟨dim, -, rfl⟩ := List.mem_map.1 hv
    trivial
  · exact ⟨isScalar_text, trivial, trivial, trivial⟩

/-- A header of distinct names is read back, padded or not. -/
theorem loads_header (device : Backend) {placed : List Placement}
    (hn : (metadataEntry device :: placed.map Placement.entry).map Prod.fst |>.Nodup) :
    loads (padHeader (dumps compact (.obj (metadataEntry device :: placed.map Placement.entry)))) =
      some (.obj (metadataEntry device :: placed.map Placement.entry)) := by
  have hplain : Plain (.obj (metadataEntry device :: placed.map Placement.entry)) := by
    refine ⟨hn, plainMembers_iff.2 ?_⟩
    rintro w (_ | ⟨_, hw⟩)
    · exact ⟨isScalar_text, by simp, isScalar_text, isScalar_text, trivial⟩
    · obtain ⟨p, -, rfl⟩ := List.mem_map.1 hw
      exact ⟨isScalar_text, plain_headerEntry _ _ _⟩
  refine loads_dumps compact hplain fun c hc => ?_
  rw [List.eq_of_mem_replicate hc]
  rfl

/-- The padded header ends at a multiple of eight. -/
theorem padHeader_aligned (header : Text) : 8 ∣ (padHeader header).length := by
  rw [padHeader, List.length_append, List.length_replicate]
  exact Nat.dvd_of_mod_eq_zero (by omega)

/-! ## The file -/

section File

variable {τ α : Type} [Field α] [LinearOrder α] [IsStrictOrderedRing α] [FloorRing α]
variable (num : Numerics α) (flat : τ → List α) (f32 : α → BitVec 32)

/-- An entry whose tensor is stored whole: all values of its shape are packed and can be decoded, and the factors of a low-rank
correction belong to the shape. -/
structure StoredWhole (device : Backend) (store : Store α) (tm : TensorMeta) : Prop where
  full : tm.packedValues = tm.shape.prod
  packed_le : tm.packedValues ≤ tm.paddedValues
  decodes : ∃ values, decodeOn num device store tm = .ok values
  lowrank : LowrankFits num store tm

/-- A tensor stored whole decodes to as many values as its shape has. -/
theorem StoredWhole.exists_values {device : Backend} {store : Store α} {tm : TensorMeta} (h : StoredWhole num device store tm) :
    ∃ values, decodeOn num device store tm = .ok values ∧ values.length = tm.shape.prod := by
  obtain ⟨values, hvalues⟩ := h.decodes
  refine ⟨values, hvalues, ?_⟩
  cases device with
  | numpy => exact length_of_decodeTensor h.full h.packed_le h.lowrank hvalues
  | torch => exact length_of_decodeTensorTorch hvalues

/-- The bytes of a file with a header of `n` bytes. -/
theorem file_parts {n : ℕ} (hn : n < 256 ^ 8) {header : List ℕ} (hlen : header.length = n) (data : List ℕ) :
    headerLength (Endian.toLE 8 n ++ header ++ data) = n ∧ headerText (Endian.toLE 8 n ++ header ++ data) = header ∧
      dataSection (Endian.toLE 8 n ++ header ++ data) = data := by
  have hlength : headerLength (Endian.toLE 8 n ++ header ++ data) = n := by
    rw [headerLength, List.append_assoc, List.take_left' (Endian.length_toLE 8 n), Endian.ofLE_toLE hn]
  refine ⟨hlength, ?_, ?_⟩
  · rw [headerText, hlength, List.append_assoc, List.drop_left' (Endian.length_toLE 8 n), List.take_left' hlen]
  · rw [dataSection, hlength, List.drop_left' (by rw [List.length_append, Endian.length_toLE, hlen])]

variable {num flat} in
/-- The values of every tensor of the registry are as many as its shape has. -/
theorem exists_originData {sources : String → Option (List (SourceTensor τ))} {dir : Directory α τ} {manifest : PackManifest}
    {device : Backend} (hpacked : ∀ tm ∈ manifest.tensors, StoredWhole num device dir.store tm)
    (hpassthrough : ∀ t ∈ dir.passthrough.getD [], (flat t.value).length = t.shape.prod)
    (hsource : ∀ t ∈ (sources manifest.header.source).getD [], (flat t.value).length = t.shape.prod) {name : String} {origin : Origin τ}
    (h : expectedOrigin manifest.tensors (dir.passthrough.getD []) ((sources manifest.header.source).getD []) name = some origin) :
    ∃ values, originData num flat device dir.store origin = .ok values ∧ values.length = origin.shape.prod := by
  rw [expectedOrigin, Option.or_eq_some_iff, Option.or_eq_some_iff] at h
  rcases h with h | ⟨-, h | ⟨-, h⟩⟩
  · obtain ⟨tm, htm, rfl⟩ := Option.map_eq_some_iff.1 h
    exact (hpacked tm (List.mem_reverse.1 (List.mem_of_find?_eq_some htm))).exists_values
  · obtain ⟨t, ht, rfl⟩ := Option.map_eq_some_iff.1 h
    exact ⟨_, rfl, hpassthrough t (List.mem_reverse.1 (List.mem_of_find?_eq_some ht))⟩
  · obtain ⟨t, ht, rfl⟩ := Option.map_eq_some_iff.1 h
    exact ⟨_, rfl, hsource t (List.mem_of_find?_eq_some ht)⟩

/-- Tensors laid out one after the other under distinct names, behind a padded header. -/
theorem isReconstruction_place {device : Backend} {tensors : List ((String × Origin τ) × List (BitVec 32))}
    (hn : (tensors.map fun t => t.1.1).Nodup) (hmeta : "__metadata__" ∉ tensors.map fun t => t.1.1)
    (hshape : ∀ t ∈ tensors, t.2.length = t.1.2.shape.prod)
    (hsize : (padHeader (headerJson device (tensors.map Prod.fst))).length < 256 ^ 8) :
    IsReconstruction (Endian.toLE 8 (padHeader (headerJson device (tensors.map Prod.fst))).length ++
      padHeader (headerJson device (tensors.map Prod.fst)) ++ tensors.flatMap fun t => t.2.flatMap fun v => Endian.toLE 4 v.toNat)
      device (place tensors 0) := by
  have hkeys : ([metadataEntry device].map Prod.fst ++ tensors.map fun t => text t.1.1).Nodup := by
    have htext : (tensors.map fun t => text t.1.1) = (tensors.map fun t => t.1.1).map text := by rw [List.map_map]; rfl
    rw [htext, List.map_singleton, List.singleton_append, List.nodup_cons]
    refine ⟨fun h => ?_, hn.map text_injective⟩
    obtain ⟨name, hname, he⟩ := List.mem_map.1 h
    exact hmeta (text_injective he ▸ hname)
  have hheader : headerJson device (tensors.map Prod.fst) =
      dumps compact (.obj (metadataEntry device :: (place tensors 0).map Placement.entry)) := by
    rw [headerJson, layOut_eq 0 hkeys, List.singleton_append]
  have hentries : ((metadataEntry device :: (place tensors 0).map Placement.entry).map Prod.fst).Nodup := by
    have hnames : ((place tensors 0).map Placement.entry).map Prod.fst = tensors.map fun t => text t.1.1 := by
      have hcomp : ((place tensors 0).map Placement.entry).map Prod.fst = ((place tensors 0).map Placement.name).map text := by
        rw [List.map_map, List.map_map]
        rfl
      rw [hcomp, map_name_place, List.map_map]
      rfl
    rw [List.map_cons, hnames]
    exact hkeys
  have hheader' : (padHeader (headerJson device (tensors.map Prod.fst))).length = _ := rfl
  obtain ⟨hlength, htext, hdata⟩ := file_parts hsize hheader' (tensors.flatMap fun t => t.2.flatMap fun v => Endian.toLE 4 v.toNat)
  constructor
  · rw [hlength]
    exact padHeader_aligned _
  · rw [hlength, List.length_append, List.length_append, Endian.length_toLE]
    exact Nat.le_add_right _ _
  · rw [htext, hheader]
    exact loads_header device hentries
  · have htotal : (tensors.flatMap fun t => t.2.flatMap fun v => Endian.toLE 4 v.toNat).length =
        0 + (tensors.map fun t => byteSize t.1.2.shape).sum := by
      rw [List.length_flatMap, Nat.zero_add]
      refine congrArg List.sum (List.map_congr_left fun t ht => ?_)
      rw [List.length_flatMap]
      simp [byteSize, hshape t ht]
    rw [hdata, htotal]
    exact tiles_place tensors 0
  · rw [hdata]
    exact bytes_place hshape []

variable {num flat} in
/-- What is written: the length of the header, the header, and the values of every tensor in the order of the header. -/
theorem writeReconstructionBinary_eq {sources : String → Option (List (SourceTensor τ))} {dir : Directory α τ} {manifest : PackManifest}
    {device : Backend} {valuesOf : String × Origin τ → List α} {tensors : List ((String × Origin τ) × List (BitVec 32))}
    (hok : ∀ entry ∈ registryEntries (registryOf sources dir.passthrough manifest),
      originData num flat device dir.store entry.2 = .ok (valuesOf entry))
    (htensors : tensors =
      (registryEntries (registryOf sources dir.passthrough manifest)).map fun entry => (entry, (valuesOf entry).map f32))
    (hfst : tensors.map Prod.fst = registryEntries (registryOf sources dir.passthrough manifest))
    (hsize : (padHeader (headerJson device (tensors.map Prod.fst))).length < 256 ^ 8) :
    writeReconstructionBinary num flat f32 sources dir manifest device =
      .ok (Endian.toLE 8 (padHeader (headerJson device (tensors.map Prod.fst))).length ++
        padHeader (headerJson device (tensors.map Prod.fst)) ++ tensors.flatMap fun t => t.2.flatMap fun v => Endian.toLE 4 v.toNat) := by
  have hdata : (registryEntries (registryOf sources dir.passthrough manifest)).mapM (fun entry =>
      (originData num flat device dir.store entry.2).map (floatBytes f32)) =
      .ok (tensors.map fun t => t.2.flatMap fun v => Endian.toLE 4 v.toNat) := by
    rw [htensors, List.map_map]
    refine mapM_ok fun entry he => ?_
    rw [hok entry he, ok_map, floatBytes, Function.comp_apply, List.flatMap_map]
  rw [← hfst] at hdata
  unfold writeReconstructionBinary
  simp only [← hfst, packQ, if_pos hsize, ok_bind, hdata, ok_map]
  rw [List.flatMap_def]

/-- **The file of a reconstruction**: where every entry is stored whole and no tensor has the reserved name, the file is written, its
header is aligned and names places that tile the data, and at the place of each name are the float32 values of the tensor that counts
for it. -/
theorem writeReconstructionBinary_spec (sources : String → Option (List (SourceTensor τ))) (dir : Directory α τ)
    (manifest : PackManifest) (device : Backend)
    (hpacked : ∀ tm ∈ manifest.tensors, StoredWhole num device dir.store tm)
    (hpassthrough : ∀ t ∈ dir.passthrough.getD [], (flat t.value).length = t.shape.prod)
    (hsource : ∀ t ∈ (sources manifest.header.source).getD [], (flat t.value).length = t.shape.prod)
    (hnames : expectedOrigin manifest.tensors (dir.passthrough.getD []) ((sources manifest.header.source).getD []) "__metadata__" = none)
    (hsize : (padHeader (headerJson device (registryEntries (registryOf sources dir.passthrough manifest)))).length < 256 ^ 8) :
    ∃ file placed, writeReconstructionBinary num flat f32 sources dir manifest device = .ok file ∧
      IsReconstruction file device placed ∧ (placed.map Placement.name).Pairwise (· < ·) ∧
      (∀ name, name ∈ placed.map Placement.name ↔
        expectedOrigin manifest.tensors (dir.passthrough.getD []) ((sources manifest.header.source).getD []) name ≠ none) ∧
      ∀ p ∈ placed, ∃ origin values,
        expectedOrigin manifest.tensors (dir.passthrough.getD []) ((sources manifest.header.source).getD []) p.name = some origin ∧
          p.shape = origin.shape ∧ originData num flat device dir.store origin = .ok values ∧ p.values = values.map f32 := by
  have hentry : ∀ entry ∈ registryEntries (registryOf sources dir.passthrough manifest),
      expectedOrigin manifest.tensors (dir.passthrough.getD []) ((sources manifest.header.source).getD []) entry.1 = some entry.2 := by
    intro entry he
    rw [← get_registryOf_eq_expected, get_of_mem_registryEntries _ he]
  have hvalues : ∀ entry ∈ registryEntries (registryOf sources dir.passthrough manifest),
      ∃ values, originData num flat device dir.store entry.2 = .ok values ∧ values.length = entry.2.shape.prod :=
    fun entry he => exists_originData hpacked hpassthrough hsource (hentry entry he)
  choose! valuesOf hok hlen using hvalues
  -- the tensors of the file in their order
  obtain ⟨tensors, htensors⟩ : ∃ tensors : List ((String × Origin τ) × List (BitVec 32)), tensors =
      (registryEntries (registryOf sources dir.passthrough manifest)).map fun entry => (entry, (valuesOf entry).map f32) := ⟨_, rfl⟩
  have hfst : tensors.map Prod.fst = registryEntries (registryOf sources dir.passthrough manifest) := by
    rw [htensors, List.map_map]
    exact List.map_id _
  have hnames' : (tensors.map fun t => t.1.1) = sortedNames (registryOf sources dir.passthrough manifest) := by
    rw [← registryEntries_names, ← hfst, List.map_map]
    rfl
  have hsorted := sortedNames_pairwise (registryOf sources dir.passthrough manifest)
  have hmem : ∀ name, name ∈ (tensors.map fun t => t.1.1) ↔
      expectedOrigin manifest.tensors (dir.passthrough.getD []) ((sources manifest.header.source).getD []) name ≠ none := by
    intro name
    rw [hnames', mem_sortedNames, get_registryOf_eq_expected]
  rw [← hfst] at hsize
  refine ⟨_, place tensors 0, writeReconstructionBinary_eq f32 hok htensors hfst hsize, isReconstruction_place ?_ ?_ ?_ hsize, ?_, ?_, ?_⟩
  · rw [hnames']
    exact hsorted.imp fun h => ne_of_lt h
  · rw [hmem, hnames]
    exact fun h => h rfl
  · intro t ht
    rw [htensors] at ht
    obtain ⟨entry, he, rfl⟩ := List.mem_map.1 ht
    rw [List.length_map, hlen entry he]
  · rw [map_name_place, hnames']
    exact hsorted
  · intro name
    rw [map_name_place]
    exact hmem name
  · intro p hp
    obtain ⟨t, ht, hname, hshape, hv⟩ := mem_place hp
    rw [htensors] at ht
    obtain ⟨entry, he, rfl⟩ := List.mem_map.1 ht
    exact ⟨entry.2, valuesOf entry, by rw [hname]; exact hentry entry he, hshape, hok entry he, hv⟩

end File

/-! ## Three tensors -/

/-- A packed tensor `w` of two values, beside `b`, which passes through. -/
def wholeDirectory : Directory ℚ (List ℚ) where
  files := [("cb", .floats .float16 [1, 2]), ("idx", .stream .raw [0])]
  passthrough := some [⟨"b", [1], [3]⟩]

def wholeManifest : PackManifest where
  header := ⟨"orka", 3, "model", 2, "numpy", .none, .none, 0, .perTensor, 1, none, none⟩
  partition := none
  tensors := [{ name := "w", shape := [2], packedValues := 2, paddedValues := 2, groupSize := 2,
                stages := [{ codebook := "cb", codebookSize := 1, codebookDtype := some .float16, indexBits := 1, indices := "idx" }],
                codebook := "cb", codebookSize := 1, indexBits := 1, indices := "idx" }]

/-- The patterns of the values that occur. -/
def smallFloat32 (v : ℚ) : BitVec 32 :=
  if v = 1 then 0x3F800000 else if v = 2 then 0x40000000 else if v = 3 then 0x40400000 else if v = 5 then 0x40A00000 else 0

/-- The source has another `b` and a scalar `n` of its own. -/
theorem writeReconstructionBinary_spec_whole :
    ∃ file placed, writeReconstructionBinary rationalNumerics id smallFloat32 (fun _ => some [⟨"b", [1], [4]⟩, ⟨"n", [], [5]⟩])
        wholeDirectory wholeManifest .numpy = .ok file ∧ IsReconstruction file .numpy placed ∧ "w" ∈ placed.map Placement.name := by
  obtain ⟨file, placed, hwrite, hfile, -, hnames, -⟩ := writeReconstructionBinary_spec rationalNumerics id smallFloat32
    (fun _ => some [⟨"b", [1], [4]⟩, ⟨"n", [], [5]⟩]) wholeDirectory wholeManifest .numpy
    (fun tm htm => by
      obtain rfl := List.mem_singleton.1 htm
      exact ⟨rfl, by decide, ⟨[1, 2], by decide +kernel⟩, fun lr h => nomatch h⟩)
    (by decide) (by decide) (by decide +kernel) (by decide +kernel)
  exact ⟨file, placed, hwrite, hfile, (hnames "w").2 (by decide +kernel)⟩

end Orka
