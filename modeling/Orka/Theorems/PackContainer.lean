import Orka.Lib.JsonSearch
import Orka.Lib.Steps
import Orka.PackContainer

/-!
# What a container keeps

A packed directory is unpacked to the same files, and its digest is found right.
-/

namespace Orka

open Dynamic Json Paths Search

/-! ## Trees of files -/

/-- The files of a directory: no two have one path, and each component of a path is a name a directory can hold. -/
structure FileTree (files : List TreeFile) : Prop where
  nodup : (files.map TreeFile.path).Nodup
  nonempty : ∀ f ∈ files, f.path ≠ []
  components : ∀ f ∈ files, ∀ q ∈ f.path, q ≠ [] ∧ q ≠ [posix.dot] ∧ posix.sep ∉ q
  scalar : ∀ f ∈ files, ∀ q ∈ f.path, ∀ c ∈ q, IsScalar c

variable {files : List TreeFile}

/-- The order of the files does not matter. -/
theorem FileTree.perm {files' : List TreeFile} (h : FileTree files) (hperm : files'.Perm files) : FileTree files' where
  nodup := (hperm.map TreeFile.path).nodup_iff.2 h.nodup
  nonempty f hf := h.nonempty f (hperm.subset hf)
  components f hf := h.components f (hperm.subset hf)
  scalar f hf := h.scalar f (hperm.subset hf)

/-- A path is read back from its name. -/
theorem FileTree.parts_rel (h : FileTree files) {f : TreeFile} (hf : f ∈ files) : parts posix f.rel = f.path := by
  have hsplit : f.rel.splitOn posix.sep = f.path :=
    List.splitOn_intercalate posix.sep (fun q hq => (h.components f hf q hq).2.2) (h.nonempty f hf)
  rw [parts, hsplit, List.filter_eq_self]
  intro q hq
  obtain ⟨hne, hdot, -⟩ := h.components f hf q hq
  simp only [ne_eq, hne, not_false_eq_true, hdot, and_self, decide_true]

/-- No file of a tree has an absolute name. -/
theorem FileTree.not_absolute (h : FileTree files) {f : TreeFile} (hf : f ∈ files) : ¬ Absolute posix f.rel := by
  obtain ⟨q, rest, hpath⟩ := List.exists_cons_of_ne_nil (h.nonempty f hf)
  obtain ⟨hne, -, hsep⟩ := h.components f hf q (hpath ▸ List.mem_cons_self)
  obtain ⟨c, cs, rfl⟩ := List.exists_cons_of_ne_nil hne
  have hhead : f.rel.head? = some c := by
    rw [TreeFile.rel, hpath]
    cases rest <;> rfl
  intro habs
  rw [Absolute, hhead] at habs
  exact hsep (Option.some.inj habs ▸ List.mem_cons_self)

/-- Joining a file's name to a directory gives its path there. -/
theorem FileTree.join_rel (h : FileTree files) {f : TreeFile} (hf : f ∈ files) (outDir : FilePath) :
    join posix outDir f.rel = outDir ++ f.path := by
  rw [join, if_neg (h.not_absolute hf), h.parts_rel hf]

/-- Files with one name are one file. -/
theorem FileTree.rel_nodup (h : FileTree files) : (files.map TreeFile.rel).Nodup := by
  have hpaths : (files.map fun f => parts posix f.rel).Nodup := by
    rw [List.map_congr_left fun f hf => h.parts_rel hf]
    exact h.nodup
  exact List.Nodup.of_map (parts posix) (by rwa [List.map_map])

/-- File names are made of scalar values. -/
theorem FileTree.scalar_rel (h : FileTree files) {f : TreeFile} (hf : f ∈ files) : ∀ c ∈ f.rel, IsScalar c := by
  have hall : ∀ path : List Text, (∀ q ∈ path, ∀ c ∈ q, IsScalar c) → ∀ c ∈ [posix.sep].intercalate path, IsScalar c := by
    intro path
    induction path with
    | nil => exact fun _ c hc => absurd hc List.not_mem_nil
    | cons q path ih =>
      intro hpath c hc
      obtain ⟨hq, hpath⟩ := List.forall_mem_cons.1 hpath
      cases path with
      | nil => exact hq c (by simpa using hc)
      | cons r path =>
        rw [List.intercalate_cons_cons, List.mem_append, List.mem_append] at hc
        rcases hc with (hc | hc) | hc
        · exact hq c hc
        · obtain rfl := List.mem_singleton.1 hc
          exact .inl (by decide)
        · exact ih hpath c hc
  exact hall f.path (h.scalar f hf)

/-- The order of the paths is a permutation of the files. -/
theorem perm_sortedFiles (files : List TreeFile) : (sortedFiles files).Perm files := List.perm_insertionSort _ files

/-! ## The layout of the payload -/

/-- The bytes of all files. -/
def payloadOf (files : List TreeFile) : List ℕ := files.flatMap TreeFile.contents

/-- Every file that is not empty is laid out, once. -/
theorem layOutFiles_files (files : List TreeFile) (offset : ℕ) :
    (layOutFiles files offset).map Prod.fst = files.filter fun f => f.contents.length ≠ 0 := by
  induction files generalizing offset with
  | nil => rfl
  | cons f files ih =>
    rw [layOutFiles]
    by_cases hf : f.contents.length = 0
    · rw [if_pos hf, ih, List.filter_cons_of_neg (by simpa using hf)]
    · rw [if_neg hf, List.map_cons, ih, List.filter_cons_of_pos (by simpa using hf)]

/-- A file stands at its offset. -/
theorem layOutFiles_at {files : List TreeFile} {before : List ℕ} {w : TreeFile × ℕ} (h : w ∈ layOutFiles files before.length) :
    w.1.contents <+: (before ++ payloadOf files).drop w.2 := by
  induction files generalizing before with
  | nil => exact absurd h List.not_mem_nil
  | cons f files ih =>
    rw [layOutFiles] at h
    have hcons : before ++ payloadOf (f :: files) = before ++ f.contents ++ payloadOf files := by
      rw [payloadOf, List.flatMap_cons, List.append_assoc, ← payloadOf]
    rw [hcons]
    split at h
    · next hf =>
      rw [List.eq_nil_of_length_eq_zero hf, List.append_nil]
      exact ih h
    · rcases List.mem_cons.1 h with rfl | h
      · rw [List.append_assoc, List.drop_left]
        exact List.prefix_append _ _
      · rw [← List.length_append] at h
        exact ih h

/-- The offsets ascend. -/
theorem pairwise_layOutFiles (files : List TreeFile) (offset : ℕ) :
    (layOutFiles files offset).Pairwise (fun v w => v.2 ≤ w.2) ∧ ∀ w ∈ layOutFiles files offset, offset ≤ w.2 := by
  induction files generalizing offset with
  | nil => exact ⟨.nil, fun w hw => absurd hw List.not_mem_nil⟩
  | cons f files ih =>
    rw [layOutFiles]
    split_ifs
    · exact ih offset
    · obtain ⟨hpair, hle⟩ := ih (offset + f.contents.length)
      have hlater : ∀ w ∈ layOutFiles files (offset + f.contents.length), offset ≤ w.2 := fun w hw =>
        (Nat.le_add_right _ _).trans (hle w hw)
      exact ⟨List.pairwise_cons.2 ⟨hlater, hpair⟩, List.forall_mem_cons.2 ⟨le_rfl, hlater⟩⟩

/-- The contents in the order laid out are the payload. -/
theorem layOutFiles_payload (files : List TreeFile) (offset : ℕ) :
    (layOutFiles files offset).flatMap (fun w => w.1.contents) = payloadOf files := by
  rw [← List.flatMap_map Prod.fst TreeFile.contents, layOutFiles_files, payloadOf]
  induction files with
  | nil => rfl
  | cons f files ih =>
    by_cases hf : f.contents.length = 0
    · rw [List.filter_cons_of_neg (by simpa using hf), ih, List.flatMap_cons, List.eq_nil_of_length_eq_zero hf, List.nil_append]
    · rw [List.filter_cons_of_pos (by simpa using hf), List.flatMap_cons, ih, List.flatMap_cons]

/-- A file ends before the payload does. -/
theorem layOutFiles_le {files : List TreeFile} {offset : ℕ} {w : TreeFile × ℕ} (h : w ∈ layOutFiles files offset) :
    w.2 + w.1.contents.length ≤ offset + (payloadOf files).length := by
  induction files generalizing offset with
  | nil => exact absurd h List.not_mem_nil
  | cons f files ih =>
    rw [layOutFiles] at h
    rw [payloadOf, List.flatMap_cons, List.length_append, ← payloadOf]
    split at h
    · have hlater := ih h
      omega
    · rcases List.mem_cons.1 h with rfl | h
      · simp only
        omega
      · have hlater := ih h
        omega

theorem mem_of_mem_layOutFiles {files : List TreeFile} {offset : ℕ} {w : TreeFile × ℕ} (h : w ∈ layOutFiles files offset) :
    w.1 ∈ files :=
  List.mem_of_mem_filter (layOutFiles_files files offset ▸ List.mem_map_of_mem h)

/-! ## The placeholder -/

/-- No name of the header has the placeholder. -/
structure AvoidsNames (artifactName : Text) (files : List TreeFile) : Prop where
  artifact : ¬ placeholder <:+: escapeText artifactName
  files : ∀ f ∈ files, ¬ placeholder <:+: escapeText f.rel

theorem mem_placeholder {c : ℕ} (h : c ∈ placeholder) : c = 48 := List.eq_of_mem_replicate h

/-- A short text does not have the placeholder. -/
theorem not_infix_of_length_lt {t : Text} (h : t.length < 64) : ¬ placeholder <:+: t := fun hinfix =>
  absurd hinfix.length_le (by rw [placeholder, List.length_replicate]; omega)

/-- No separator of the style runs into the placeholder. -/
theorem foreign_placeholder (σ : Style) (hcomma : 48 ∉ σ.afterComma) (hcolon : 48 ∉ σ.afterColon) : Foreign σ placeholder where
  nonempty := List.cons_ne_nil _ _
  marks c hc hmem := by
    obtain rfl := mem_placeholder hmem
    exact absurd hc (by decide)
  comma _ hc hmem := hcomma (mem_placeholder hmem ▸ hc)
  colon _ hc hmem := hcolon (mem_placeholder hmem ▸ hc)
  words word hword := by
    have hshort : ∀ word ∈ [text "null", text "true", text "false"], word.length < 64 := by decide
    exact not_infix_of_length_lt (hshort word hword)

/-- The numbers of a header have at most twenty digits. -/
theorem not_infix_intText {n : ℕ} (h : n < 256 ^ 8) : ¬ placeholder <:+: intText n := by
  have hlength : (Nat.toDigits 10 n).length ≤ 20 := (Nat.length_toDigits_le_iff (by decide) (by decide)).2 (h.trans_le (by norm_num))
  refine not_infix_of_length_lt ?_
  rw [intText, if_neg (by omega), Int.natAbs_natCast, digitsOf, List.length_map]
  omega

section Avoids

variable {artifactName : Text}

/-- No entry of the header holds the placeholder. -/
theorem avoids_containerEntry (hnames : AvoidsNames artifactName files) (hbound : (payloadOf files).length < 256 ^ 8)
    {w : TreeFile × ℕ} (hw : w ∈ layOutFiles files 0) :
    ¬ placeholder <:+: escapeText (containerEntry w).1 ∧ Avoids placeholder (escaped (containerEntry w).2) := by
  have hle := layOutFiles_le hw
  have hwords : ∀ word ∈ [text "dtype", text "U8", text "shape", text "data_offsets"], (escapeText word).length < 64 := by decide
  have hword : ∀ word ∈ [text "dtype", text "U8", text "shape", text "data_offsets"], ¬ placeholder <:+: escapeText word :=
    fun word hword => not_infix_of_length_lt (hwords word hword)
  refine ⟨hnames.files _ (mem_of_mem_layOutFiles hw), hword _ (by decide), hword _ (by decide), hword _ (by decide), ⟨?_, trivial⟩,
    hword _ (by decide), ⟨?_, ?_, trivial⟩, trivial⟩
  · exact not_infix_intText (by omega)
  · exact not_infix_intText (by omega)
  · exact not_infix_intText (n := w.2 + w.1.contents.length) (by omega)

/-- No escape is written with a zero. -/
theorem not_mem_placeholder_of_escape {c e : ℕ} (he : escape c = [backslash, e]) : e ∉ placeholder := by
  intro hmem
  obtain rfl := mem_placeholder hmem
  unfold escape at he
  split at he
  · next hletter =>
    obtain ⟨-, he⟩ := List.cons.inj he
    obtain rfl := (List.cons.inj he).1
    unfold escapeLetter at hletter
    split_ifs at hletter <;> exact absurd hletter (by decide)
  · split_ifs at he <;> simp [unicodeEscape] at he

theorem not_infix_escapeText {t : Text} (ht : ∀ c ∈ t, Printable c) (h : ¬ placeholder <:+: t) : ¬ placeholder <:+: escapeText t :=
  fun hinfix => h (infix_of_infix_escapeText ht (by decide) (fun _ _ _ he => not_mem_placeholder_of_escape he) hinfix)

/-- Printing the list of empty files twice brings no placeholder about. -/
theorem avoids_emptyFiles {empty : List Text} (hscalar : ∀ name ∈ empty, ∀ c ∈ name, IsScalar c)
    (hempty : ∀ name ∈ empty, ¬ placeholder <:+: escapeText name) :
    ¬ placeholder <:+: escapeText (dumps spaced (.arr (empty.map .str))) := by
  have hplain : Plain (.arr (empty.map .str)) := by
    rw [Plain, plainItems_iff]
    rintro v hv
    obtain ⟨name, hname, rfl⟩ := List.mem_map.1 hv
    exact hscalar name hname
  refine not_infix_escapeText (fun c hc => printable_dumps (by decide) (by decide) hplain hc) ?_
  refine not_infix_render (foreign_placeholder spaced (by decide) (by decide)) (escaped (.arr (empty.map .str))) ?_
  rw [escaped, Avoids, avoidsItems_iff, escapedItems_eq_map, List.map_map]
  intro v hv
  obtain ⟨name, hname, rfl⟩ := List.mem_map.1 hv
  exact hempty name hname

/-- The metadata without its digest. -/
theorem avoids_containerMetadata (hartifact : ¬ placeholder <:+: escapeText artifactName) {count : ℕ} (hcount : count < 256 ^ 8)
    {empty : List Text} (hscalar : ∀ name ∈ empty, ∀ c ∈ name, IsScalar c)
    (hempty : ∀ name ∈ empty, ¬ placeholder <:+: escapeText name) :
    Avoids placeholder (escaped (.obj (containerMetadata artifactName count empty []))) := by
  have hwords : ∀ word ∈ [text "orka_container", text "1", text "artifact_name", text "file_count", text "empty_files", text "sha256", []],
      (escapeText word).length < 64 := by decide
  have hword : ∀ word ∈ [text "orka_container", text "1", text "artifact_name", text "file_count", text "empty_files", text "sha256", []],
      ¬ placeholder <:+: escapeText word := fun word hword => not_infix_of_length_lt (hwords word hword)
  refine ⟨hword _ (by decide), hword _ (by decide), hword _ (by decide), hartifact, hword _ (by decide), ?_, hword _ (by decide),
    avoids_emptyFiles hscalar hempty, hword _ (by decide), hword _ (by decide), trivial⟩
  exact not_infix_escapeText (fun c hc => printable_intText hc) (not_infix_intText hcount)

end Avoids

/-! ## The header -/

/-- The names of the files that are empty, in the order of the paths. -/
def emptyNames (files : List TreeFile) : List Text :=
  ((sortedFiles files).filter fun f => f.contents.length = 0).map TreeFile.rel

/-- The header of the files with a digest, in bytes. -/
def headerBlob (artifactName : Text) (files : List TreeFile) (digest : Text) : Text :=
  containerBlob (containerHeader artifactName (layOutFiles (sortedFiles files) 0) (emptyNames files) digest)

/-- What packing relies on: there are files, their number, their bytes and the header can be counted with eight bytes, no file is
named as the metadata is, and no name has the placeholder. -/
structure Packable (artifactName : Text) (files : List TreeFile) : Prop where
  tree : FileTree files
  nonempty : files ≠ []
  count : files.length < 256 ^ 8
  payload : (payloadOf files).length < 256 ^ 8
  header : (headerBlob artifactName files placeholder).length < 256 ^ 8
  artifact : ∀ c ∈ artifactName, IsScalar c
  metadata : ∀ f ∈ files, f.rel ≠ text "__metadata__"
  avoids : AvoidsNames artifactName files

section Header

variable {artifactName : Text}

theorem length_payload_sortedFiles (files : List TreeFile) : (payloadOf (sortedFiles files)).length = (payloadOf files).length :=
  ((perm_sortedFiles files).flatMap_right _).length_eq

/-- Every file is an entry or an empty name. -/
theorem length_entries (files : List TreeFile) : (layOutFiles (sortedFiles files) 0).length + (emptyNames files).length = files.length := by
  have hfull : (layOutFiles (sortedFiles files) 0).length = ((sortedFiles files).filter fun f => f.contents.length ≠ 0).length := by
    rw [← layOutFiles_files, List.length_map]
  have hsplit := (List.filter_append_perm (fun f : TreeFile => decide (f.contents.length = 0)) (sortedFiles files)).length_eq
  rw [List.length_append, (perm_sortedFiles files).length_eq] at hsplit
  rw [hfull, emptyNames, List.length_map, ← hsplit, Nat.add_comm]
  simp only [ne_eq, decide_not]

/-- The keys of the entries are the names of the files, none of them twice. -/
theorem Packable.keys_entries (h : Packable artifactName files) :
    (((layOutFiles (sortedFiles files) 0).map containerEntry).map Prod.fst ++ [text "__metadata__"]).Nodup := by
  have hkeys : ((layOutFiles (sortedFiles files) 0).map containerEntry).map Prod.fst =
      ((sortedFiles files).filter fun f => f.contents.length ≠ 0).map TreeFile.rel := by
    rw [← layOutFiles_files _ 0, List.map_map, List.map_map]
    rfl
  rw [hkeys]
  refine List.nodup_append.2 ⟨?_, List.nodup_singleton _, fun a ha b hb => ?_⟩
  · exact (h.tree.perm (perm_sortedFiles files)).rel_nodup.sublist (List.filter_sublist.map _)
  · obtain ⟨f, hf, rfl⟩ := List.mem_map.1 ha
    obtain rfl := List.mem_singleton.1 hb
    exact h.metadata f ((perm_sortedFiles files).subset (List.mem_of_mem_filter hf))

/-- The header has an entry for each file that is not empty, and the metadata last. -/
theorem Packable.containerHeader_eq (h : Packable artifactName files) (digest : Text) :
    containerHeader artifactName (layOutFiles (sortedFiles files) 0) (emptyNames files) digest =
      (layOutFiles (sortedFiles files) 0).map containerEntry ++
        [(text "__metadata__", .obj (containerMetadata artifactName files.length (emptyNames files) digest))] := by
  obtain ⟨hnodup, -, hmeta⟩ := List.nodup_append.1 h.keys_entries
  have hnew : text "__metadata__" ∉ ((layOutFiles (sortedFiles files) 0).map containerEntry).map Prod.fst := fun hmem =>
    hmeta _ hmem _ List.mem_cons_self rfl
  rw [containerHeader, dictOf_of_nodup hnodup, Json.setItem, if_neg hnew, length_entries]

/-- The names of the empty files are scalar and hold no placeholder. -/
theorem Packable.emptyNames_of (h : Packable artifactName files) {name : Text} (hname : name ∈ emptyNames files) :
    (∀ c ∈ name, IsScalar c) ∧ ¬ placeholder <:+: escapeText name := by
  obtain ⟨f, hf, rfl⟩ := List.mem_map.1 hname
  have hmem := (perm_sortedFiles files).subset (List.mem_of_mem_filter hf)
  exact ⟨h.tree.scalar_rel hmem, h.avoids.files f hmem⟩

theorem isScalar_of_printable {c : ℕ} (h : Printable c) : IsScalar c := .inl (h.2.trans_lt (by decide))

/-- A header is printed and read back. -/
theorem Packable.plain_header (h : Packable artifactName files) {digest : Text} (hdigest : ∀ c ∈ digest, IsScalar c) :
    Plain (.obj (containerHeader artifactName (layOutFiles (sortedFiles files) 0) (emptyNames files) digest)) := by
  rw [h.containerHeader_eq, Plain, plainMembers_iff, List.map_append]
  refine ⟨h.keys_entries, fun w hw => ?_⟩
  rcases List.mem_append.1 hw with hw | hw
  · obtain ⟨v, hv, rfl⟩ := List.mem_map.1 hw
    have hfile := (perm_sortedFiles files).subset (mem_of_mem_layOutFiles hv)
    have hkeys : [text "dtype", text "shape", text "data_offsets"].Nodup := by decide
    refine ⟨h.tree.scalar_rel hfile, hkeys, isScalar_text, isScalar_text, isScalar_text, ⟨trivial, trivial⟩, isScalar_text,
      ⟨trivial, trivial, trivial⟩, trivial⟩
  · obtain rfl := List.mem_singleton.1 hw
    have hempty : Plain (.arr ((emptyNames files).map .str)) := by
      rw [Plain, plainItems_iff]
      intro v hv
      obtain ⟨name, hname, rfl⟩ := List.mem_map.1 hv
      exact (h.emptyNames_of hname).1
    have hkeys : [text "orka_container", text "artifact_name", text "file_count", text "empty_files", text "sha256"].Nodup := by decide
    refine ⟨isScalar_text, hkeys, isScalar_text, isScalar_text, isScalar_text, h.artifact, isScalar_text, ?_, isScalar_text, ?_,
      isScalar_text, hdigest, trivial⟩
    · exact fun c hc => isScalar_of_printable (printable_intText hc)
    · exact fun c hc => isScalar_of_printable (printable_dumps (by decide) (by decide) hempty hc)

/-- **The digest stands at one place** of the printed header, and the placeholder is nowhere before it. -/
theorem Packable.exists_front (h : Packable artifactName files) :
    ∃ front : Text, ¬ placeholder <:+: front ∧ ∀ digest,
      dumps compact (.obj (containerHeader artifactName (layOutFiles (sortedFiles files) 0) (emptyNames files) digest)) =
        front ++ 34 :: (escapeText digest ++ [34, 125, 125]) := by
  obtain ⟨front, hfront⟩ := exists_dumps_last compact ((layOutFiles (sortedFiles files) 0).map containerEntry) (text "__metadata__")
    (containerMetadata artifactName files.length (emptyNames files) []).dropLast (text "sha256")
  have hdumps : ∀ digest, dumps compact (.obj (containerHeader artifactName (layOutFiles (sortedFiles files) 0) (emptyNames files)
      digest)) = front ++ 34 :: (escapeText digest ++ [34, 125, 125]) := fun digest => by
    rw [h.containerHeader_eq, ← hfront]
    rfl
  refine ⟨front, fun hinfix => ?_, hdumps⟩
  have hblob : placeholder <:+: dumps compact (.obj (containerHeader artifactName (layOutFiles (sortedFiles files) 0)
      (emptyNames files) [])) := by
    rw [hdumps]
    exact hinfix.trans (List.prefix_append _ _).isInfix
  refine not_infix_render (foreign_placeholder compact (by decide) (by decide)) _ ?_ hblob
  rw [escaped, Avoids, avoidsMembers_iff, escapedMembers_eq_map, h.containerHeader_eq, List.map_append, List.map_map]
  have hwords : (escapeText (text "__metadata__")).length < 64 := by decide
  intro w hw
  rcases List.mem_append.1 hw with hw | hw
  · obtain ⟨v, hv, rfl⟩ := List.mem_map.1 hw
    have havoids : AvoidsNames artifactName (sortedFiles files) :=
      ⟨h.avoids.artifact, fun f hf => h.avoids.files f ((perm_sortedFiles files).subset hf)⟩
    exact avoids_containerEntry havoids (length_payload_sortedFiles files ▸ h.payload) hv
  · obtain rfl := List.mem_singleton.1 hw
    refine ⟨not_infix_of_length_lt hwords, avoids_containerMetadata h.avoids.artifact h.count ?_ ?_⟩
    · exact fun name hname => (h.emptyNames_of hname).1
    · exact fun name hname => (h.emptyNames_of hname).2

end Header

/-! ## Packing -/

/-- A digest as sixty-four hexadecimal digits. -/
def HexDigest (digest : Text) : Prop := digest.length = 64 ∧ ∀ c ∈ digest, ∃ d < 16, hexDigit d = c

/-- Hexadecimal digits are written as they are. -/
theorem escapeText_of_digits {digest : Text} (h : ∀ c ∈ digest, ∃ d < 16, hexDigit d = c) : escapeText digest = digest := by
  have hdigit : ∀ d < 16, escape (hexDigit d) = [hexDigit d] := by decide
  induction digest with
  | nil => rfl
  | cons c digest ih =>
    obtain ⟨⟨d, hd, rfl⟩, hrest⟩ := List.forall_mem_cons.1 h
    rw [escapeText, List.flatMap_cons, ← escapeText, ih hrest, hdigit d hd, List.singleton_append]

/-- The placeholder has the form of a digest. -/
theorem hexDigest_placeholder : HexDigest placeholder := by
  refine ⟨List.length_replicate, fun c hc => ⟨0, by decide, ?_⟩⟩
  rw [mem_placeholder hc]
  rfl

/-- The characters of a digest are scalar values. -/
theorem HexDigest.scalar {digest : Text} (h : HexDigest digest) : ∀ c ∈ digest, IsScalar c := by
  intro c hc
  obtain ⟨d, hd, rfl⟩ := h.2 c hc
  exact isScalar_of_printable (printable_hexDigit hd)

/-- The loop over a file goes through its bytes. -/
theorem flatten_readChunks {chunkBytes : ℤ} (hchunk : 0 < chunkBytes) {fuel : ℕ} {rest : List ℕ} (hfuel : rest.length < fuel) :
    (readChunks chunkBytes fuel rest).flatten = rest := by
  induction fuel generalizing rest with
  | zero => exact absurd hfuel (Nat.not_lt_zero _)
  | succ fuel ih =>
    rw [readChunks]
    simp only [if_neg (not_lt.2 hchunk.le)]
    have hpos : 0 < chunkBytes.toNat := by omega
    by_cases hrest : rest = []
    · rw [hrest, List.take_nil, if_pos rfl, List.flatten_nil]
    · have htake : rest.take chunkBytes.toNat ≠ [] := by
        rw [ne_eq, List.take_eq_nil_iff]
        rintro (h | h)
        · omega
        · exact hrest h
      have hlength : 0 < rest.length := List.length_pos_iff.2 hrest
      have hlength' : 0 < (rest.take chunkBytes.toNat).length := List.length_pos_iff.2 htake
      rw [if_neg htake, List.flatten_cons, ih (by rw [List.length_drop]; omega), List.length_take]
      rcases le_total chunkBytes.toNat rest.length with h | h
      · rw [Nat.min_eq_left h, List.take_append_drop]
      · rw [Nat.min_eq_right h, List.drop_length, List.append_nil, List.take_of_length_le h]

theorem chunkedRead_eq {chunkBytes : ℤ} (hchunk : 0 < chunkBytes) (contents : List ℕ) : chunkedRead chunkBytes contents = contents :=
  flatten_readChunks hchunk (Nat.lt_succ_self _)

section Pack

variable {artifactName : Text} {sha256 : List ℕ → Text} {chunkBytes : ℤ}

/-- The header with a digest, in bytes: the digest, what stands before it and what comes after. -/
theorem Packable.exists_headerBlob (h : Packable artifactName files) :
    ∃ front blanks : Text, ¬ placeholder <:+: front ∧ (∀ c ∈ blanks, c = 32) ∧ ∀ digest, HexDigest digest →
      headerBlob artifactName files digest =
        dumps compact (.obj (containerHeader artifactName (layOutFiles (sortedFiles files) 0) (emptyNames files) digest)) ++ blanks ∧
      headerBlob artifactName files digest = front ++ 34 :: (digest ++ ([34, 125, 125] ++ blanks)) := by
  obtain ⟨front, hfront, hdumps⟩ := h.exists_front
  refine ⟨front, List.replicate ((8 - (front.length + 68) % 8) % 8) 32, hfront, fun c hc => List.eq_of_mem_replicate hc,
    fun digest hdigest => ?_⟩
  have hlength : (front ++ 34 :: (digest ++ [34, 125, 125])).length = front.length + 68 := by
    simp only [List.length_append, List.length_cons, List.length_nil, hdigest.1]
  have hblob : headerBlob artifactName files digest = front ++ 34 :: (digest ++ [34, 125, 125]) ++
      List.replicate ((8 - (front.length + 68) % 8) % 8) 32 := by
    rw [headerBlob, containerBlob, hdumps, escapeText_of_digits hdigest.2, hlength]
  refine ⟨?_, ?_⟩
  · rw [hblob, hdumps, escapeText_of_digits hdigest.2]
  · rw [hblob]
    simp only [List.append_assoc, List.cons_append]

/-- **Packing writes** the length of the header, the header with the digest of the payload, and the payload. -/
theorem Packable.packContainer_eq (h : Packable artifactName files) (hsha : ∀ m, HexDigest (sha256 m)) (hchunk : 0 < chunkBytes) :
    packContainer sha256 artifactName files chunkBytes =
      .ok (packU64 (headerBlob artifactName files (sha256 (payloadOf (sortedFiles files)))).length ++
        (headerBlob artifactName files (sha256 (payloadOf (sortedFiles files))) ++ payloadOf (sortedFiles files))) := by
  obtain ⟨front, blanks, hfront, -, hblob⟩ := h.exists_headerBlob
  have hold := (hblob _ hexDigest_placeholder).2
  have hnew := (hblob _ (hsha (payloadOf (sortedFiles files)))).2
  have hlength : (headerBlob artifactName files (sha256 (payloadOf (sortedFiles files)))).length =
      (headerBlob artifactName files placeholder).length := by
    rw [hold, hnew]
    simp only [List.length_append, List.length_cons, (hsha _).1, placeholder, List.length_replicate]
  have hpayload : (layOutFiles (sortedFiles files) 0).flatMap (fun w => chunkedRead chunkBytes w.1.contents) =
      payloadOf (sortedFiles files) := by
    rw [← layOutFiles_payload _ 0]
    exact List.flatMap_congr fun w _ => chunkedRead_eq hchunk _
  have hheader : containerBlob (containerHeader artifactName (layOutFiles (sortedFiles files) 0)
      (((sortedFiles files).filter fun f => f.contents.length = 0).map TreeFile.rel) placeholder) =
        headerBlob artifactName files placeholder := rfl
  have hfind : findFirst placeholder (headerBlob artifactName files placeholder) = some (front.length + 1) := by
    rw [hold]
    exact findFirst_append_cons (fun hmem => absurd (mem_placeholder hmem) (by decide)) (List.cons_ne_nil _ _) hfront _
  have hplace : (packU64 (headerBlob artifactName files placeholder).length ++ (front ++ [34])).length = 8 + (front.length + 1) := by
    rw [List.length_append, packU64, List.length_map, List.length_range, List.length_append, List.length_singleton]
  have hsame : (sha256 (payloadOf (sortedFiles files))).length = placeholder.length := (hsha _).1.trans List.length_replicate.symm
  have hover := overwrite_append hsame (packU64 (headerBlob artifactName files placeholder).length ++ (front ++ [34]))
    ([34, 125, 125] ++ (blanks ++ payloadOf (sortedFiles files)))
  rw [packContainer, if_neg h.nonempty]
  simp only [hheader, hfind, hpayload]
  rw [← hplace]
  refine congrArg Except.ok (Eq.trans ?_ (hover.trans ?_))
  · congr 1
    rw [hold]
    simp only [List.append_assoc, List.cons_append, List.nil_append]
  · rw [hlength, hnew]
    simp only [List.append_assoc, List.cons_append, List.nil_append]

end Pack

/-! ## Reading the header -/

/-- The base-256 digits add up to the number. -/
theorem foldr_digits (width n : ℕ) :
    ((List.range width).map fun i => n / 256 ^ i % 256).foldr (fun d m => d + 256 * m) 0 = n % 256 ^ width := by
  induction width generalizing n with
  | zero => rw [List.range_zero, List.map_nil, List.foldr_nil, pow_zero, Nat.mod_one]
  | succ width ih =>
    have hdigit : ∀ i, n / 256 ^ (i + 1) = n / 256 / 256 ^ i := fun i => by rw [Nat.div_div_eq_div_mul, pow_succ']
    rw [List.range_succ_eq_map, List.map_cons, List.foldr_cons, List.map_map]
    simp only [Function.comp_def, hdigit, ih, pow_zero, Nat.div_one]
    rw [pow_succ', Nat.mod_mul]

theorem unpackU64_packU64 {n : ℕ} (h : n < 256 ^ 8) : unpackU64 (packU64 n) = n := by
  rw [unpackU64, packU64, foldr_digits, Nat.mod_eq_of_lt h]

theorem length_packU64 (n : ℕ) : (packU64 n).length = 8 := by rw [packU64, List.length_map, List.length_range]

/-- The directories and files of a tree can be made, and printable bytes are read as they are. -/
structure Permits (host : ContainerHost) (outDir : FilePath) (files : List TreeFile) : Prop where
  decode : ∀ t : Text, (∀ c ∈ t, Printable c) → host.decode t = .ok t
  root : host.makeDirs outDir = .ok ()
  dirs : ∀ f ∈ files, host.makeDirs (outDir ++ f.path).dropLast = .ok ()
  open' : ∀ f ∈ files, host.openFile (outDir ++ f.path) = .ok ()

section Unpack

variable {artifactName : Text} {host : ContainerHost} {outDir : FilePath}

/-- A header with its length in front is read back, whatever comes after it. -/
theorem headerOf_packed {blob : Text} (hdecode : host.decode blob = .ok blob) (hlength : blob.length < 256 ^ 8)
    {items : List (Text × Json.Value)} (hloads : loads blob = some (.obj items)) (payload : List ℕ) :
    headerOf host (packU64 blob.length ++ (blob ++ payload)) =
      .ok (items.filter fun e => e.1 ≠ text "__metadata__", (get? items "__metadata__").getD (.obj []), 8 + blob.length) := by
  have htake : (packU64 blob.length ++ (blob ++ payload)).take 8 = packU64 blob.length := by
    rw [← length_packU64 blob.length, List.take_left]
  have hdrop : (packU64 blob.length ++ (blob ++ payload)).drop 8 = blob ++ payload := by
    rw [← length_packU64 blob.length, List.drop_left]
  have hlong : ¬ (packU64 blob.length ++ (blob ++ payload)).length < 8 := by
    rw [List.length_append, length_packU64]
    omega
  rw [headerOf, if_neg hlong, htake, hdrop]
  simp only [unpackU64_packU64 hlength, List.take_left, hdecode, jsonLoads]
  change (do let header ← jsonLoads blob; _) = _
  rw [jsonLoads, hloads]
  rfl

/-- The header of a packed container. -/
theorem Packable.headerOf_eq (h : Packable artifactName files) (hhost : Permits host outDir files) {digest : Text}
    (hdigest : HexDigest digest) (payload : List ℕ) :
    headerOf host (packU64 (headerBlob artifactName files digest).length ++ (headerBlob artifactName files digest ++ payload)) =
      .ok ((layOutFiles (sortedFiles files) 0).map containerEntry,
        .obj (containerMetadata artifactName files.length (emptyNames files) digest),
        8 + (headerBlob artifactName files digest).length) := by
  obtain ⟨front, blanks, -, hblanks, hblob⟩ := h.exists_headerBlob
  have hplain := h.plain_header hdigest.scalar
  have hlength : (headerBlob artifactName files digest).length = (headerBlob artifactName files placeholder).length := by
    rw [(hblob _ hdigest).2, (hblob _ hexDigest_placeholder).2]
    simp only [List.length_append, List.length_cons, hdigest.1, placeholder, List.length_replicate]
  have hprint : ∀ c ∈ headerBlob artifactName files digest, Printable c := by
    intro c hc
    rw [(hblob _ hdigest).1] at hc
    rcases List.mem_append.1 hc with hc | hc
    · exact printable_dumps (by decide) (by decide) hplain hc
    · exact hblanks c hc ▸ ⟨by decide, by decide⟩
  have hloads : loads (headerBlob artifactName files digest) = some (.obj
      (containerHeader artifactName (layOutFiles (sortedFiles files) 0) (emptyNames files) digest)) := by
    rw [(hblob _ hdigest).1]
    refine loads_dumps compact hplain fun c hc => ?_
    rw [hblanks c hc]
    rfl
  have hother : ∀ e ∈ (layOutFiles (sortedFiles files) 0).map containerEntry, e.1 ≠ text "__metadata__" := by
    obtain ⟨-, -, hmeta⟩ := List.nodup_append.1 h.keys_entries
    exact fun e he => hmeta _ (List.mem_map_of_mem he) _ List.mem_cons_self
  rw [headerOf_packed (hhost.decode _ hprint) (hlength ▸ h.header) hloads, h.containerHeader_eq]
  have hfilter : ((layOutFiles (sortedFiles files) 0).map containerEntry ++ [(text "__metadata__",
      Json.Value.obj (containerMetadata artifactName files.length (emptyNames files) digest))]).filter
        (fun e => e.1 ≠ text "__metadata__") = (layOutFiles (sortedFiles files) 0).map containerEntry := by
    rw [List.filter_append, List.filter_eq_self.2 fun e he => decide_eq_true (hother e he), List.filter_cons_of_neg (by simp),
      List.filter_nil, List.append_nil]
  have hnone : ((layOutFiles (sortedFiles files) 0).map containerEntry).lookup (text "__metadata__") = none :=
    List.lookup_eq_none_iff.2 fun e he => bne_iff_ne.2 (Ne.symm (hother e he))
  rw [hfilter, Json.get?, List.lookup_append, hnone, List.lookup_cons_self]
  rfl

/-- The entries stand in the order of their offsets. -/
theorem sortEntries_containerEntry {entries : List (TreeFile × ℕ)} (h : entries.Pairwise fun v w => v.2 ≤ w.2) :
    sortEntries host (entries.map containerEntry) = .ok (entries.map containerEntry) := by
  have hkeys : (entries.map containerEntry).mapM (fun e => (dataOffsets e.2).bind firstOf) =
      .ok (entries.map fun w => Json.Value.int w.2) := by
    rw [List.mapM_map]
    exact Steps.mapM_ok fun w _ => rfl
  have hzip : (((entries.map fun w => Json.Value.int w.2).map fun k => (asInt k).getD 0).zip (entries.map containerEntry)) =
      entries.map fun w => ((w.2 : ℤ), containerEntry w) := by
    rw [List.map_map, List.zip_map']
    rfl
  have hsorted : (entries.map fun w => ((w.2 : ℤ), containerEntry w)).Pairwise fun x y => x.1 ≤ y.1 := by
    rw [List.pairwise_map]
    exact h.imp fun hle => Int.ofNat_le.2 hle
  have hall : ((entries.map fun w => Json.Value.int w.2).all fun k => (asInt k).isSome) = true := by
    rw [List.all_map, List.all_eq_true]
    exact fun _ _ => rfl
  rw [sortEntries, hkeys]
  change (if _ then _ else _) = _
  rw [if_pos hall, hzip, hsorted.insertionSort_eq, List.map_map]
  rfl

/-- The loop over an entry copies its bytes. -/
theorem copyChunks_eq {chunkBytes : ℤ} (hchunk : 0 < chunkBytes) {fuel : ℕ} {rest : List ℕ} {n : ℕ} (hfuel : n < fuel)
    (hn : n ≤ rest.length) : copyChunks chunkBytes fuel rest n = (rest.take n, none) := by
  induction fuel generalizing rest n with
  | zero => exact absurd hfuel (Nat.not_lt_zero _)
  | succ fuel ih =>
    rw [copyChunks]
    by_cases hzero : n = 0
    · rw [if_pos (by omega), hzero, List.take_zero]
    have hmin : ¬ min chunkBytes (n : ℤ) < 0 := by omega
    have hlength : (rest.take (min chunkBytes (n : ℤ)).toNat).length = (min chunkBytes (n : ℤ)).toNat := by
      rw [List.length_take]
      omega
    have hchunk' : rest.take (min chunkBytes (n : ℤ)).toNat ≠ [] := by
      rw [← List.length_pos_iff, hlength]
      omega
    have hleft : (n : ℤ) - ((min chunkBytes (n : ℤ)).toNat : ℕ) = ((n - (min chunkBytes (n : ℤ)).toNat : ℕ) : ℤ) := by omega
    simp only [if_neg (show ¬ (n : ℤ) = 0 by omega), if_neg hmin, if_neg hchunk', hlength, hleft]
    rw [ih (by omega) (by rw [List.length_drop]; omega), ← List.take_add, Nat.add_sub_cancel' (by omega)]

/-- A loop whose names are all written. -/
theorem unpackNames_written {β : Type} {l : List β} {name : β → Text} {outcome : β → FilePath → Outcome} {path : β → FilePath}
    {contents : β → List ℕ}
    (h : ∀ x ∈ l, join posix outDir (name x) = path x ∧ outcome x (path x) = .written (contents x)) :
    unpackNames outDir (l.map fun x => (name x, outcome x)) = ⟨l.map fun x => ⟨path x, contents x⟩, .ok l.length⟩ := by
  induction l with
  | nil => rfl
  | cons x l ih =>
    obtain ⟨⟨hpath, hwritten⟩, hrest⟩ := List.forall_mem_cons.1 h
    rw [List.map_cons, unpackNames, hpath]
    simp only [hwritten, ih hrest, List.map_cons, List.length_cons, Except.map, Nat.add_comm 1]

variable {chunkBytes : ℤ}

/-- An entry is written with the bytes of its file. -/
theorem entryOutcome_containerEntry (hhost : Permits host outDir files) (hchunk : 0 < chunkBytes) {w : TreeFile × ℕ}
    (hw : w ∈ layOutFiles (sortedFiles files) 0) (front : List ℕ) :
    entryOutcome host (front ++ payloadOf (sortedFiles files)) front.length chunkBytes (outDir ++ w.1.path) (containerEntry w).2 =
      .written w.1.contents := by
  have hfile := (perm_sortedFiles files).subset (mem_of_mem_layOutFiles hw)
  have hprefix : w.1.contents <+: (payloadOf (sortedFiles files)).drop w.2 := by
    have hat : w.1.contents <+: ([] ++ payloadOf (sortedFiles files)).drop w.2 := layOutFiles_at hw
    rwa [List.nil_append] at hat
  have hrest : (front ++ payloadOf (sortedFiles files)).drop ((front.length : ℤ) + (w.2 : ℤ)).toNat =
      (payloadOf (sortedFiles files)).drop w.2 := by
    rw [show ((front.length : ℤ) + (w.2 : ℤ)).toNat = front.length + w.2 by omega, List.drop_length_add_append]
  have hcopy : copyChunks chunkBytes (((payloadOf (sortedFiles files)).drop w.2).length + 1) ((payloadOf (sortedFiles files)).drop w.2)
      ((w.2 : ℤ) + w.1.contents.length - w.2) = (w.1.contents, none) := by
    rw [show (w.2 : ℤ) + w.1.contents.length - w.2 = w.1.contents.length by omega,
      copyChunks_eq hchunk (Nat.lt_succ_of_le hprefix.length_le) hprefix.length_le, ← List.prefix_iff_eq_take.1 hprefix]
  have hbegin : beginEnd (containerEntry w).2 = .ok (.int w.2, .int (w.2 + w.1.contents.length)) := rfl
  have hseek : ¬ (front.length : ℤ) + (w.2 : ℤ) < 0 := by omega
  rw [entryOutcome, hbegin]
  simp only [hhost.dirs _ hfile, asInt, if_neg hseek, hhost.open' _ hfile, hrest, hcopy]

/-- Where the host permits it, an empty file is written empty. -/
theorem emptyOutcome_eq (hhost : Permits host outDir files) {f : TreeFile} (hf : f ∈ files) :
    emptyOutcome host (outDir ++ f.path) = .written [] := by
  rw [emptyOutcome, hhost.dirs f hf]
  simp only [hhost.open' f hf]

/-- The list of the empty files is read back. -/
theorem emptyFiles_containerMetadata {count : ℕ} {empty : List Text} {digest : Text}
    (hscalar : ∀ name ∈ empty, ∀ c ∈ name, IsScalar c) :
    emptyFiles (containerMetadata artifactName count empty digest) = .ok (empty.map .str) := by
  have hplain : Plain (.arr (empty.map .str)) := by
    rw [Plain, plainItems_iff]
    intro v hv
    obtain ⟨name, hname, rfl⟩ := List.mem_map.1 hv
    exact hscalar name hname
  have hblanks : ∀ c ∈ ([] : Text), isBlank c = true := fun c hc => absurd hc List.not_mem_nil
  have hloads := loads_dumps spaced hplain hblanks
  rw [List.append_nil] at hloads
  have hget : get? (containerMetadata artifactName count empty digest) "empty_files" =
      some (Json.Value.str (dumps spaced (.arr (empty.map .str)))) := by
    rfl
  rw [emptyFiles, hget]
  simp only [Option.getD_some, jsonLoads, hloads]
  rfl

/-- The metadata, the place of the payload and the entries of a packed container. -/
theorem Packable.startUnpack_eq (h : Packable artifactName files) (hhost : Permits host outDir files) {digest : Text}
    (hdigest : HexDigest digest) (payload : List ℕ) :
    startUnpack host (packU64 (headerBlob artifactName files digest).length ++ (headerBlob artifactName files digest ++ payload)) outDir =
      .ok (containerMetadata artifactName files.length (emptyNames files) digest, 8 + (headerBlob artifactName files digest).length,
        (layOutFiles (sortedFiles files) 0).map containerEntry) := by
  rw [startUnpack, h.headerOf_eq hhost hdigest]
  change (do host.makeDirs outDir; _) = _
  rw [hhost.root]
  change (do let entries ← sortEntries host _; _) = _
  rw [sortEntries_containerEntry (pairwise_layOutFiles _ 0).1]
  rfl

/-- The loop over the entries writes every file that is not empty. -/
theorem Packable.unpackNames_entries (h : Packable artifactName files) (hhost : Permits host outDir files) (hchunk : 0 < chunkBytes)
    (front : List ℕ) :
    unpackNames outDir (entrySteps host (front ++ payloadOf (sortedFiles files)) front.length chunkBytes
        ((layOutFiles (sortedFiles files) 0).map containerEntry)) =
      ⟨(layOutFiles (sortedFiles files) 0).map fun w => ⟨outDir ++ w.1.path, w.1.contents⟩,
        .ok (layOutFiles (sortedFiles files) 0).length⟩ := by
  have hsteps : entrySteps host (front ++ payloadOf (sortedFiles files)) front.length chunkBytes
      ((layOutFiles (sortedFiles files) 0).map containerEntry) = (layOutFiles (sortedFiles files) 0).map fun w => (w.1.rel, fun dst =>
        entryOutcome host (front ++ payloadOf (sortedFiles files)) front.length chunkBytes dst (containerEntry w).2) := by
    rw [entrySteps, List.map_map]
    rfl
  rw [hsteps]
  refine unpackNames_written fun w hw => ⟨?_, entryOutcome_containerEntry hhost hchunk hw front⟩
  exact h.tree.join_rel ((perm_sortedFiles files).subset (mem_of_mem_layOutFiles hw)) outDir

/-- The loop over the empty files writes every one of them. -/
theorem Packable.unpackNames_empty (h : Packable artifactName files) (hhost : Permits host outDir files) :
    unpackNames outDir (emptySteps host ((emptyNames files).map .str)) =
      ⟨((sortedFiles files).filter fun f => f.contents.length = 0).map fun f => ⟨outDir ++ f.path, f.contents⟩,
        .ok (emptyNames files).length⟩ := by
  have hsteps : emptySteps host ((emptyNames files).map .str) =
      ((sortedFiles files).filter fun f => f.contents.length = 0).map fun f => (f.rel, emptyOutcome host) := by
    rw [emptySteps, emptyNames, List.map_map, List.map_map]
    rfl
  rw [hsteps, emptyNames, List.length_map]
  refine unpackNames_written fun f hf => ?_
  obtain ⟨hmem, hempty⟩ := List.mem_filter.1 hf
  have hfile := (perm_sortedFiles files).subset hmem
  refine ⟨h.tree.join_rel hfile outDir, ?_⟩
  rw [emptyOutcome_eq hhost hfile, List.eq_nil_of_length_eq_zero (of_decide_eq_true hempty)]

/-- **A packed directory is unpacked** to its files. -/
theorem Packable.unpackContainer_eq (h : Packable artifactName files) (hhost : Permits host outDir files) (hchunk : 0 < chunkBytes)
    {digest : Text} (hdigest : HexDigest digest) :
    ∃ written : List TreeFile, written.Perm files ∧
      unpackContainer host (packU64 (headerBlob artifactName files digest).length ++
        (headerBlob artifactName files digest ++ payloadOf (sortedFiles files))) outDir chunkBytes =
      ⟨written.map fun f => ⟨outDir ++ f.path, f.contents⟩, .ok files.length⟩ := by
  refine ⟨(layOutFiles (sortedFiles files) 0).map Prod.fst ++ (sortedFiles files).filter fun f => f.contents.length = 0, ?_, ?_⟩
  · rw [layOutFiles_files]
    refine (List.perm_append_comm.trans ?_).trans (perm_sortedFiles files)
    have hsplit := List.filter_append_perm (fun f : TreeFile => decide (f.contents.length = 0)) (sortedFiles files)
    simpa only [ne_eq, decide_not] using hsplit
  · have hentries := h.unpackNames_entries hhost hchunk
      (packU64 (headerBlob artifactName files digest).length ++ headerBlob artifactName files digest)
    rw [List.length_append, length_packU64, List.append_assoc] at hentries
    rw [unpackContainer, h.startUnpack_eq hhost hdigest]
    simp only [hentries, emptyFiles_containerMetadata fun name hname => (h.emptyNames_of hname).1, h.unpackNames_empty hhost]
    rw [List.map_append, List.map_map, Except.map, length_entries]
    rfl

/-- The digest is compared with that of what comes after the header. -/
theorem Packable.verifyContainer_eq (h : Packable artifactName files) (hhost : Permits host outDir files) (hchunk : 0 < chunkBytes)
    (sha256 : List ℕ → Text) {digest : Text} (hdigest : HexDigest digest) (payload : List ℕ) :
    verifyContainer sha256 host (packU64 (headerBlob artifactName files digest).length ++
      (headerBlob artifactName files digest ++ payload)) chunkBytes = .ok (decide (sha256 payload = digest)) := by
  have hdrop : (packU64 (headerBlob artifactName files digest).length ++ (headerBlob artifactName files digest ++ payload)).drop
      (8 + (headerBlob artifactName files digest).length) = payload := by
    rw [← List.append_assoc, ← length_packU64 (headerBlob artifactName files digest).length, ← List.length_append, List.drop_left]
  rw [verifyContainer, h.headerOf_eq hhost hdigest]
  change Except.ok (decide (sha256 (chunkedRead chunkBytes (List.drop _ _)) = digest)) = _
  rw [hdrop, chunkedRead_eq hchunk]

end Unpack

/-- **A container keeps its directory.** Packing the files of a tree gives a container that is unpacked, in whatever chunks, to exactly
these files; and the container with any payload in place of its own is found good if and only if the payload has the digest of its own. -/
theorem packContainer_roundTrip {artifactName : Text} {sha256 : List ℕ → Text} (hsha : ∀ m, HexDigest (sha256 m))
    (h : Packable artifactName files) {host : ContainerHost} {outDir : FilePath} (hhost : Permits host outDir files)
    {packBytes unpackBytes verifyBytes : ℤ} (hpack : 0 < packBytes) (hunpack : 0 < unpackBytes) (hverify : 0 < verifyBytes) :
    ∃ front payload : List ℕ, packContainer sha256 artifactName files packBytes = .ok (front ++ payload) ∧
      (∃ written : List TreeFile, written.Perm files ∧
        unpackContainer host (front ++ payload) outDir unpackBytes =
          ⟨written.map fun f => ⟨outDir ++ f.path, f.contents⟩, .ok files.length⟩) ∧
      ∀ payload', verifyContainer sha256 host (front ++ payload') verifyBytes = .ok (decide (sha256 payload' = sha256 payload)) := by
  have hdigest := hsha (payloadOf (sortedFiles files))
  refine ⟨packU64 (headerBlob artifactName files (sha256 (payloadOf (sortedFiles files)))).length ++
    headerBlob artifactName files (sha256 (payloadOf (sortedFiles files))), payloadOf (sortedFiles files), ?_, ?_, fun payload' => ?_⟩
  · rw [h.packContainer_eq hsha hpack, List.append_assoc]
  · rw [List.append_assoc]
    exact h.unpackContainer_eq hhost hunpack hdigest
  · rw [List.append_assoc]
    exact h.verifyContainer_eq hhost hverify sha256 hdigest payload'

/-- A directory with a file, and an empty file in a directory of its own. -/
def smallTree : List TreeFile := [⟨[text "manifest.json"], [1, 2]⟩, ⟨[text "data", text "empty.bin"], []⟩]

/-- The small tree can be packed. -/
theorem packable_smallTree : Packable (text "small.orka") smallTree where
  tree := ⟨by decide, by decide, by decide, by decide⟩
  nonempty := by decide
  count := by decide
  payload := by decide
  header := by decide +kernel
  artifact := by decide
  metadata := by decide
  avoids := ⟨not_infix_of_length_lt (by decide), fun f hf => not_infix_of_length_lt (by revert f; decide)⟩

/-- The digests of its payload and of nothing. -/
def smallDigest (m : List ℕ) : Text :=
  if m = [1, 2] then text "a12871fee210fb8619291eaea194581cbd2531e4b23759d225f6806923f63222"
  else text "e3b0c44298fc1c149afbf4c8996fb92427ae41e4649b934ca495991b7852b855"

/-- The small digest is sixty-four digits. -/
theorem hexDigest_smallDigest (m : List ℕ) : HexDigest (smallDigest m) := by
  have hdigits : ∀ digest ∈ [smallDigest [1, 2], smallDigest []], digest.length = 64 ∧ ∀ c ∈ digest, ∃ d < 16, hexDigit d = c := by
    decide +kernel
  by_cases hm : m = [1, 2]
  · exact hm ▸ hdigits _ List.mem_cons_self
  · have hother : smallDigest m = smallDigest [] := by rw [smallDigest, if_neg hm, smallDigest, if_neg (by decide)]
    exact hother ▸ hdigits _ (List.mem_cons_of_mem _ List.mem_cons_self)

/-- A file system that lets everything be made. -/
def freeHost : ContainerHost := ⟨.ok, .ok, fun _ _ _ _ => ([], none), fun _ => .ok (), fun _ => .ok ()⟩

/-- The small tree packed and unpacked again. -/
theorem packContainer_roundTrip_smallTree :
    ∃ front payload : List ℕ, packContainer smallDigest (text "small.orka") smallTree 8388608 = .ok (front ++ payload) ∧
      (∃ written : List TreeFile, written.Perm smallTree ∧
        unpackContainer freeHost (front ++ payload) [text "out"] 1 =
          ⟨written.map fun f => ⟨[text "out"] ++ f.path, f.contents⟩, .ok 2⟩) ∧
      ∀ payload', verifyContainer smallDigest freeHost (front ++ payload') 4096 =
        .ok (decide (smallDigest payload' = smallDigest payload)) :=
  packContainer_roundTrip hexDigest_smallDigest packable_smallTree
    ⟨fun _ _ => rfl, rfl, fun _ _ => rfl, fun _ _ => rfl⟩ (by decide) (by decide) (by decide)

end Orka
