import Orka.Container
import Orka.Lib.Search

/-!
# Packing a directory into a container

`pack_container` and `verify_container`. The digest of the payload is written over a placeholder in the header once the payload is
written; the placeholder is found by searching the header for it.
-/

namespace Orka

open Dynamic Json Paths Search

/-- A file under a directory: the components of its path from there, and its bytes. -/
structure TreeFile where
  path : List Text
  contents : List ℕ
  deriving DecidableEq

/-- `p.relative_to(artifact_dir).as_posix()`. -/
def TreeFile.rel (f : TreeFile) : Text := [posix.sep].intercalate f.path

/-- `sorted(p for p in artifact_dir.rglob("*") if p.is_file())`: paths are compared component by component. -/
def sortedFiles (files : List TreeFile) : List TreeFile := files.insertionSort fun f g => f.path ≤ g.path

/-- The files that are not empty, with their offsets. -/
def layOutFiles : List TreeFile → ℕ → List (TreeFile × ℕ)
  | [], _ => []
  | f :: files, offset =>
    if f.contents.length = 0 then layOutFiles files offset else (f, offset) :: layOutFiles files (offset + f.contents.length)

/-- `entries[rel]`. -/
def containerEntry (w : TreeFile × ℕ) : Text × Json.Value :=
  (w.1.rel, .obj [(text "dtype", .str (text "U8")), (text "shape", .arr [.int w.1.contents.length]),
    (text "data_offsets", .arr [.int w.2, .int (w.2 + w.1.contents.length)])])

/-- `"0" * 64`. -/
def placeholder : Text := List.replicate 64 48

/-- `header["__metadata__"]` with a digest. -/
def containerMetadata (artifactName : Text) (fileCount : ℕ) (empty : List Text) (digest : Text) : List (Text × Json.Value) :=
  [(text "orka_container", .str (text "1")), (text "artifact_name", .str artifactName), (text "file_count", .str (intText fileCount)),
    (text "empty_files", .str (dumps spaced (.arr (empty.map .str)))), (text "sha256", .str digest)]

/-- `header`: an entry of the name of the metadata is replaced by it. -/
def containerHeader (artifactName : Text) (entries : List (TreeFile × ℕ)) (empty : List Text) (digest : Text) :
    List (Text × Json.Value) :=
  setItem (dictOf (entries.map containerEntry)) (text "__metadata__")
    (.obj (containerMetadata artifactName (entries.length + empty.length) empty digest))

/-- `blob`, filled up with blanks to a multiple of eight bytes; it is ASCII, so its bytes are its characters. -/
def containerBlob (header : List (Text × Json.Value)) : Text :=
  let blob := dumps compact (.obj header)
  blob ++ List.replicate ((8 - blob.length % 8) % 8) 32

/-- `while chunk := src.read(chunk_bytes)`, from what is left of a file; a negative count reads to the end. -/
def readChunks (chunkBytes : ℤ) : ℕ → List ℕ → List (List ℕ)
  | 0, _ => []
  | fuel + 1, rest =>
    let chunk := if chunkBytes < 0 then rest else rest.take chunkBytes.toNat
    if chunk = [] then [] else chunk :: readChunks chunkBytes fuel (rest.drop chunk.length)

/-- The bytes the loop over a file goes through. -/
def chunkedRead (chunkBytes : ℤ) (contents : List ℕ) : List ℕ := (readChunks chunkBytes (contents.length + 1) contents).flatten

variable (sha256 : List ℕ → Text)

/-- `pack_container(artifact_dir, out_file, chunk_bytes)` of the files under the directory; `sha256` gives the hexadecimal digest. -/
def packContainer (artifactName : Text) (files : List TreeFile) (chunkBytes : ℤ) : Except Exc (List ℕ) :=
  if files = [] then .error ⟨.valueError, "no files under the directory"⟩
  else
    let sorted := sortedFiles files
    let entries := layOutFiles sorted 0
    let empty := (sorted.filter fun f => f.contents.length = 0).map TreeFile.rel
    let blob := containerBlob (containerHeader artifactName entries empty placeholder)
    match findFirst placeholder blob with
    | none => .error ⟨.valueError, "subsection not found"⟩
    | some at' =>
      let payload := entries.flatMap fun w => chunkedRead chunkBytes w.1.contents
      .ok (overwrite (8 + at') (sha256 payload) (packU64 blob.length ++ blob ++ payload))

/-- `verify_container(container, chunk_bytes)["ok"]`. -/
def verifyContainer (host : ContainerHost) (container : List ℕ) (chunkBytes : ℤ) : Except Exc Bool := do
  let (_, meta', base) ← headerOf host container
  match meta' with
  | .obj md =>
    let actual := sha256 (chunkedRead chunkBytes (container.drop base))
    match get? md "sha256" with
    | some (.str expected) => return actual = expected
    | _ => return false
  | _ => .error ⟨.attributeError, "object has no attribute 'get'"⟩

end Orka
