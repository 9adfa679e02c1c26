import Orka.Lib.Dynamic
import Orka.Lib.Json
import Orka.Lib.Paths

/-!
# The single-file container of an artifact

A container is a safetensors file: eight bytes of header length, a JSON header that gives each path of the artifact the place of its
bytes, and the bytes of all files in one run. The text of a path is a list of code points; its separator is `/`.
-/

namespace Orka

open Dynamic Json Paths

/-- `/` and `.` of a file name. -/
def posix : Alphabet ℕ := ⟨'/'.toNat, '.'.toNat⟩

/-- A path from the root. -/
abbrev FilePath := List Text

/-- What the container code takes from outside: the decoding of a header's bytes, `sorted` where the keys are not all integers,
reading an entry whose end is no integer, and the directories and files the file system lets it make and open. -/
structure ContainerHost where
  decode : List ℕ → Except Exc Text
  sortOther : List (Text × Json.Value) → Except Exc (List (Text × Json.Value))
  readOther : List ℕ → ℤ → ℤ → Json.Value → List ℕ × Option Exc
  makeDirs : FilePath → Except Exc Unit
  openFile : FilePath → Except Exc Unit

/-- `struct.unpack("<Q", b)` of eight bytes. -/
def unpackU64 (b : List ℕ) : ℕ := b.foldr (fun d n => d + 256 * n) 0

/-- `struct.pack("<Q", n)`. -/
def packU64 (n : ℕ) : List ℕ := (List.range 8).map fun i => n / 256 ^ i % 256

/-- `json.loads`. -/
def jsonLoads (t : Text) : Except Exc Json.Value :=
  match loads t with
  | some v => .ok v
  | none => .error ⟨.valueError, "Expecting value"⟩

variable (host : ContainerHost)

/-- `_header_of`: the entries, the metadata and the position of the payload. -/
def headerOf (container : List ℕ) : Except Exc (List (Text × Json.Value) × Json.Value × ℕ) := do
  if container.length < 8 then
    .error ⟨.custom "struct.error", "unpack requires a buffer of 8 bytes"⟩
  else
    let n := unpackU64 (container.take 8)
    let header ← jsonLoads (← host.decode ((container.drop 8).take n))
    match header with
    | .obj items =>
      return (items.filter fun e => e.1 ≠ text "__metadata__", (get? items "__metadata__").getD (.obj []), 8 + n)
    | .arr _ => .error ⟨.typeError, "pop expected at most 1 argument, got 2"⟩
    | _ => .error ⟨.attributeError, "object has no attribute 'pop'"⟩

/-- A value that Python counts with: an integer or a truth value. -/
def asInt : Json.Value → Option ℤ
  | .int n => some n
  | .bool b => some (if b then 1 else 0)
  | _ => none

/-- `v[0]`. -/
def firstOf : Json.Value → Except Exc Json.Value
  | .arr (v :: _) => .ok v
  | .arr [] => .error ⟨.indexError, "list index out of range"⟩
  | .str (c :: _) => .ok (.str [c])
  | .str [] => .error ⟨.indexError, "string index out of range"⟩
  | .obj _ => .error ⟨.keyError, "0"⟩
  | _ => .error ⟨.typeError, "object is not subscriptable"⟩

/-- `spec["data_offsets"]`. -/
def dataOffsets : Json.Value → Except Exc Json.Value
  | .obj items =>
    match get? items "data_offsets" with
    | some v => .ok v
    | none => .error ⟨.keyError, "data_offsets"⟩
  | _ => .error ⟨.typeError, "string indices must be integers"⟩

/-- `begin, end = spec["data_offsets"]`. -/
def beginEnd (spec : Json.Value) : Except Exc (Json.Value × Json.Value) := do
  match ← dataOffsets spec with
  | .arr [b, e] => return (b, e)
  | .str [b, e] => return (.str [b], .str [e])
  | .arr _ | .str _ => .error ⟨.valueError, "expected 2 values to unpack"⟩
  | _ => .error ⟨.typeError, "cannot unpack non-iterable object"⟩

/-- `sorted(header.items(), key=lambda kv: kv[1]["data_offsets"][0])`. -/
def sortEntries (header : List (Text × Json.Value)) : Except Exc (List (Text × Json.Value)) := do
  let keys ← header.mapM fun e => (dataOffsets e.2).bind firstOf
  if keys.all fun k => (asInt k).isSome then
    return ((keys.map fun k => (asInt k).getD 0).zip header |>.insertionSort fun x y => x.1 ≤ y.1).map Prod.snd
  else host.sortOther header

/-- The inner loop of an entry: the bytes it copies of what is left of the container, and the end of file, if it comes to it. -/
def copyChunks (chunkBytes : ℤ) : ℕ → List ℕ → ℤ → List ℕ × Option Exc
  | 0, _, _ => ([], none)
  | fuel + 1, rest, remaining =>
    if remaining = 0 then ([], none)
    else
      let n := min chunkBytes remaining
      -- a negative count reads to the end
      let chunk := if n < 0 then rest else rest.take n.toNat
      if chunk = [] then ([], some ⟨.custom "EOFError", "truncated"⟩)
      else
        let (copied, e) := copyChunks chunkBytes fuel (rest.drop chunk.length) (remaining - chunk.length)
        (chunk ++ copied, e)

/-- What becomes of one name: the file is not opened, it is left with part of its bytes, or it is written. -/
inductive Outcome where
  | refused (e : Exc)
  | broken (contents : List ℕ) (e : Exc)
  | written (contents : List ℕ)

/-- A file of the output, and what it holds. -/
structure WrittenFile where
  path : FilePath
  contents : List ℕ
  deriving DecidableEq

/-- What unpacking leaves behind: the files it has created or overwritten, and their number or an exception. -/
structure Unpacked where
  files : List WrittenFile
  result : Except Exc ℕ

/-- The outcome of an entry of the header. -/
def entryOutcome (container : List ℕ) (base : ℕ) (chunkBytes : ℤ) (dst : FilePath) (spec : Json.Value) : Outcome :=
  match beginEnd spec with
  | .error e => .refused e
  | .ok (b, e) =>
    match host.makeDirs dst.dropLast, asInt b with
    | .error e, _ => .refused e
    | .ok (), none => .refused ⟨.typeError, "unsupported operand type(s) for +"⟩
    | .ok (), some b =>
      if base + b < 0 then .refused ⟨.valueError, "negative seek value"⟩
      else
        let rest := container.drop (base + b).toNat
        match host.openFile dst with
        | .error e => .refused e
        | .ok () =>
          let (copied, err) := match asInt e with
            | some e => copyChunks chunkBytes (rest.length + 1) rest (e - b)
            | none => host.readOther rest chunkBytes b e
          match err with
          | some err => .broken copied err
          | none => .written copied

/-- The outcome of an element of the list of empty files. -/
def emptyOutcome (dst : FilePath) : Outcome :=
  match host.makeDirs dst.dropLast with
  | .error e => .refused e
  | .ok () =>
    match host.openFile dst with
    | .error e => .refused e
    | .ok () => .written []

/-- `for name in names: ...`, until one fails; each name comes with what becomes of the file it leads to. -/
def unpackNames (outDir : FilePath) : List (Text × (FilePath → Outcome)) → Unpacked
  | [] => ⟨[], .ok 0⟩
  | (name, outcome) :: names =>
    let dst := join posix outDir name
    match outcome dst with
    | .refused e => ⟨[], .error e⟩
    | .broken contents e => ⟨[⟨dst, contents⟩], .error e⟩
    | .written contents =>
      let rest := unpackNames outDir names
      ⟨⟨dst, contents⟩ :: rest.files, rest.result.map (1 + ·)⟩

/-- The values a `for` loop goes through. -/
def iterate : Json.Value → Except Exc (List Json.Value)
  | .arr items => .ok items
  | .str s => .ok (s.map fun c => .str [c])
  | .obj items => .ok (items.map fun e => .str e.1)
  | _ => .error ⟨.typeError, "object is not iterable"⟩

/-- `json.loads(meta.get("empty_files", "[]"))`, gone through. -/
def emptyFiles (md : List (Text × Json.Value)) : Except Exc (List Json.Value) :=
  match (get? md "empty_files").getD (.str (text "[]")) with
  | .str s => (jsonLoads s).bind iterate
  | _ => .error ⟨.typeError, "the JSON object must be str, bytes or bytearray"⟩

/-- The entries of a header, with what becomes of each. -/
def entrySteps (container : List ℕ) (base : ℕ) (chunkBytes : ℤ) (entries : List (Text × Json.Value)) :
    List (Text × (FilePath → Outcome)) :=
  entries.map fun e => (e.1, fun dst => entryOutcome host container base chunkBytes dst e.2)

/-- The empty files, with what becomes of each; a name that is no string fails. -/
def emptySteps (names : List Json.Value) : List (Text × (FilePath → Outcome)) :=
  names.map fun name => match name with
    | .str name => (name, emptyOutcome host)
    | _ => ([], fun _ => .refused ⟨.typeError, "unsupported operand type(s) for /"⟩)

/-- What `unpack_container` does before it writes: the metadata, the position of the payload and the entries by their offsets. -/
def startUnpack (container : List ℕ) (outDir : FilePath) :
    Except Exc (List (Text × Json.Value) × ℕ × List (Text × Json.Value)) := do
  let (header, meta', base) ← headerOf host container
  match meta' with
  | .obj md =>
    match get? md "orka_container" with
    | none | some .null => .error ⟨.valueError, "not an orka container"⟩
    | some _ =>
      host.makeDirs outDir
      return (md, base, ← sortEntries host header)
  | _ => .error ⟨.attributeError, "object has no attribute 'get'"⟩

def unpackContainer (container : List ℕ) (outDir : FilePath) (chunkBytes : ℤ) : Unpacked :=
  match startUnpack host container outDir with
  | .error e => ⟨[], .error e⟩
  | .ok (md, base, entries) =>
    let full := unpackNames outDir (entrySteps host container base chunkBytes entries)
    match full.result with
    | .error e => ⟨full.files, .error e⟩
    | .ok written =>
      match emptyFiles md with
      | .error e => ⟨full.files, .error e⟩
      | .ok names =>
        let empty := unpackNames outDir (emptySteps host names)
        ⟨full.files ++ empty.files, empty.result.map (written + ·)⟩

end Orka
