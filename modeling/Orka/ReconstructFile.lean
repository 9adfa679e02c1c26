import Orka.Lib.Endian
import Orka.Lib.Json
import Orka.Reconstruct

/-!
# The file of a reconstruction

`_write_complete_safetensors_reconstruction_binary` down to the bytes: the header is laid out from the shapes in the registry before
any tensor is decoded, and the data is then written tensor by tensor.
-/

namespace Orka

open Json

section ReconstructFile

variable {τ : Type}

/-- `reg["shape"]`. -/
def Origin.shape : Origin τ → List ℕ
  | .passthrough t | .sourceFallback t => t.shape
  | .quantized tm => tm.shape

/-- `registry[name]` for the sorted names. -/
def registryEntries (registry : List (String × Origin τ)) : List (String × Origin τ) :=
  (sortedNames registry).filterMap fun name => (Journal.get registry name).map fun origin => (name, origin)

/-- The entry of a tensor in the header. -/
def headerEntry (shape : List ℕ) (start stop : ℕ) : Json.Value :=
  .obj [(text "dtype", .str (text "F32")), (text "shape", .arr (shape.map fun (dim : ℕ) => Json.Value.int dim)),
    (text "data_offsets", .arr [.int start, .int stop])]

/-- `numel * 4`: all values are float32. -/
def byteSize (shape : List ℕ) : ℕ := shape.prod * 4

/-- The loop that lays out the header; the number is `current_offset`. -/
def layOut : List (String × Origin τ) → ℕ → List (Text × Json.Value) → List (Text × Json.Value)
  | [], _, header => header
  | (name, origin) :: entries, currentOffset, header =>
    let stop := currentOffset + byteSize origin.shape
    layOut entries stop (setItem header (text name) (headerEntry origin.shape currentOffset stop))

/-- `header["__metadata__"]`. -/
def metadataEntry (device : Backend) : Text × Json.Value :=
  (text "__metadata__", .obj [(text "format", .str (text (match device with | .torch => "pt" | .numpy => "np")))])

/-- `header_json`: only ASCII, so its bytes are its characters. -/
def headerJson (device : Backend) (entries : List (String × Origin τ)) : Text :=
  dumps compact (.obj (layOut entries 0 [metadataEntry device]))

/-- `header_json_padded`. -/
def padHeader (header : Text) : Text := header ++ List.replicate ((8 - header.length % 8) % 8) 32

/-- `struct.pack("<Q", n)`. -/
def packQ (n : ℕ) : Except PyErr (List ℕ) :=
  if n < 256 ^ 8 then .ok (Endian.toLE 8 n) else .error (.structError "int too large to convert")

variable {α : Type} [Field α] [LinearOrder α] [IsStrictOrderedRing α] [FloorRing α]
variable (num : Numerics α) (flat : τ → List α) (f32 : α → BitVec 32)

/-- `_decode_tensor_torch` on a GPU and `_decode_tensor` elsewhere. -/
def decodeOn (device : Backend) (store : Store α) (tm : TensorMeta) : Except PyErr (List α) :=
  match device with
  | .torch => decodeTensorTorch num store tm
  | .numpy => decodeTensor num store tm

/-- The values of a tensor of the registry. -/
def originData (device : Backend) (store : Store α) : Origin τ → Except PyErr (List α)
  | .passthrough t | .sourceFallback t => .ok (flat t.value)
  | .quantized tm => decodeOn num device store tm

/-- `arr.tobytes()` of float32 values. -/
def floatBytes (values : List α) : List ℕ := values.flatMap fun v => Endian.toLE 4 (f32 v).toNat

/-- `_write_complete_safetensors_reconstruction_binary(out_dir, output_path, manifest, device)`: the file it writes. `f32` gives the
pattern of the float32 nearest to a value. -/
def writeReconstructionBinary (sources : String → Option (List (SourceTensor τ))) (dir : Directory α τ) (manifest : PackManifest)
    (device : Backend) : Except PyErr (List ℕ) :=
  let entries := registryEntries (registryOf sources dir.passthrough manifest)
  let header := padHeader (headerJson device entries)
  (packQ header.length).bind fun size =>
    (entries.mapM fun entry => (originData num flat device dir.store entry.2).map (floatBytes f32)).map fun data =>
      size ++ header ++ data.flatten

end ReconstructFile

end Orka
