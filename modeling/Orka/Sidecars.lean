import Orka.Lib.Endian
import Orka.Lib.FloatBits
import Orka.Verify
import Orka.Writers

/-!
# Sidecars as bytes

The writers of the outlier, scale and salient sidecars, down to the bytes of their files. A float is its 32-bit pattern, so that
infinities, what is not a number and the sign of zero are kept apart; what zlib makes of a stream is a parameter. The readers are
those of `Orka.Verify`, on patterns.
-/

namespace Orka

open Flat FloatBits Endian

namespace Bits

/-- `float(np.max(np.abs(values)))`, as a pattern; what is not a number is passed on. -/
def maxAbs (values : List ℕ) : ℕ := (values.map magnitude).foldr max 0

/-- `_compact_float_dtype(values, requested)`. -/
def compactFloatDtype (values : List ℕ) (requested : FloatDtype) : FloatDtype :=
  if requested ≠ .float16 then requested
  else if values.length = 0 then .float16
  else if infinity ≤ maxAbs values ∨ halfMax < maxAbs values then .float32
  else .float16

/-- `_fp16_storage_roundtrip(values)`, on either backend. -/
def fp16StorageRoundtrip (values : List ℕ) : List ℕ :=
  if compactFloatDtype values .float16 = .float32 then values else values.map fun v => ofHalf (toHalf v)

/-- The bytes of `v.astype(dtype)`. -/
def floatBytes (dtype : FloatDtype) (v : ℕ) : List ℕ :=
  match dtype with
  | .float16 => toLE 2 (toHalf v)
  | .float32 => toLE 4 v

/-- The bytes of one float, as a pattern of 32 bits. -/
def floatOfBytes (dtype : FloatDtype) (bytes : List ℕ) : ℕ :=
  match dtype with
  | .float16 => ofHalf (ofLE bytes)
  | .float32 => ofLE bytes

/-- The readers' floats are patterns. -/
def codec (decompress : List ℕ → Except PyErr (List ℕ)) : Codec ℕ := ⟨decompress, floatOfBytes⟩

section Writers

variable (compress : List ℕ → List ℕ)

/-- `_write_blob(path, raw)`: the bytes of the file. -/
def writeBlob (raw : List ℕ) : List ℕ :=
  let comp := compress raw
  if comp.length < raw.length then 1 :: comp else 0 :: raw

/-- `_write_float_vector(path, values, dtype)`: the file and the format it reports. -/
def writeFloatVector (values : List ℕ) (dtype : FloatDtype) : List ℕ × FloatDtype :=
  let actual := compactFloatDtype values dtype
  (writeBlob compress (values.flatMap (floatBytes actual)), actual)

/-- What `_write_outliers` leaves: the two files and the two formats. -/
structure OutlierFiles where
  positions : List ℕ
  values : List ℕ
  positionsDtype : UnsignedDtype
  valuesDtype : FloatDtype
  deriving DecidableEq

/-- `np.argsort(positions, kind="stable")`. -/
def argsort (positions : List ℕ) : List ℕ :=
  (List.range positions.length).mergeSort fun i j => cell positions i ≤ cell positions j

/-- `values[order]`. -/
def gather (values : List ℕ) (order : List ℕ) : Except PyErr (List ℕ) :=
  order.mapM fun i => match values[i]? with
    | some v => .ok v
    | none => .error .indexError

/-- `_write_outliers(idx_path, val_path, positions, values, value_dtype)`. -/
def writeOutliers (positions values : List ℕ) (valueDtype : FloatDtype) : Except PyErr OutlierFiles :=
  let order := argsort positions
  (gather positions order).bind fun posSorted => (gather values order).map fun valSorted =>
    let delta := diff 0 posSorted
    let positionDtype := smallestUnsignedDtype (delta.foldr max 0)
    let written := writeFloatVector compress valSorted valueDtype
    ⟨writeBlob compress (delta.flatMap (toLE positionDtype.size)), written.1, positionDtype, written.2⟩

end Writers

/-- `_read_outliers(idx_path, val_path, count, position_dtype, value_dtype)`. -/
def readOutliers (decompress : List ℕ → Except PyErr (List ℕ)) (files : RawFiles) (idxPath valPath : String) (count : ℕ)
    (positionDtype : UnsignedDtype) (valueDtype : FloatDtype) : Except PyErr (List ℕ × List ℕ) :=
  (readBlob (codec decompress) files idxPath).bind fun data => (wholeBuffer positionDtype.size (Nat.ofDigits 256) data).bind fun delta =>
    (rawFloatVector (codec decompress) files valPath count valueDtype).bind fun values =>
      if delta.length ≠ values.length then
        .error (.valueError s!"outlier count mismatch: {delta.length} != {values.length}")
      else .ok (cumsum delta, values)

/-- The gate's and the decoder's reader is this one; they use the positions as signed numbers. -/
theorem rawOutliers_eq (decompress : List ℕ → Except PyErr (List ℕ)) (files : RawFiles) (idxPath valPath : String) (count : ℕ)
    (positionDtype : UnsignedDtype) (valueDtype : FloatDtype) :
    rawOutliers (codec decompress) files idxPath valPath count positionDtype valueDtype =
      (readOutliers decompress files idxPath valPath count positionDtype valueDtype).map fun r => (r.1.map toInt64, r.2) := by
  unfold rawOutliers readOutliers
  cases readBlob (codec decompress) files idxPath with
  | error exc => rfl
  | ok data =>
    simp only [Except.bind]
    cases wholeBuffer positionDtype.size (Nat.ofDigits 256) data with
    | error exc => rfl
    | ok delta =>
      simp only
      cases rawFloatVector (codec decompress) files valPath count valueDtype with
      | error exc => rfl
      | ok values =>
        simp only
        split
        · rfl
        · rfl

end Bits

end Orka
