import Orka.Format
import Orka.Lib.Extended

/-!
# Codebooks of int8

`_quantize_codebook_int8` and the three functions around it: the cast of a learned codebook, the file it is written to and the
codebook read from it. Scales are binary16 numbers with overflow, the rest of the arithmetic is exact. What a cast of no number to
int8 gives is a parameter.
-/

namespace Orka

open Flat Binary16

section Int8

variable {α : Type} [Field α] [LinearOrder α] [FloorRing α]

/-- `.astype(np.float16).astype(np.float32)`. -/
def halfRound : Extended α → Extended α
  | .finite x => if 65520 ≤ |x| then .infinite (x < 0) else .finite (round16 x)
  | v => v

/-- The scale of a column. -/
def columnScale (column : List (Extended α)) : Extended α :=
  let colMax := Extended.maxAbs column
  halfRound (if colMax.positive then colMax.div (.finite 127) else .finite 1)

/-- `np.clip(np.round(v / scale), -127, 127).astype(np.int8)`. -/
def int8Code (nanCode : ℤ) (v scale : Extended α) : ℤ :=
  match v.div scale with
  | .finite x => max (-127) (min (roundEven x) 127)
  | .infinite negative => if negative then -127 else 127
  | .nan => nanCode

/-- Column `j` of a codebook. -/
def columnOf (cb : List (List (Extended α))) (j : ℕ) : List (Extended α) := cb.map fun row => cell row j

/-- `_quantize_codebook_int8(cb)` on rows of the width `group`: the codes and the scales. -/
def quantizeCodebookInt8 (nanCode : ℤ) (group : ℕ) (cb : List (List (Extended α))) : List (List ℤ) × List (Extended α) :=
  let scales := tabulate group fun j => columnScale (columnOf cb j)
  (cb.map fun row => tabulate group fun j => int8Code nanCode (cell row j) (cell scales j), scales)

/-- `q * scales[None, :]`. -/
def dequantize (group : ℕ) (q : List (List ℤ)) (scales : List (Extended α)) : List (List (Extended α)) :=
  q.map fun row => tabulate group fun j => Extended.mul (.finite (cell row j : ℤ)) (cell scales j)

/-- `_cast_codebook_storage(codebook, "int8")`. -/
def castCodebookStorage (nanCode : ℤ) (group : ℕ) (cb : List (List (Extended α))) : Except PyErr (List (List (Extended α))) :=
  if cb.length = 0 then .error (.valueError "zero-size array to reduction operation maximum which has no identity")
  else
    let (q, scales) := quantizeCodebookInt8 nanCode group cb
    .ok (dequantize group q scales)

/-- The file of an int8 codebook: the scales of the columns, then the codes row by row. -/
structure Int8File (α : Type) where
  scales : List (Extended α)
  q : List ℤ

/-- `_write_codebook(path, codebook, "int8")`. -/
def writeCodebookInt8 (nanCode : ℤ) (group : ℕ) (cb : List (List (Extended α))) : Except PyErr (Int8File α) :=
  if cb.length = 0 then .error (.valueError "zero-size array to reduction operation maximum which has no identity")
  else
    let (q, scales) := quantizeCodebookInt8 nanCode group cb
    .ok ⟨scales.map halfRound, q.flatten⟩

/-- `_read_codebook(path, group_size, "int8")`, at the width the file was written with. -/
def readCodebookInt8 (file : Int8File α) : Except PyErr (List (List (Extended α))) :=
  (reshapeAuto file.scales.length file.q).map fun q => dequantize file.scales.length q file.scales

end Int8

end Orka
