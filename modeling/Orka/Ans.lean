import Orka.Runtime

/-!
# The static rANS coder

`quant/ans.py`: the frequency table of an array of symbols, the table that says which symbol a slot belongs to, and the scalar
encoder and decoder. The arrays are int64, the coder's state is a Python integer, the words are 16 bits wide.
-/

namespace Orka

open Flat

/-! ## numpy on integers -/

/-- `np.bincount(symbols, minlength=n)`. -/
def bincount (symbols : List ℕ) (n : ℕ) : List ℤ :=
  tabulate (max n (symbols.foldr (fun s m => max (s + 1) m) 0)) fun s => symbols.count s

/-- `np.argmax(xs)`: the first place of the largest value. -/
def argmax (xs : List ℤ) : ℕ := xs.findIdx fun x => xs.all fun y => y ≤ x

/-- `np.cumsum(xs)` of an int64 array. -/
def cumsumInt (xs : List ℤ) : List ℤ := tabulate xs.length fun i => (xs.take (i + 1)).sum

/-- `xs[j] += d`. -/
def addAt (xs : List ℤ) (j : ℕ) (d : ℤ) : List ℤ := xs.set j (cell xs j + d)

/-- Where a bound of a slice lies in an axis of length `n`: a negative one counts from the end, and all are clipped. -/
def sliceBound (n : ℕ) (i : ℤ) : ℕ := if i < 0 then (i + n).toNat else min i.toNat n

/-- `xs[i]` of a Python integer. -/
def itemAt (xs : List ℤ) (i : ℤ) : Except PyErr ℤ := (axisIndex xs.length i).map (cell xs)

/-- `x & ((1 << k) - 1)`. -/
def lowBits (k : ℕ) (x : ℤ) : ℤ := x % 2 ^ k

/-! ## The tables -/

def ransL : ℤ := 2 ^ 16

def renormBits : ℕ := 16

/-- `build_freq_table`. `round h total` is `np.round(h * (M / total))` in double precision. -/
def buildFreqTable (round : ℤ → ℤ → ℤ) (symbols : List ℕ) (precision : ℕ) : Except PyErr (List ℤ × List ℤ × ℕ) :=
  if precision < 1 ∨ 16 < precision then .error (.valueError "precision must be in [1, 16]")
  else
    let m : ℤ := 2 ^ precision
    let nSym := if symbols.length ≠ 0 then symbols.foldr max 0 + 1 else 1
    let hist := bincount symbols nSym
    let scaled := hist.map fun h => if 0 < h then max 1 (round h hist.sum) else 0
    let diff := m - scaled.sum
    let freq :=
      if diff ≠ 0 then
        let freq := addAt scaled (argmax scaled) diff
        if cell freq (argmax scaled) < 1 then
          let freq := List.zipWith (fun h v => if 0 < h then 1 else v) hist freq
          addAt freq (argmax hist) (m - freq.sum)
        else freq
      else scaled
    .ok (freq, 0 :: cumsumInt freq, nSym)

/-- `slot_to_symbol`. The loop keeps the start of the next run of slots beside the table. -/
def slotToSymbol (freq : List ℤ) (precision : ℕ) : Except PyErr (List ℤ) :=
  ((cumsumInt freq).zipIdx.foldlM (fun (st : ℤ × List ℤ) (cs : ℤ × ℕ) =>
    (setSlice st.2 (sliceBound (2 ^ precision) st.1) (sliceBound (2 ^ precision) cs.1) [(cs.2 : ℤ)]).map fun lut => (cs.1, lut))
    (0, List.replicate (2 ^ precision) 0)).map Prod.snd

/-! ## The encoder -/

/-- The encoder between two symbols: the state and the words so far. -/
structure Encoder where
  x : ℤ
  out : List ℤ

/-- `while x >= x_max`: words leave the state at its low end. -/
def emitWords : ℕ → ℤ → Encoder → Except PyErr Encoder
  | 0, _, _ => .error .outOfFuel
  | fuel + 1, xMax, st =>
    if xMax ≤ st.x then emitWords fuel xMax ⟨st.x / 2 ^ renormBits, st.out ++ [lowBits renormBits st.x]⟩ else .ok st

/-- One round of the loop of `rans_encode_scalar`. -/
def encodeSymbol (fuel : ℕ) (freq cum : List ℤ) (precision : ℕ) (st : Encoder) (s : ℕ) : Except PyErr Encoder :=
  (itemAt freq s).bind fun f =>
    (emitWords fuel (ransL / 2 ^ precision * 2 ^ renormBits * f) st).bind fun st =>
      if f = 0 then .error .zeroDivisionError
      else (itemAt cum s).map fun c => { st with x := Int.fdiv st.x f * 2 ^ precision + Int.fmod st.x f + c }

/-- The loop of `rans_encode_scalar` over symbols that are given last first. -/
def encodeSymbols (fuel : ℕ) (freq cum : List ℤ) (precision : ℕ) (symbols : List ℕ) : Except PyErr Encoder :=
  symbols.foldlM (encodeSymbol fuel freq cum precision) ⟨ransL, []⟩

/-- `rans_encode_scalar`: the words, with the two of the final state at the end. -/
def ransEncodeScalar (fuel : ℕ) (symbols : List ℕ) (freq cum : List ℤ) (precision : ℕ) : Except PyErr (List ℤ) :=
  (encodeSymbols fuel freq cum precision symbols.reverse).map fun st =>
    st.out ++ [lowBits renormBits st.x, lowBits renormBits (st.x / 2 ^ renormBits)]

/-! ## The decoder -/

/-- The decoder between two symbols: the state, the next word to read and the symbols so far. `reads` is no variable of the
source: it is the list of places in `words` that have been read. -/
structure Decoder where
  x : ℤ
  pos : ℤ
  out : List ℤ
  reads : List ℤ

/-- `x = (x << 16) | int(words[pos]); pos -= 1`, for words of 16 bits. -/
def readWord (words : List ℤ) (st : Decoder) : Except PyErr Decoder :=
  (itemAt words st.pos).map fun w =>
    { st with x := st.x * 2 ^ renormBits + w, pos := st.pos - 1, reads := st.reads ++ [st.pos] }

/-- `while x < RANS_L`: words come back into the state at its low end. -/
def fillWords : ℕ → List ℤ → Decoder → Except PyErr Decoder
  | 0, _, _ => .error .outOfFuel
  | fuel + 1, words, st => if st.x < ransL then (readWord words st).bind (fillWords fuel words) else .ok st

/-- The decoder before the first symbol: its state is the last two words. -/
def startDecoder (words : List ℤ) : Except PyErr Decoder :=
  let pos : ℤ := words.length - 1
  (itemAt words pos).bind fun hi => (itemAt words (pos - 1)).map fun lo =>
    ⟨hi * 2 ^ renormBits + lo, pos - 2, [], [pos, pos - 1]⟩

/-- One round of the loop of `rans_decode_scalar`. -/
def decodeSymbol (fuel : ℕ) (words freq cum lut : List ℤ) (precision : ℕ) (st : Decoder) : Except PyErr Decoder :=
  let slot := lowBits precision st.x
  (itemAt lut slot).bind fun s => (itemAt freq s).bind fun f => (itemAt cum s).bind fun c =>
    fillWords fuel words { st with x := f * (st.x / 2 ^ precision) + slot - c, out := st.out ++ [s] }

/-- The first `n` rounds of the loop of `rans_decode_scalar`. -/
def decodeSymbols (fuel : ℕ) (words freq cum lut : List ℤ) (precision : ℕ) : ℕ → Except PyErr Decoder
  | 0 => startDecoder words
  | n + 1 => (decodeSymbols fuel words freq cum lut precision n).bind (decodeSymbol fuel words freq cum lut precision)

/-- `rans_decode_scalar`. -/
def ransDecodeScalar (fuel : ℕ) (words freq cum lut : List ℤ) (n precision : ℕ) : Except PyErr (List ℤ) :=
  (decodeSymbols fuel words freq cum lut precision n).map Decoder.out

end Orka
