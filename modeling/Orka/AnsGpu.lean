import Orka.Ans
import Orka.Lib.Endian

/-!
# The interleaved rANS coder and its blob

`quant/ans.py`: the encoder and decoder over `K` streams side by side, symbol `t * K + k` of the padded array being symbol `t` of
stream `k`, and the blob that carries the table with the words. A lane is one index `k` of the tensors: one state, one row of the
words, one cursor.
-/

namespace Orka

open Flat Endian

/-- `x.to(torch.int32)`. -/
def toInt32 (x : ℤ) : ℤ := (x + 2 ^ 31) % 2 ^ 32 - 2 ^ 31

/-- `cum[:-1] if cum.shape[0] == freq.shape[0] + 1 else cum`. -/
def trimCum (freq cum : List ℤ) : List ℤ := if cum.length = freq.length + 1 then cum.dropLast else cum

/-- The symbols with the padding; the symbol that pads is the most frequent one. -/
def paddedSymbols (symbols : List ℕ) (freq : List ℤ) (K : ℕ) : List ℕ :=
  symbols ++ List.replicate (ceilDiv symbols.length K * K - symbols.length) (argmax freq)

/-- `streams[k]`. -/
def streamOf (padded : List ℕ) (K len k : ℕ) : List ℕ := tabulate len fun t => padded.getD (t * K + k) 0

/-! ## The encoder -/

/-- One stream of the encoder. `writes` is no variable of the source: it is the list of columns that have been written. -/
structure Lane where
  x : ℤ
  row : List ℤ
  wpos : ℕ
  writes : List ℕ

/-- `out[k, wpos[k]] = x[k] & RENORM_MASK; wpos[k] += 1; x[k] >>= RENORM_BITS`. -/
def Lane.put (lane : Lane) : Except PyErr Lane :=
  if lane.wpos < lane.row.length then
    .ok ⟨lane.x / 2 ^ renormBits, lane.row.set lane.wpos (lowBits renormBits lane.x), lane.wpos + 1, lane.writes ++ [lane.wpos]⟩
  else .error .indexError

/-- One stream in one round of the loop of `rans_encode_gpu`. -/
def Lane.encode (freq cum : List ℤ) (precision : ℕ) (lane : Lane) (s : ℕ) : Except PyErr Lane :=
  (itemAt freq s).bind fun f => (itemAt cum s).bind fun c =>
    (if ransL / 2 ^ precision * 2 ^ renormBits * f ≤ lane.x then lane.put else .ok lane).bind fun lane =>
      if f = 0 then .error .zeroDivisionError
      else .ok { lane with x := Int.fdiv lane.x f * 2 ^ precision + Int.fmod lane.x f + c }

/-- One round of the loop, for all streams. -/
def encodeColumn (freq cum : List ℤ) (precision : ℕ) (padded : List ℕ) (K t : ℕ) (lanes : List Lane) : Except PyErr (List Lane) :=
  lanes.zipIdx.mapM fun lane => lane.1.encode freq cum precision (padded.getD (t * K + lane.2) 0)

/-- The loop and the two flushed words. -/
def encodeLanes (symbols : List ℕ) (freq cum : List ℤ) (precision K : ℕ) : Except PyErr (List Lane) :=
  let len := ceilDiv symbols.length K
  ((List.range len).reverse.foldlM
    (fun lanes t => encodeColumn freq (trimCum freq cum) precision (paddedSymbols symbols freq K) K t lanes)
    (List.replicate K ⟨ransL, List.replicate (len + 2) 0, 0, []⟩)).bind fun lanes =>
      lanes.mapM fun lane => lane.put.bind Lane.put

/-- What `rans_encode_gpu` returns. -/
structure GpuCode where
  out : List (List ℤ)
  wpos : List ℤ
  n : ℕ
  len : ℕ
  deriving DecidableEq

def ransEncodeGpu (symbols : List ℕ) (freq cum : List ℤ) (precision K : ℕ) : Except PyErr GpuCode :=
  if K = 0 then .error .zeroDivisionError
  else (encodeLanes symbols freq cum precision K).map fun lanes =>
    ⟨lanes.map fun lane => lane.row.map toInt32, lanes.map fun lane => toInt32 lane.wpos, symbols.length,
      ceilDiv symbols.length K⟩

/-! ## The decoder -/

/-- One stream of the decoder. -/
structure ReadLane where
  x : ℤ
  row : List ℤ
  rpos : ℤ
  out : List ℤ

/-- A stream before its first symbol; its state is the last two words. -/
def ReadLane.start (row : List ℤ) (wpos : ℤ) : Except PyErr ReadLane :=
  (itemAt row (wpos - 1)).bind fun hi => (itemAt row (wpos - 2)).map fun lo => ⟨hi * 2 ^ renormBits + lo, row, wpos - 3, []⟩

/-- One stream in one round of the loop of `rans_decode_gpu`, for words of 16 bits. -/
def ReadLane.decode (freq cum lut : List ℤ) (precision : ℕ) (lane : ReadLane) : Except PyErr ReadLane :=
  let slot := lowBits precision lane.x
  (itemAt lut slot).bind fun s => (itemAt freq s).bind fun f => (itemAt cum s).bind fun c =>
    let x := f * (lane.x / 2 ^ precision) + slot - c
    if x < ransL then
      (itemAt lane.row lane.rpos).map fun w =>
        { lane with x := x * 2 ^ renormBits + w, rpos := lane.rpos - 1, out := lane.out ++ [s] }
    else .ok { lane with x := x, out := lane.out ++ [s] }

/-- The streams after the loop. -/
def decodeLanes (out : List (List ℤ)) (wpos freq cum lut : List ℤ) (len precision : ℕ) : Except PyErr (List ReadLane) :=
  ((out.zip wpos).mapM fun lane => ReadLane.start lane.1 lane.2).bind fun lanes =>
    (List.range len).foldlM (fun lanes _ => lanes.mapM fun lane => lane.decode freq (trimCum freq cum) lut precision) lanes

def ransDecodeGpu (out : List (List ℤ)) (wpos freq cum lut : List ℤ) (n len precision : ℕ) : Except PyErr (List ℤ) :=
  (decodeLanes out wpos freq cum lut len precision).map fun lanes =>
    ((List.range len).flatMap fun t => lanes.map fun lane => cell lane.out t).take n

/-! ## The blob -/

/-- `b"rANS"`. -/
def ansMagic : List ℕ := [114, 65, 78, 83]

def autoK (n : ℕ) : ℕ := max 64 (min 16384 (n / 512))

/-- `struct.pack("<QIBI", n, K, precision, n_sym)`. -/
def packHeader (n K precision nSym : ℕ) : Except PyErr (List ℕ) :=
  if n < 2 ^ 64 ∧ K < 2 ^ 32 ∧ precision < 2 ^ 8 ∧ nSym < 2 ^ 32 then
    .ok (toLE 8 n ++ toLE 4 K ++ toLE 1 precision ++ toLE 4 nSym)
  else .error (.structError "argument out of range")

/-- The precision an array gets by itself: a slot for every symbol up to its largest, with headroom, sixteen at most. -/
def defaultPrecision (symbols : List ℕ) : ℕ :=
  let nSym := if symbols.length ≠ 0 then symbols.foldr max 0 + 1 else 1
  min 16 (max 12 (Nat.clog 2 (max 2 nSym) + 1))

/-- The number of streams asked for; none and zero mean `_auto_K`. -/
def streamCount (K : Option ℤ) (n : ℕ) : ℤ :=
  match K with
  | some K => if K ≠ 0 then K else autoK n
  | none => autoK n

def ansCompress (round : ℤ → ℤ → ℤ) (symbols : List ℕ) (precision : Option ℕ) (K : Option ℤ) : Except PyErr (List ℕ) :=
  let n := symbols.length
  let precision := precision.getD (defaultPrecision symbols)
  if n = 0 then (packHeader 0 0 precision 0).map (ansMagic ++ ·)
  else
    let K := streamCount K n
    (buildFreqTable round symbols precision).bind fun (freq, cum, nSym) =>
      if freq.any fun f => 65535 < f then
        .error (.valueError "freq exceeds uint16; use precision <= 16 with fewer symbols")
      -- the padding of a negative number of streams has a negative length
      else if K < 0 then .error (.runtimeError "Trying to create tensor with negative dimension")
      else (ransEncodeGpu symbols freq cum precision K.toNat).bind fun code =>
        let wpos := code.wpos.map fun w => (w % 2 ^ 32).toNat
        let words := (code.out.zip wpos).flatMap fun row => (row.1.take row.2).map fun w => (w % 2 ^ 16).toNat
        (packHeader n K.toNat precision nSym).map fun head =>
          ansMagic ++ head ++ (freq.map fun f => (f % 2 ^ 16).toNat).flatMap (toLE 2) ++ wpos.flatMap (toLE 4) ++
            words.flatMap (toLE 2)

/-- The rows of `out` from the words one after the other. -/
def splitWords (maxw : ℕ) : List ℕ → List ℤ → Except PyErr (List (List ℤ))
  | [], _ => .ok []
  | w :: wpos, words =>
    (setSlice (List.replicate maxw 0) 0 w (words.take w)).bind fun row =>
      (splitWords maxw wpos (words.drop w)).map fun rows => row :: rows

/-- `np.frombuffer(blob, count=count)` of numbers of a width, of what is left of the blob. -/
def fromBuffer (width count : ℕ) (bytes : List ℕ) : Except PyErr (List ℕ) :=
  if count * width ≤ bytes.length then .ok (readLE width count bytes)
  else .error (.valueError "buffer is smaller than requested size")

def ansDecompress (blob : List ℕ) : Except PyErr (List ℤ) :=
  if blob.take 4 ≠ ansMagic then .error (.valueError "not an rANS blob")
  else if (blob.drop 4).length < 17 then .error (.runtimeError "unpack requires a buffer of 17 bytes")
  else
    let n := ofLE ((blob.drop 4).take 8)
    let K := ofLE ((blob.drop 12).take 4)
    let precision := ofLE ((blob.drop 16).take 1)
    let nSym := ofLE ((blob.drop 17).take 4)
    let rest := blob.drop 21
    if n = 0 then .ok []
    else
      (fromBuffer 2 nSym rest).bind fun freq => (fromBuffer 4 K (rest.drop (2 * nSym))).bind fun wpos =>
        let bytes := rest.drop (2 * nSym + 4 * K)
        if bytes.length % 2 ≠ 0 then .error (.valueError "buffer size must be a multiple of element size")
        else
          let words := ints (readLE 2 (bytes.length / 2) bytes)
          let cum := 0 :: cumsumInt (ints freq)
          (slotToSymbol (ints freq) precision).bind fun lut =>
            if K = 0 then .error (.valueError "zero-size array to reduction operation maximum")
            else
              (splitWords (wpos.foldr max 0) wpos words).bind fun out =>
                ransDecodeGpu out (ints wpos) (ints freq) cum lut n (ceilDiv n K) precision

end Orka
