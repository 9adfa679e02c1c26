import Orka.Lib.Flat
import Orka.Lib.Steps

/-!
# What the source takes from Python and numpy

The exceptions, `range`, slice assignment and the two ways of indexing a table, each as numpy documents it. An array is the
list of its values in row-major order.
-/

namespace Orka

open Flat Steps

/-- The exceptions the source raises, or lets numpy and torch raise; the message is kept where the source writes it. `outOfFuel`
is no exception: it stands for a `while` that has not ended within the rounds it was given. -/
inductive PyErr where
  | valueError (msg : String)
  | runtimeError (msg : String)
  | indexError
  | typeError
  | zeroDivisionError
  | fileNotFoundError (path : String)
  | assertionError
  | structError (msg : String)
  | outOfFuel
  deriving DecidableEq, Repr

/-- The two array libraries the source dispatches between. -/
inductive Backend where
  | numpy
  | torch
  deriving DecidableEq, Repr

/-- The float formats of `_FLOAT_VALUE_DTYPES`. -/
inductive FloatDtype where
  | float16
  | float32
  deriving DecidableEq, Repr

/-- The formats of `_UNSIGNED_VALUE_DTYPES`. -/
inductive UnsignedDtype where
  | uint8
  | uint16
  | uint32
  | uint64
  deriving DecidableEq, Repr

/-- The codecs of an index stream. -/
inductive Encoding where
  | raw
  | zlib
  deriving DecidableEq, Repr

/-- A file of an artifact, as the array that was written to it and the number format it was written at. An int8 codebook is its
column scales and its integer grid, an index stream is its bytes and the codec around them. -/
inductive File (α : Type) where
  | floats (dtype : FloatDtype) (values : List α)
  | int8 (scales : List α) (q : List ℤ)
  | unsigned (dtype : UnsignedDtype) (values : List ℕ)
  | stream (encoding : Encoding) (raw : List ℕ)
  deriving DecidableEq

/-- What the source takes from outside: `math.sqrt`, `**` on floats, the first eight bytes of the blake2b digest of a name, the
seeded orthogonal matrix of numpy's generator and QR as a flat matrix, the order in which torch performs `n` indexed writes,
and what a file reads as at another format than it was written at. -/
structure Numerics (α : Type) where
  sqrt : ℕ → α
  pow : α → α → α
  nameDigest : String → ℕ
  orthogonal : ℕ → ℕ → List α
  putOrder : (n : ℕ) → { order : List ℕ // order.Perm (List.range n) }
  misreadFloats : FloatDtype → File α → List α
  misreadInt8 : ℕ → File α → List α × List ℤ
  misreadUnsigned : UnsignedDtype → File α → List ℕ
  misreadStream : Encoding → File α → Except PyErr (List ℕ)

/-- Numerics on the rationals, exact where a run takes roots of squares only, powers of exponent 0 or 1 only and reads every
file at its own format; the orthogonal matrix is the identity. -/
def rationalNumerics : Numerics ℚ where
  sqrt n := Nat.sqrt n
  pow x y := if y = 0 then 1 else x
  nameDigest _ := 0
  orthogonal n _ := tabulate (n * n) fun i => if i / n = i % n then 1 else 0
  putOrder n := ⟨List.range n, List.Perm.refl _⟩
  misreadFloats _ _ := []
  misreadInt8 _ _ := ([], [])
  misreadUnsigned _ _ := []
  misreadStream _ _ := .ok []

/-- The files of an artifact directory. -/
abbrev Store (α : Type) := String → Option (File α)

/-- `range(0, n, step)`. -/
def pyRange (n step : ℕ) : Except PyErr (List ℕ) :=
  if step = 0 then .error (.valueError "range() arg 3 must not be zero")
  else .ok ((List.range (ceilDiv n step)).map (· * step))

/-- `xs[a:b]`. -/
def slice {α : Type} (xs : List α) (a b : ℕ) : List α := (xs.drop a).take (b - a)

/-- `out[a:b] = vals`. The slice is clipped to the array; numpy takes values of the slice's length, or one value for all of it,
and refuses the rest. -/
def setSlice {α : Type} (out : List α) (a b : ℕ) (vals : List α) : Except PyErr (List α) :=
  let len := min b out.length - a
  if vals.length = len then .ok (out.take a ++ vals ++ out.drop (a + len))
  else match vals with
    | [v] => .ok (out.take a ++ List.replicate len v ++ out.drop (a + len))
    | _ => .error (.valueError "could not broadcast input array into shape")

/-- `xs.reshape(r, c)`. -/
def reshape {α : Type} (r c : ℕ) (xs : List α) : Except PyErr (List (List α)) :=
  if xs.length = r * c then .ok (rowsOf r c xs) else .error (.valueError "cannot reshape array")

/-- `xs.reshape(-1, c)`. -/
def reshapeAuto {α : Type} (c : ℕ) (xs : List α) : Except PyErr (List (List α)) :=
  if c = 0 ∨ xs.length % c ≠ 0 then .error (.valueError "cannot reshape array") else .ok (rowsOf (xs.length / c) c xs)

/-- The rows and columns of a tensor seen as a matrix: `shape[0]` and the product of the rest. -/
def rowsCols (shape : List ℕ) : Except PyErr (ℕ × ℕ) :=
  match shape with
  | [] => .error .indexError
  | r :: rest => .ok (r, rest.prod)

/-- `v.astype(np.int64)` of an unsigned 64-bit value: two's complement. -/
def toInt64 (v : ℕ) : ℤ := (v : ℤ).bmod (2 ^ 64)

/-- Where a signed index reads in an axis of length `n`: negative indices count from the end. -/
def axisIndex (n : ℕ) (i : ℤ) : Except PyErr ℕ :=
  let j := if i < 0 then i + n else i
  if 0 ≤ j ∧ j < n then .ok j.toNat else .error .indexError

/-- `table[idxs]`: the rows of a table that a list of signed indices names. -/
def takeRows {α : Type} (table : List (List α)) (idxs : List ℤ) : Except PyErr (List (List α)) :=
  idxs.mapM fun i => (axisIndex table.length i).map fun j => table.getD j []

/-- `xs[positions] = values`: the writes happen in order, so the last one at a position stays. One value is written at every
position. -/
def assignAt {α : Type} (xs : List α) (positions : List ℤ) (values : List α) : Except PyErr (List α) :=
  if positions.length = values.length then (positions.mapM (axisIndex xs.length)).map fun ps => scatter xs (ps.zip values)
  else match values with
    | [v] => (positions.mapM (axisIndex xs.length)).map fun ps => scatter xs (ps.map (·, v))
    | _ => .error (.valueError "shape mismatch: value array could not be broadcast")

/-- `xs[positions] = values` on torch, which does not fix the order of the writes. -/
def assignAtTorch {α : Type} (num : Numerics α) (xs : List α) (positions : List ℤ) (values : List α) :
    Except PyErr (List α) :=
  if positions.length = values.length then
    (positions.mapM (axisIndex xs.length)).map fun ps =>
      scatter xs ((num.putOrder ps.length).val.filterMap fun k => (ps.zip values)[k]?)
  else match values with
    | [v] => (positions.mapM (axisIndex xs.length)).map fun ps => scatter xs (ps.map (·, v))
    | _ => .error (.runtimeError "shape mismatch: value tensor cannot be broadcast to indexing result")

/-- `acc += xs` for flat arrays: equal lengths, or one value broadcast. -/
def addInto {α : Type} [Add α] (acc xs : List α) : Except PyErr (List α) :=
  if acc.length = xs.length then .ok (List.zipWith (· + ·) acc xs)
  else match xs with
    | [x] => .ok (acc.map (· + x))
    | _ => .error (.valueError "operands could not be broadcast together")

/-- The length two axes broadcast to. -/
def broadcastDim (a b : ℕ) : Except PyErr ℕ :=
  if a = b then .ok a else if a = 1 then .ok b else if b = 1 then .ok a
  else .error (.valueError "operands could not be broadcast together")

/-- An entrywise operation on a matrix of `r` rows and `c` columns and one of `r'` rows and `c'` columns, with broadcasting. -/
def broadcastMatrix {α : Type} [Zero α] (op : α → α → α) (r c : ℕ) (x : List α) (r' c' : ℕ) (y : List α) :
    Except PyErr (List α) :=
  (broadcastDim r r').bind fun R => (broadcastDim c c').map fun C =>
    tabulate (R * C) fun i =>
      op (cell x ((if r = 1 then 0 else i / C) * c + if c = 1 then 0 else i % C))
        (cell y ((if r' = 1 then 0 else i / C) * c' + if c' = 1 then 0 else i % C))

/-! ## When the calls succeed -/

theorem pyRange_ok {n step : ℕ} (h : 0 < step) : pyRange n step = .ok ((List.range (ceilDiv n step)).map (· * step)) := by
  rw [pyRange, if_neg (by omega)]

/-- Writing a slice of the right length. -/
theorem setSlice_ok {α : Type} {out vals : List α} {a b : ℕ} (hb : b ≤ out.length) (h : vals.length = b - a) (ha : a ≤ b) :
    setSlice out a b vals = .ok (out.take a ++ vals ++ out.drop b) := by
  unfold setSlice
  rw [Nat.min_eq_left hb, if_pos h, Nat.add_sub_cancel' ha]

theorem reshape_ok {α : Type} {r c : ℕ} {xs : List α} (h : xs.length = r * c) : reshape r c xs = .ok (rowsOf r c xs) :=
  if_pos h

/-- Values of whole rows are reshaped to their rows. -/
theorem reshapeAuto_ok {α : Type} {r c : ℕ} {xs : List α} (hc : 0 < c) (h : xs.length = r * c) :
    reshapeAuto c xs = .ok (rowsOf r c xs) := by
  unfold reshapeAuto
  rw [h, Nat.mul_mod_left, Nat.mul_div_left _ hc, if_neg (by omega)]

/-- A value below `2 ^ 63` does not wrap. -/
theorem toInt64_of_lt {v : ℕ} (h : v < 2 ^ 63) : toInt64 v = v := by
  unfold toInt64
  rw [Int.bmod_def]
  omega

/-- A natural index inside names itself. -/
theorem axisIndex_natCast {n i : ℕ} (h : i < n) : axisIndex n (i : ℤ) = .ok i := by
  have h0 : ¬ (i : ℤ) < 0 := by omega
  simp only [axisIndex, if_neg h0]
  rw [if_pos (by omega), Int.toNat_natCast]

/-- A list of indices into a table, as the integers numpy holds. -/
def ints (idxs : List ℕ) : List ℤ := idxs.map Int.ofNat

@[simp] theorem length_ints (idxs : List ℕ) : (ints idxs).length = idxs.length := List.length_map _

/-- Gathering with indices inside the table. -/
theorem takeRows_ints {α : Type} {table : List (List α)} {idxs : List ℕ} (h : ∀ i ∈ idxs, i < table.length) :
    takeRows table (ints idxs) = .ok (idxs.map fun i => table.getD i []) := by
  unfold takeRows ints
  rw [List.mapM_map]
  apply mapM_ok
  intro i hi
  show (axisIndex table.length (i : ℤ)).map _ = _
  rw [axisIndex_natCast (h i hi)]
  rfl

/-- Natural indices inside all name themselves. -/
theorem mapM_axisIndex_ints {n : ℕ} {ps : List ℕ} (h : ∀ p ∈ ps, p < n) : (ints ps).mapM (axisIndex n) = .ok ps := by
  unfold ints
  rw [List.mapM_map]
  have := mapM_ok (f := axisIndex n ∘ Int.ofNat) (g := id) fun p hp => axisIndex_natCast (h p hp)
  rwa [List.map_id] at this

/-- Assigning at positions inside the array. -/
theorem assignAt_ints {α : Type} {xs values : List α} {ps : List ℕ} (hl : ps.length = values.length)
    (h : ∀ p ∈ ps, p < xs.length) : assignAt xs (ints ps) values = .ok (scatter xs (ps.zip values)) := by
  unfold assignAt
  rw [length_ints, if_pos hl, mapM_axisIndex_ints h]
  rfl

end Orka
