import Orka.Lemmas.Decode

/-!
# A low-rank correction is added last

What an entry with a correction decodes to is what it decodes to without one, with the product of the factors of its sidecars added.
-/

namespace Orka

open Flat Steps

section Lowrank

variable {α : Type} [Field α] {num : Numerics α}

/-- The correction is the last step of decoding. -/
theorem decodeTensor_eq_bind_lowrank (store : Store α) (tm : TensorMeta) :
    decodeTensor num store tm = (decodeTensor num store { tm with lowrank := none }).bind (decodeLowrank num store tm) := by
  simp only [decodeTensor]
  change (decodeStages num store tm).bind _ = ((decodeStages num store tm).bind _).bind _
  cases decodeStages num store tm with
  | error e => rfl
  | ok sum =>
    simp only [ok_bind]
    change (decodeOutliers num store tm _).bind _ = ((decodeOutliers num store tm _).bind _).bind _
    cases decodeOutliers num store tm (sum.take tm.packedValues) with
    | error e => rfl
    | ok x₁ =>
      simp only [ok_bind]
      change (decodePillars num store tm _).bind _ = ((decodePillars num store tm _).bind _).bind _
      cases decodePillars num store tm x₁ with
      | error e => rfl
      | ok x₂ =>
        simp only [ok_bind]
        change (decodeRotation num tm _).bind _ = ((decodeRotation num tm _).bind _).bind _
        cases decodeRotation num tm x₂ with
        | error e => rfl
        | ok x₃ =>
          simp only [ok_bind]
          change (decodeScales num store tm _).bind _ = ((decodeScales num store tm _).bind _).bind _
          cases decodeScales num store tm x₃ with
          | error e => rfl
          | ok x₄ =>
            simp only [ok_bind]
            change (decodeSalient num store tm _).bind _ = ((decodeSalient num store tm _).bind _).bind _
            cases decodeSalient num store tm x₄ with
            | error e => rfl
            | ok x₅ => rfl

/-- The sidecars hold the factors of a matrix, at float16. -/
structure SidecarsHold (store : Store α) (lr : LowrankMeta) (rows cols : ℕ) (a b : List α) : Prop where
  dtype : lr.dtype = some .float16
  rank : 0 < lr.rank
  fileA : store lr.a = some (.floats .float16 a)
  fileB : store lr.b = some (.floats .float16 b)
  lengthA : a.length = rows * lr.rank
  lengthB : b.length = cols * lr.rank

variable {store : Store α} {tm : TensorMeta} {lr : LowrankMeta} {rows cols : ℕ} {a b decoded : List α}

omit [Field α] in
/-- They are read as they were written. -/
theorem SidecarsHold.readLowrank_ok (h : SidecarsHold store lr rows cols a b) :
    readLowrank num store lr = .ok (rowsOf rows lr.rank a, rowsOf cols lr.rank b) := by
  have hread : ∀ {path : String} {values : List α}, store path = some (.floats .float16 values) →
      readFloats num store path .float16 = .ok values := by
    intro path values hpath
    rw [readFloats, openFile, hpath]
    rfl
  have hcut : ∀ {n : ℕ} {values : List α}, values.length = n * lr.rank →
      reshapeAuto lr.rank values = .ok (rowsOf n lr.rank values) := by
    intro n values hlen
    rw [reshapeAuto, if_neg (by rw [hlen, Nat.mul_mod_left]; exact fun hbad => hbad.elim h.rank.ne' fun h0 => h0 rfl), hlen,
      Nat.mul_div_cancel _ h.rank]
  rw [readLowrank, h.dtype, Option.getD_some, hread h.fileA, hread h.fileB, ok_bind, ok_bind, hcut h.lengthA, hcut h.lengthB]
  rfl

/-- Their product is added. -/
theorem SidecarsHold.decodeLowrank_ok (h : SidecarsHold store lr rows cols a b) (hlr : tm.lowrank = some lr)
    (hshape : rowsCols tm.shape = .ok (rows, cols)) (hdecoded : decoded.length = rows * cols) :
    decodeLowrank num store tm decoded = .ok (List.zipWith (· + ·) decoded (matmulT rows lr.rank cols a b)) := by
  have htake : decoded.take (rows * cols) = decoded := List.take_of_length_le hdecoded.le
  unfold decodeLowrank
  simp only [hlr, h.readLowrank_ok, ok_bind, applyLowrankNumpy, hshape, htake]
  have hproduct : (matmulT rows lr.rank cols a b).length = rows * cols := length_tabulate _ _
  rw [reshape, if_pos hdecoded, ok_bind, flatten_rowsOf hdecoded, length_rowsOf, length_rowsOf, flatten_rowsOf h.lengthA,
    flatten_rowsOf h.lengthB, DecodeAux.broadcastMatrix_same hdecoded hproduct]

/-- **What a corrected entry decodes to.** -/
theorem SidecarsHold.decodeTensor_ok (h : SidecarsHold store lr rows cols a b) (hlr : tm.lowrank = some lr)
    (hshape : rowsCols tm.shape = .ok (rows, cols)) (hdecode : decodeTensor num store { tm with lowrank := none } = .ok decoded)
    (hdecoded : decoded.length = rows * cols) :
    decodeTensor num store tm = .ok (List.zipWith (· + ·) decoded (matmulT rows lr.rank cols a b)) := by
  rw [decodeTensor_eq_bind_lowrank, hdecode, ok_bind]
  exact h.decodeLowrank_ok hlr hshape hdecoded

end Lowrank

end Orka
