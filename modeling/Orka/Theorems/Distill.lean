import Orka.Theorems.Decoders
import Orka.Lemmas.Distill

/-!
# The differentiable mirror against the decoder

The mirror carries every step of the decoder but the last: on an entry with a low-rank correction it returns the matrix before
the correction.
-/

namespace Orka

open Flat DecodeAux DistillAux

/-- **The mirror equals the decoder exactly where no low-rank correction acts.** For every entry whose files hold contents, with
as many packed values as its shape has and no escape position twice, the mirror on the stored codebooks returns what
`_decode_tensor` returns if and only if the columns it counts are the decoder's and the correction adds nothing. -/
theorem mirrorDecode_eq_decodeTensor_iff {α : Type} [Field α] [LinearOrder α] [IsStrictOrderedRing α] [FloorRing α]
    (num : Numerics α) (store : Store α) (tm : TensorMeta) (c : TensorContents α) (h : Holds num store tm c)
    (hout : (c.outliers.map Prod.fst).Nodup) (hpil : (c.pillars.map Prod.fst).Nodup) :
    (∃ v, decodeTensor num store tm = .ok v ∧ mirrorDecode num store tm = .ok v) ↔ c.Shaped ∧ c.Uncorrected := by
  have hlen : (c.reinjected (c.scaled (c.unrotated num c.injected))).length = c.count :=
    length_reinjected (length_scaled (length_unrotated (length_injected c)))
  have hself := corrected_eq_self hlen
  rw [decodeTensor_eq h]
  constructor
  · rintro ⟨v, hdecode, hmirror⟩
    obtain ⟨hs, hv⟩ := (mirrorDecode_eq_ok h hout hpil v).1 hmirror
    exact ⟨hs, hself.1 ((Except.ok.inj hdecode).trans hv)⟩
  · rintro ⟨hs, hu⟩
    exact ⟨_, rfl, (mirrorDecode_eq_ok h hout hpil _).2 ⟨hs, hself.2 hu⟩⟩

/-- A tensor with every sidecar, mirrored and decoded. -/
theorem mirrorDecode_eq_decodeTensor_iff_full :
    (∃ v, decodeTensor rationalNumerics fullStore fullEntry = .ok v ∧
      mirrorDecode rationalNumerics fullStore fullEntry = .ok v) ↔ fullContents.Shaped ∧ fullContents.Uncorrected :=
  mirrorDecode_eq_decodeTensor_iff rationalNumerics fullStore fullEntry fullContents fullEntry_holds (by decide) (by decide)

/-- A row of two values, one stage of one codeword, and the correction `_correct_tensor` stores beside it. -/
def correctedEntry : TensorMeta where
  name := "w"
  shape := [1, 2]
  packedValues := 2
  paddedValues := 2
  groupSize := 2
  stages := [{ codebook := "cb", codebookSize := 1, codebookDtype := some .float16, indexBits := 1, packed := some true,
               encoding := some .raw, indices := "idx", groupSize := some 2 }]
  codebook := "cb"
  codebookSize := 1
  indexBits := 1
  indices := "idx"
  lowrank := some { rank := 1, dtype := some .float16, a := "lr.a", b := "lr.b" }

/-- The files of the entry. -/
def correctedStore : Store ℚ := fun path =>
  match path with
  | "cb" => some (.floats .float16 [1, 2])
  | "idx" => some (.stream .raw [0])
  | "lr.a" => some (.floats .float16 [1])
  | "lr.b" => some (.floats .float16 [1, 0])
  | _ => none

/-- The decoder adds the correction, the mirror does not. -/
theorem mirrorDecode_corrected :
    decodeTensor rationalNumerics correctedStore correctedEntry = .ok [2, 2] ∧
      mirrorDecode rationalNumerics correctedStore correctedEntry = .ok [1, 2] := by
  decide +kernel

end Orka
