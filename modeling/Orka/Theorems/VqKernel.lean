import Orka.Lemmas.VqKernel
import Orka.Theorems.Decoders

/-!
# The C kernel decodes as the decoder does

The kernel sizes its buffer by the first stage and walks it with the group size of each; both are right because the group size and
the width of a scalar stage divide the padded length.
-/

set_option linter.unusedSectionVars false

namespace Orka

open Flat Steps Buffer KernelAux

section Kernel

variable {α : Type} [Field α] [LinearOrder α] [IsStrictOrderedRing α] [FloorRing α]
variable {num : Numerics α} {store : Store α} {tm : TensorMeta} {t : KernelTensor α}

namespace KernelAux

theorem resolveStages_ne_nil (tm : TensorMeta) : resolveStages tm ≠ [] := by
  unfold resolveStages
  split
  · nofun
  · next h => exact mt List.isEmpty_iff.2 h

/-- The width of a stage is positive and cuts the padded length into whole rows. -/
theorem width_spec (hentry : KernelEntry num store tm) {stage : StageMeta} (hstage : stage ∈ resolveStages tm) :
    0 < stage.groupSize.getD tm.groupSize ∧ stage.groupSize.getD tm.groupSize ∣ tm.paddedValues := by
  rcases hentry.widths stage hstage with h | h
  · rw [h]
    exact ⟨hentry.group_pos, hentry.group_dvd⟩
  · rw [h]
    exact ⟨Nat.one_pos, one_dvd _⟩

/-- Whole groups are rounded up to themselves. -/
theorem ceilDivC_mul {n g : ℕ} (hg : 0 < g) (h : g ∣ n) : ceilDivC n g * g = n := by
  have hmul : ceilDiv n g * g = n := by rw [ceilDiv_mul hg, padding_eq_zero h, Nat.add_zero]
  rw [ceilDivC_natCast n g hg]
  exact_mod_cast hmul

/-- Every stage of the struct has the width of its entry. -/
theorem exists_meta {metas : List StageMeta} {stages : List (KernelStage α)}
    (h : List.Forall₂ (SameStage num store tm) metas stages) {st : KernelStage α} (hst : st ∈ stages) :
    ∃ stage ∈ metas, (st.groupSize : ℤ) = (stage.groupSize.getD tm.groupSize : ℕ) := by
  induction h with
  | nil => cases hst
  | @cons stage st' _ _ hs _ ih =>
    rcases List.mem_cons.1 hst with rfl | hst
    · obtain ⟨_, _, _, -, hg, -⟩ := hs
      exact ⟨stage, by simp, hg⟩
    · obtain ⟨stage, hmem, hg⟩ := ih hst
      exact ⟨stage, List.mem_cons_of_mem _ hmem, hg⟩

/-- Each stage walks exactly the padded length. -/
theorem walk_eq (hentry : KernelEntry num store tm) (hsame : SameInputs num store tm t) {stages : List (KernelStage α)}
    (hstages : t.stages = some stages) {st : KernelStage α} (hst : st ∈ stages) :
    0 < (st.groupSize : ℤ) ∧ bufLen t.paddedValues st.groupSize = tm.paddedValues := by
  obtain ⟨stages', hs, -, hall⟩ := hsame.stages
  obtain rfl : stages = stages' := Option.some.inj (hstages.symm.trans hs)
  obtain ⟨stage, hmem, hg⟩ := exists_meta hall hst
  obtain ⟨hpos, hdvd⟩ := width_spec hentry hmem
  rw [bufLen, hg, hsame.padded]
  exact ⟨by omega, ceilDivC_mul hpos hdvd⟩

/-- No offset leaves the buffer, whichever stage it was sized by. -/
theorem accOffsets_lt (hentry : KernelEntry num store tm) (hsame : SameInputs num store tm t) {o : ℤ} (ho : o ∈ accOffsets t) :
    0 ≤ o ∧ o < tm.paddedValues := by
  obtain ⟨stages, hstages, -, -⟩ := hsame.stages
  rw [accOffsets, hstages, Option.getD_some, List.mem_append] at ho
  rcases ho with ho | ho
  · obtain ⟨st, hst, ho⟩ := List.mem_flatMap.1 ho
    obtain ⟨v, hv, ho⟩ := List.mem_flatMap.1 ho
    obtain ⟨j, hj, rfl⟩ := List.mem_map.1 ho
    obtain ⟨hpos, hlen⟩ := walk_eq hentry hsame hstages hst
    rw [List.mem_range] at hv hj
    have hrow : (v + 1) * (st.groupSize : ℤ) ≤ ceilDivC t.paddedValues st.groupSize * st.groupSize :=
      mul_le_mul_of_nonneg_right (by omega) hpos.le
    have hstart : 0 ≤ (v : ℤ) * st.groupSize := mul_nonneg (Int.natCast_nonneg v) hpos.le
    rw [← hlen, bufLen]
    rw [add_mul, one_mul] at hrow
    omega
  · obtain ⟨i, hi, rfl⟩ := List.mem_map.1 ho
    rw [List.mem_range, hsame.packed] at hi
    have := hentry.packed_le
    omega

end KernelAux

/-- **The kernel decodes as the decoder does.** Whatever the decoder returns for an entry, the kernel returns 0 on the same inputs
and leaves the same values, and it touches no place outside its buffer, which the allocator has to grant. -/
theorem orkaVqDequantize_eq_decodeTensor (hentry : KernelEntry num store tm) (hsame : SameInputs num store tm t) {w : List α}
    (hdecode : decodeTensor num store tm = .ok w) {calloc : ℤ → Bool} (hmem : calloc (accLen t) = true) {out : List α}
    (hout : out.length = tm.packedValues) :
    orkaVqDequantize t calloc out = .ok w ∧ ∀ o ∈ accOffsets t, 0 ≤ o ∧ o < accLen t := by
  obtain ⟨stages, hstages, hn, hall⟩ := hsame.stages
  obtain ⟨first, rest, rfl⟩ : ∃ first rest, stages = first :: rest := by
    refine List.exists_cons_of_ne_nil fun hnil => resolveStages_ne_nil tm ?_
    rw [hnil] at hall
    exact List.forall₂_nil_right_iff.1 hall
  obtain ⟨hfirst, hlen⟩ := walk_eq hentry hsame hstages (List.mem_cons_self ..)
  have hacc : accLen t = tm.paddedValues := by simp only [accLen, hstages, hlen]
  refine ⟨?_, fun o ho => hacc ▸ accOffsets_lt hentry hsame ho⟩
  obtain ⟨sum, hsum, hdecode⟩ := bind_eq_ok.1 hdecode
  obtain ⟨d1, h1, hdecode⟩ := bind_eq_ok.1 hdecode
  obtain ⟨d2, h2, hdecode⟩ := bind_eq_ok.1 hdecode
  obtain ⟨d3, h3, hdecode⟩ := bind_eq_ok.1 hdecode
  obtain ⟨d4, h4, hdecode⟩ := bind_eq_ok.1 hdecode
  obtain ⟨d5, h5, h6⟩ := bind_eq_ok.1 hdecode
  obtain rfl : d1 = d2 := by
    rw [decodePillars, hentry.pillars] at h2
    exact Except.ok.inj h2
  obtain rfl : d1 = d3 := by
    rw [decodeRotation, hentry.rotation] at h3
    exact Except.ok.inj h3
  have hbuf : ceilDiv tm.paddedValues tm.groupSize * tm.groupSize = tm.paddedValues := by
    rw [ceilDiv_mul hentry.group_pos, padding_eq_zero hentry.group_dvd, Nat.add_zero]
  rw [decodeStages, if_neg hentry.group_pos.ne', hbuf] at hsum
  obtain ⟨hstep, hlenSum⟩ := stages_ok hall (fun s hs => (width_spec hentry hs).2) (fun s hs => (width_spec hentry hs).1)
    hentry.stages (List.length_replicate ..) hsum
  have htake : (sum.take tm.packedValues).length = tm.packedValues := by
    rw [List.length_take, hlenSum, Nat.min_eq_left hentry.packed_le]
  obtain ⟨ho, hl1⟩ := putOutliers_ok hentry hsame htake h1
  obtain ⟨hs, hl4⟩ := scaleBlocks_ok hentry hsame hl1 h4
  obtain ⟨hsal, hl5⟩ := putSalient_ok hentry hsame hl4 h5
  have hlr := addLowrank_ok hentry hsame hl5 h6
  have hloop : Buffer.loop t.nStages (fun s acc => (peek (first :: rest) s).bind fun st => addStage t.paddedValues st acc)
      (List.replicate tm.paddedValues 0) = .ok sum := by
    rw [hn, hsame.padded, ← hstep]
    refine loop_eq_foldlM fun i hi acc => ?_
    rw [peek_getElem hi, ok_bind]
  have hcopy : Buffer.loop t.packedValues (fun i out => (peek sum i).bind fun a => poke out i a) out = .ok (sum.take tm.packedValues) := by
    rw [hsame.packed, ← hout]
    exact copy_ok (by rw [hout, hlenSum]; exact hentry.packed_le)
  have hpeek : peek (first :: rest) 0 = .ok first := peek_getElem (i := 0) (by simp)
  unfold orkaVqDequantize
  rw [hacc] at hmem
  simp only [hstages, hpeek, ok_bind, hlen, hmem]
  rw [if_neg (by rw [hn]; simp), if_neg (by omega), if_neg (by simp), Int.toNat_natCast, hloop, ok_bind, hcopy, ok_bind, ho, ok_bind,
    hs, ok_bind, hsal, ok_bind]
  exact hlr

end Kernel

/-! ## A matrix with every step of the kernel -/

/-- The entry with every step, not rotated. -/
def plainEntry : TensorMeta := { fullEntry with rotation := none, rotationSeed := none }

/-- What a caller hands to the kernel for it. -/
def plainStruct : KernelTensor ℚ where
  packedValues := 4
  paddedValues := 4
  rows := ⟨1, by decide⟩
  cols := ⟨4, by decide⟩
  nStages := ⟨2, by decide⟩
  stages := some [
    { groupSize := ⟨2, by decide⟩, codebook := some [1, 2, -1, 3], indices := some [⟨0, by decide⟩, ⟨1, by decide⟩] },
    { groupSize := ⟨1, by decide⟩, codebook := some [1 / 2, -(1 / 2)],
      indices := some [⟨1, by decide⟩, ⟨0, by decide⟩, ⟨1, by decide⟩, ⟨0, by decide⟩] }]
  blockScaleSize := ⟨4, by decide⟩
  scaleCount := ⟨1, by decide⟩
  scales := some [2]
  outlierCount := ⟨1, by decide⟩
  outlierPos := some [2]
  outlierVal := some [5]
  salientCount := ⟨1, by decide⟩
  salientIdx := some [⟨3, by decide⟩]
  salientVal := some [7]
  lowrankRank := ⟨1, by decide⟩
  lowrankA := some [1]
  lowrankB := some [1, 0, -1, 2]

/-- The example's entry is one the kernel takes. -/
theorem plainEntry_kernel : KernelEntry rationalNumerics fullStore plainEntry where
  rotation := rfl
  normalization := by decide
  blockScaleSize := by decide
  pillars := rfl
  group_pos := by decide
  group_dvd := by decide
  packed_le := by decide
  packed_le_shape := by decide
  widths := by decide
  stages := by
    have hread : ∀ stage ∈ resolveStages plainEntry,
        (readStageArrays rationalNumerics fullStore stage plainEntry.groupSize plainEntry.paddedValues).toOption.all fun (cb, idxs) =>
          cb.all (fun row => row.length = stage.groupSize.getD plainEntry.groupSize) && idxs.all (0 ≤ ·) := by decide +kernel
    intro stage hstage cb idxs h
    have hall := hread stage hstage
    rw [h] at hall
    simpa [Except.toOption] using hall
  outliers := by
    intro m hm pos val h
    obtain rfl := Option.some.inj hm.symm
    obtain ⟨rfl, -⟩ := Prod.mk.inj (Except.ok.inj (h.symm.trans (by decide +kernel : _ = Except.ok (([2], [5]) : List ℤ × List ℚ))))
    decide
  salient := by
    intro m hm idx val h
    obtain rfl := Option.some.inj hm.symm
    obtain ⟨rfl, -⟩ := Prod.mk.inj (Except.ok.inj (h.symm.trans (by decide +kernel : _ = Except.ok (([3], [7]) : List ℤ × List ℚ))))
    decide
  lowrank := by
    intro lr hm a b h
    obtain rfl := Option.some.inj hm.symm
    obtain ⟨rfl, rfl⟩ := Prod.mk.inj (Except.ok.inj (h.symm.trans
      (by decide +kernel : _ = Except.ok (([[1]], [[1], [0], [-1], [2]]) : List (List ℚ) × List (List ℚ)))))
    rfl

/-- The example's struct has the entry's inputs. -/
theorem plainStruct_same : SameInputs rationalNumerics fullStore plainEntry plainStruct where
  packed := rfl
  padded := rfl
  shape := ⟨1, 4, rfl, rfl, rfl⟩
  stages := ⟨_, rfl, rfl, .cons ⟨[[1, 2], [-1, 3]], [0, 1], _, by decide +kernel, rfl, rfl, rfl, rfl⟩
    (.cons ⟨[[1 / 2], [-(1 / 2)]], [1, 0, 1, 0], _, by decide +kernel, rfl, rfl, rfl, rfl⟩ .nil)⟩
  scales := ⟨[2], by decide +kernel, rfl, rfl, rfl⟩
  outliers := ⟨[2], [5], by decide +kernel, rfl, rfl, rfl⟩
  salient := ⟨[3], _, [7], by decide +kernel, rfl, rfl, rfl, rfl⟩
  lowrank := ⟨[[1]], [[1], [0], [-1], [2]], by decide +kernel, rfl, rfl, rfl⟩

/-- The example decoded by the kernel, inside its buffer. -/
theorem orkaVqDequantize_eq_decodeTensor_plain :
    orkaVqDequantize plainStruct (fun _ => true) [0, 0, 0, 0] = .ok [2, 5, 9, 9] ∧
      ∀ o ∈ accOffsets plainStruct, 0 ≤ o ∧ o < accLen plainStruct :=
  orkaVqDequantize_eq_decodeTensor plainEntry_kernel plainStruct_same (by decide +kernel) rfl rfl

end Orka
