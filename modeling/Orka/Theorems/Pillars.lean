import Orka.Pillars
import Orka.Lib.TopK
import Orka.Theorems.Sidecars

/-!
# Protected token rows

A protected position is zeroed and then competes with all others for a place among the outliers. Where it gets one, the zero that was
left there is written behind the captured value and wins.
-/

namespace Orka

open Flat Steps FloatBits TopK

namespace Bits

/-- Positions paired with a function of them. -/
theorem zip_map_right_self {β : Type} (f : ℕ → β) (ps : List ℕ) : ps.zip (ps.map f) = ps.map fun p => (p, f p) := by
  conv_lhs => rw [← List.map_id' ps, List.map_map]
  exact List.zip_map'

/-! ## Stored values -/

/-- A value of a vector as the vector is stored. -/
def storedAs (values : List ℕ) (v : ℕ) : ℕ := if compactFloatDtype values .float16 = .float32 then v else ofHalf (toHalf v)

/-- The round trip through storage stores each value. -/
theorem fp16StorageRoundtrip_eq (values : List ℕ) : fp16StorageRoundtrip values = values.map (storedAs values) := by
  unfold fp16StorageRoundtrip storedAs
  split
  · exact (List.map_id values).symm
  · rfl

/-- What zeroing leaves: a zero of either sign, or what is not a number. -/
def Null (v : ℕ) : Prop := v < 2 ^ 32 ∧ (magnitude v = 0 ∨ infinity < magnitude v)

/-- A zero is stored as itself. -/
theorem storedAs_null {values : List ℕ} {v : ℕ} (h : Null v) (hv : v ∈ values) : storedAs values v = v := by
  classical
  unfold storedAs
  rw [compactFloatDtype_eq]
  by_cases ho : Overflows values
  · simp [ho]
  · -- without an overflow it is a zero
    have hzero : magnitude v = 0 := h.2.resolve_right fun hlt => ho ⟨v, hv, lt_trans (by decide) hlt⟩
    have hsign : v = 0 ∨ v = 2 ^ 31 := by
      have := h.1
      unfold magnitude at hzero
      omega
    simp only [ho, not_false_eq_true, and_self, if_true, reduceCtorEq, if_false]
    rcases hsign with rfl | rfl <;> decide

/-- What is relied on of the products: patterns of 32 bits, a number times zero is a zero of its sign and anything else no number,
and a part of a count is no more than the count. -/
structure FloatProducts.Lawful (ops : FloatProducts) : Prop where
  mul_lt : ∀ v < 2 ^ 32, ∀ w < 2 ^ 32, ops.mul v w < 2 ^ 32
  mul_zero : ∀ v, magnitude v < infinity → ops.mul v 0 = v / 2 ^ 31 * 2 ^ 31
  mul_zero_nan : ∀ v, infinity ≤ magnitude v → infinity < magnitude (ops.mul v 0)
  scale_le : ∀ f ≤ 1, ∀ n, ops.scale f n ≤ n

section Protection

variable {ops : FloatProducts} {backend : Backend} {args : OutlierArgs} {t : VocabTensor} {topTokens : List ℕ}

/-- Pillar positions lie inside the tensor. -/
theorem lt_of_mem_pillarPositions {p : ℕ} (hp : p ∈ t.pillarPositions topTokens) : p < t.packedValues := by
  obtain ⟨tid, htid, hp⟩ := List.mem_flatMap.1 hp
  have hvocab : tid < t.vocab := of_decide_eq_true (List.mem_filter.1 htid).2
  have hrow := List.mem_range'_1.1 hp
  calc p < tid * t.hidden + t.hidden := hrow.2
    _ = (tid + 1) * t.hidden := (Nat.succ_mul tid t.hidden).symm
    _ ≤ t.packedValues := Nat.mul_le_mul_right t.hidden hvocab

/-- Zeroing the pillars keeps the length. -/
theorem length_zeroed : (t.zeroed ops backend topTokens).length = t.flat.length := by
  unfold VocabTensor.zeroed
  split
  · rfl
  · cases backend with
    | numpy => exact length_scatter _ _
    | torch => simp [length_scatter]

/-- What zeroing leaves at a protected position. -/
theorem null_zeroed (hops : ops.Lawful) {p : ℕ} (hp : p ∈ t.pillarPositions topTokens) :
    Null (cell (t.zeroed ops backend topTokens) p) := by
  have hflat : p < t.flat.length := (lt_of_mem_pillarPositions hp).trans_le t.packed
  have hlast : lastWrite ((t.pillarPositions topTokens).map fun p => (p, 0)) p = some 0 := by
    rw [lastWrite_map (fun _ => 0), if_pos hp]
  unfold VocabTensor.zeroed
  rw [if_neg (by rw [List.isEmpty_iff]; exact List.ne_nil_of_mem hp)]
  cases backend with
  | numpy =>
    simp only [cell_scatter _ _ hflat, hlast, Option.getD_some]
    exact ⟨by decide, .inl (by decide)⟩
  | torch =>
    have hmask : p < (List.replicate t.flat.length one).length := by rwa [List.length_replicate]
    have hcell : cell (List.zipWith ops.mul t.flat (scatter (List.replicate t.flat.length one)
        ((t.pillarPositions topTokens).map fun p => (p, 0)))) p = ops.mul (cell t.flat p) 0 := by
      rw [cell_zipWith hflat ((length_scatter _ _).symm ▸ hmask), cell_scatter _ _ hmask, hlast, Option.getD_some]
    simp only [hcell]
    refine ⟨hops.mul_lt _ (t.floats _ (cell_mem hflat)) 0 (by decide), ?_⟩
    rcases lt_or_ge (magnitude (cell t.flat p)) infinity with h | h
    · left
      rw [hops.mul_zero _ h]
      exact Nat.mul_mod_left _ _
    · exact .inr (hops.mul_zero_nan _ h)

/-- Zeroed values are float patterns. -/
theorem zeroed_lt (hops : ops.Lawful) : ∀ v ∈ t.zeroed ops backend topTokens, v < 2 ^ 32 := by
  have hkept : ∀ xs ws, (∀ v ∈ xs, v < 2 ^ 32) → (∀ w ∈ ws, w.2 = 0) → ∀ v ∈ scatter xs ws, v < 2 ^ 32 := by
    intro xs ws hxs hws v hv
    obtain ⟨i, hi, rfl⟩ := List.getElem_of_mem hv
    rw [length_scatter] at hi
    rw [← cell_eq_getElem (by rwa [length_scatter]), cell_scatter _ _ hi]
    cases hl : lastWrite ws i with
    | none => exact hxs _ (cell_mem hi)
    | some w =>
      rw [Option.getD_some, show w = 0 from hws _ (mem_of_lastWrite hl)]
      decide
  have hzeros : ∀ w ∈ (t.pillarPositions topTokens).map fun p => (p, 0), w.2 = 0 := by
    intro w hw
    obtain ⟨p, -, rfl⟩ := List.mem_map.1 hw
    rfl
  unfold VocabTensor.zeroed
  split
  · exact t.floats
  · cases backend with
    | numpy => exact hkept _ _ t.floats hzeros
    | torch =>
      intro v hv
      obtain ⟨a, ha, b, hb, rfl⟩ : ∃ a ∈ t.flat, ∃ b ∈ scatter (List.replicate t.flat.length one)
          ((t.pillarPositions topTokens).map fun p => (p, 0)), ops.mul a b = v := by
        obtain ⟨i, hi, rfl⟩ := List.getElem_of_mem hv
        rw [List.length_zipWith, lt_min_iff] at hi
        exact ⟨_, List.getElem_mem hi.1, _, List.getElem_mem hi.2, (List.getElem_zipWith ..).symm⟩
      refine hops.mul_lt a (t.floats a ha) b (hkept _ _ (fun v hv => ?_) hzeros b hb)
      rw [List.eq_of_mem_replicate hv]
      decide

/-! ## Scores -/

/-- There is one score for each value. -/
theorem length_outlierScores (ops : FloatProducts) (flatAbs : List ℕ) (colImportance : Option (List ℕ)) (cols : ℕ) :
    (outlierScores ops flatAbs colImportance cols).length = flatAbs.length := by
  unfold outlierScores
  cases colImportance with
  | none => exact List.length_map _
  | some h =>
    simp only
    split
    · exact List.length_map _
    · next hfit =>
      push Not at hfit
      have htile : ((List.replicate (flatAbs.length / cols) h).flatten).length = flatAbs.length := by
        rw [List.length_flatten, List.map_replicate, List.sum_replicate, smul_eq_mul, hfit.2.2,
          Nat.div_mul_cancel (Nat.dvd_of_mod_eq_zero hfit.2.1)]
      rw [List.length_zipWith, htile, List.length_map, min_self]

/-- `int(outlier_frac * n)`, and 0 where no outliers are taken. -/
def outlierCount (ops : FloatProducts) (args : OutlierArgs) (t : VocabTensor) : ℕ :=
  if args.outlierFrac ≤ 0 then 0 else ⌊ops.scale args.outlierFrac t.packedValues⌋.toNat

/-- The scores by which outliers are chosen, after the pillars are zeroed. -/
def scoreKeys (ops : FloatProducts) (backend : Backend) (args : OutlierArgs) (t : VocabTensor) (topTokens : List ℕ) : List ℤ :=
  (outlierScores ops (((t.zeroed ops backend topTokens).take t.packedValues).map magnitude) args.colImportance t.hidden).map orderKey

/-- There is one key for each packed value. -/
theorem length_scoreKeys (ops : FloatProducts) (backend : Backend) (args : OutlierArgs) (t : VocabTensor) (topTokens : List ℕ) :
    (scoreKeys ops backend args t topTokens).length = t.packedValues := by
  rw [scoreKeys, List.length_map, length_outlierScores, List.length_map, List.length_take, length_zeroed]
  exact min_eq_left t.packed

/-- No more outliers than values are chosen. -/
theorem outlierCount_le (hops : ops.Lawful) (hfrac : args.outlierFrac ≤ 1) : outlierCount ops args t ≤ t.packedValues := by
  unfold outlierCount
  split
  · exact Nat.zero_le _
  · have hle : ⌊ops.scale args.outlierFrac t.packedValues⌋ ≤ (t.packedValues : ℤ) := by
      have := (Int.floor_le _).trans (hops.scale_le args.outlierFrac hfrac t.packedValues)
      exact_mod_cast this
    omega

/-- The outliers of the tensor. -/
def chosen (ops : FloatProducts) (topk : List ℤ → ℕ → List ℕ) (backend : Backend) (args : OutlierArgs) (t : VocabTensor)
    (topTokens : List ℕ) : List ℕ :=
  if outlierCount ops args t = 0 then [] else topk (scoreKeys ops backend args t topTokens) (outlierCount ops args t)

variable {topk : List ℤ → ℕ → List ℕ}

/-- The outliers extracted are those chosen, if any. -/
theorem extractOutliers_eq : (extractOutliers ops topk (t.zeroed ops backend topTokens) args.outlierFrac t.packedValues
      args.colImportance t.hidden).1 =
    if outlierCount ops args t = 0 then none
    else some (chosen ops topk backend args t topTokens,
      (chosen ops topk backend args t topTokens).map (cell (t.zeroed ops backend topTokens))) := by
  unfold extractOutliers
  by_cases hfrac : args.outlierFrac ≤ 0
  · have hcount : outlierCount ops args t = 0 := if_pos hfrac
    rw [if_pos (.inl hfrac), if_pos hcount]
  · by_cases hk : ⌊ops.scale args.outlierFrac t.packedValues⌋ ≤ 0
    · have hcount : outlierCount ops args t = 0 := (if_neg hfrac).trans (Int.toNat_of_nonpos hk)
      rw [if_pos (.inr hk), if_pos hcount]
    · have hcount : outlierCount ops args t = ⌊ops.scale args.outlierFrac t.packedValues⌋.toNat := if_neg hfrac
      rw [if_neg (by simp [hfrac, hk]), chosen, hcount, if_neg (by omega), if_neg (by omega)]
      rfl

/-- The entries of the sidecar: the pillars and behind them the outliers. -/
theorem outlierEntries_eq (h : t.pillarPositions topTokens ≠ []) :
    outlierEntries ops topk backend args t topTokens =
      some (t.pillarPositions topTokens ++ chosen ops topk backend args t topTokens,
        t.pillarValues topTokens ++
          fp16StorageRoundtrip ((chosen ops topk backend args t topTokens).map (cell (t.zeroed ops backend topTokens)))) := by
  unfold outlierEntries
  rw [extractOutliers_eq, if_neg (by rwa [List.isEmpty_iff])]
  by_cases hk : outlierCount ops args t = 0
  · have hnone : chosen ops topk backend args t topTokens = [] := if_pos hk
    rw [if_pos hk, hnone]
    simp [fp16StorageRoundtrip_eq]
  · rw [if_neg hk]
    rfl

/-! ## What is decoded -/

variable {compress : List ℕ → List ℕ} {decompress : List ℕ → Except PyErr (List ℕ)}

/-- Entries that are written are put in where they belong, the last of a position. -/
theorem decodedVectors_ok (hzlib : ∀ raw, decompress (compress raw) = .ok raw) {positions values : List ℕ}
    (hp : ∀ p ∈ positions, p < 2 ^ 64) (hv : Storable values) (hlen : positions.length = values.length) (stages : List ℕ) :
    ∃ decoded, decodedVectors compress decompress (some (positions, values)) stages = .ok decoded ∧
      ∀ p < stages.length, cell decoded p = (lastWrite (positions.zip values) p).getD (cell stages p) := by
  unfold decodedVectors
  simp only
  by_cases hempty : positions.isEmpty
  · rw [if_pos hempty]
    obtain rfl := List.isEmpty_iff.1 hempty
    exact ⟨stages, rfl, fun p _ => rfl⟩
  · rw [if_neg hempty]
    obtain ⟨w, hw, hread⟩ := readOutliers_writeOutliers hzlib hp hv hlen .float16
    obtain ⟨ps, vs, hps, -, hstable⟩ := hread
      (fun path => if path = "outliers.idx" then some w.positions else if path = "outliers.val" then some w.values else none)
      "outliers.idx" "outliers.val" rfl rfl
    rw [hw, ok_bind, hps, ok_map]
    exact ⟨_, rfl, fun p hp => by rw [cell_scatter _ _ hp, lastWrite_of_stablySorted hstable]⟩

/-- The value captured at a protected position, as it is stored. -/
def VocabTensor.captured (t : VocabTensor) (topTokens : List ℕ) (p : ℕ) : ℕ :=
  storedAs ((t.pillarPositions topTokens).map (cell t.flat)) (cell t.flat p)

/-- The pillar values are those captured at the pillar positions. -/
theorem pillarValues_eq : t.pillarValues topTokens = (t.pillarPositions topTokens).map (t.captured topTokens) := by
  rw [VocabTensor.pillarValues, fp16StorageRoundtrip_eq, List.map_map]
  rfl

/-- Chosen positions lie inside the tensor. -/
theorem chosen_lt (htopk : Chooses topk) {q : ℕ} (hq : q ∈ chosen ops topk backend args t topTokens) : q < t.packedValues := by
  unfold chosen at hq
  split at hq
  · cases hq
  · rw [← length_scoreKeys ops backend args t topTokens]
    exact htopk.lt _ _ q hq

/-- **What a protected position decodes to**: the captured value, unless the position is an outlier too. -/
theorem decoded_at_pillar (hzlib : ∀ raw, decompress (compress raw) = .ok raw) (hops : ops.Lawful) (htopk : Chooses topk)
    (backend : Backend) (args : OutlierArgs) (topTokens : List ℕ) {stages : List ℕ} (hstages : stages.length = t.packedValues) :
    ∃ decoded, decodedVectors compress decompress (outlierEntries ops topk backend args t topTokens) stages = .ok decoded ∧
      ∀ p ∈ t.pillarPositions topTokens, cell decoded p =
        if p ∈ chosen ops topk backend args t topTokens then cell (t.zeroed ops backend topTokens) p
        else t.captured topTokens p := by
  have hsmall : ∀ q < t.packedValues, q < 2 ^ 64 := fun q hq => hq.trans (t.small.trans (by decide))
  have hchosen : ∀ q ∈ chosen ops topk backend args t topTokens, q < 2 ^ 64 := fun q hq => hsmall q (chosen_lt htopk hq)
  have hvalues : ∀ v ∈ (chosen ops topk backend args t topTokens).map (cell (t.zeroed ops backend topTokens)), v < 2 ^ 32 := by
    intro v hv
    obtain ⟨q, hq, rfl⟩ := List.mem_map.1 hv
    refine zeroed_lt hops _ (cell_mem ?_)
    rw [length_zeroed]
    exact (chosen_lt htopk hq).trans_le t.packed
  by_cases hnone : t.pillarPositions topTokens = []
  · -- there is nothing protected
    have hentries : outlierEntries ops topk backend args t topTokens = if outlierCount ops args t = 0 then none else
        some (chosen ops topk backend args t topTokens,
          fp16StorageRoundtrip ((chosen ops topk backend args t topTokens).map (cell (t.zeroed ops backend topTokens)))) := by
      unfold outlierEntries
      rw [extractOutliers_eq, if_pos (by rw [hnone]; rfl)]
      split <;> rfl
    rw [hentries, hnone]
    split
    · exact ⟨stages, rfl, fun p hp => absurd hp List.not_mem_nil⟩
    · obtain ⟨decoded, hdecoded, -⟩ := decodedVectors_ok hzlib hchosen (storable_roundtrip hvalues)
        (by rw [length_fp16StorageRoundtrip, List.length_map]) stages
      exact ⟨decoded, hdecoded, fun p hp => absurd hp List.not_mem_nil⟩
  · have hpillars : ∀ v ∈ (t.pillarPositions topTokens).map (cell t.flat), v < 2 ^ 32 := by
      intro v hv
      obtain ⟨p, hp, rfl⟩ := List.mem_map.1 hv
      exact t.floats _ (cell_mem ((lt_of_mem_pillarPositions hp).trans_le t.packed))
    have hpositions : ∀ p ∈ t.pillarPositions topTokens ++ chosen ops topk backend args t topTokens, p < 2 ^ 64 := by
      intro p hp
      rcases List.mem_append.1 hp with hp | hp
      · exact hsmall p (lt_of_mem_pillarPositions hp)
      · exact hchosen p hp
    obtain ⟨decoded, hdecoded, hcell⟩ := decodedVectors_ok hzlib hpositions
      ((storable_roundtrip hpillars).append (storable_roundtrip hvalues))
      (by simp [length_fp16StorageRoundtrip]) stages
    rw [outlierEntries_eq hnone]
    refine ⟨decoded, hdecoded, fun p hp => ?_⟩
    rw [hcell p (by rw [hstages]; exact lt_of_mem_pillarPositions hp),
      List.zip_append (by rw [length_fp16StorageRoundtrip, List.length_map]), lastWrite_append,
      fp16StorageRoundtrip_eq (List.map _ (chosen ops topk backend args t topTokens)), List.map_map, zip_map_right_self, lastWrite_map]
    by_cases hc : p ∈ chosen ops topk backend args t topTokens
    · rw [if_pos hc, if_pos hc, Option.some_or, Option.getD_some]
      exact storedAs_null (null_zeroed hops hp) (List.mem_map_of_mem hc)
    · rw [if_neg hc, if_neg hc, Option.none_or]
      have hpil : (t.pillarPositions topTokens).zip (fp16StorageRoundtrip ((t.pillarPositions topTokens).map (cell t.flat))) =
          (t.pillarPositions topTokens).map fun p => (p, t.captured topTokens p) := by
        rw [show fp16StorageRoundtrip ((t.pillarPositions topTokens).map (cell t.flat)) = _ from pillarValues_eq, zip_map_right_self]
      rw [hpil, lastWrite_map, if_pos hp, Option.getD_some]

/-- Patterns of one number: both zeros are the same. -/
def SameFloat (a b : ℕ) : Prop := a = b ∨ (magnitude a = 0 ∧ magnitude b = 0)

/-- What is to hold of a tensor with protected tokens: every position of a protected row decodes to the value captured for it,
whatever the stages sum to and whichever of equal scores are chosen. -/
def Protects (compress : List ℕ → List ℕ) (decompress : List ℕ → Except PyErr (List ℕ)) (ops : FloatProducts) (backend : Backend)
    (args : OutlierArgs) (t : VocabTensor) (topTokens : List ℕ) : Prop :=
  ∀ topk, Chooses topk → ∀ stages, stages.length = t.packedValues →
    ∃ decoded, decodedVectors compress decompress (outlierEntries ops topk backend args t topTokens) stages = .ok decoded ∧
      ∀ p ∈ t.pillarPositions topTokens, SameFloat (cell decoded p) (t.captured topTokens p)

/-- A protected position cannot be chosen, or choosing it loses nothing. -/
def OutOfReach (ops : FloatProducts) (backend : Backend) (args : OutlierArgs) (t : VocabTensor) (topTokens : List ℕ) (p : ℕ) : Prop :=
  outlierCount ops args t ≤ largerThan (scoreKeys ops backend args t topTokens) p ∨
    SameFloat (cell (t.zeroed ops backend topTokens) p) (t.captured topTokens p)

/-- Pillars that the choice cannot reach are restored. -/
theorem protects_of_outOfReach (hzlib : ∀ raw, decompress (compress raw) = .ok raw) (hops : ops.Lawful) (hfrac : args.outlierFrac ≤ 1)
    (h : ∀ p ∈ t.pillarPositions topTokens, OutOfReach ops backend args t topTokens p) :
    Protects compress decompress ops backend args t topTokens := by
  intro topk htopk stages hstages
  obtain ⟨decoded, hdecoded, hat⟩ := decoded_at_pillar hzlib hops htopk backend args topTokens hstages
  refine ⟨decoded, hdecoded, fun p hp => ?_⟩
  rw [hat p hp]
  split
  · next hc =>
    refine (h p hp).resolve_left fun hlarger => ?_
    unfold chosen at hc
    split at hc
    · cases hc
    · exact htopk.not_mem (by rw [length_scoreKeys]; exact outlierCount_le hops hfrac) hlarger hc
  · exact .inl rfl

/-- Pillars that are restored are out of reach of the choice. -/
theorem outOfReach_of_protects (hzlib : ∀ raw, decompress (compress raw) = .ok raw) (hops : ops.Lawful)
    (h : Protects compress decompress ops backend args t topTokens) {p : ℕ} (hp : p ∈ t.pillarPositions topTokens) :
    OutOfReach ops backend args t topTokens p := by
  by_contra hout
  unfold OutOfReach at hout
  push Not at hout
  obtain ⟨hlarger, hsame⟩ := hout
  -- a choice that favours the position takes it
  have hchosen : p ∈ chosen ops (topkFirst p) backend args t topTokens := by
    rw [chosen, if_neg (by omega)]
    exact mem_topkFirst (by rw [length_scoreKeys]; exact lt_of_mem_pillarPositions hp) hlarger
  have hstages : (List.replicate t.packedValues 0).length = t.packedValues := List.length_replicate
  obtain ⟨decoded, hdecoded, hat⟩ := decoded_at_pillar hzlib hops (chooses_topkFirst p) backend args topTokens hstages
  obtain ⟨decoded', hdecoded', hholds⟩ := h _ (chooses_topkFirst p) _ hstages
  obtain rfl := Except.ok.inj (hdecoded.symm.trans hdecoded')
  have := hholds p hp
  rw [hat p hp, if_pos hchosen] at this
  exact hsame this

/-- **When token rows are protected**: exactly when each of their positions is out of reach, that is, as many positions have a larger
score than the zero that is left there as outliers are taken, or that zero is the captured value. -/
theorem protects_iff (hzlib : ∀ raw, decompress (compress raw) = .ok raw) (hops : ops.Lawful) (backend : Backend)
    (hfrac : args.outlierFrac ≤ 1) (t : VocabTensor) (topTokens : List ℕ) :
    Protects compress decompress ops backend args t topTokens ↔
      ∀ p ∈ t.pillarPositions topTokens, OutOfReach ops backend args t topTokens p :=
  ⟨fun h _ hp => outOfReach_of_protects hzlib hops h hp, fun h => protects_of_outOfReach hzlib hops hfrac h⟩

/-! ## Two tokens -/

/-- Products that are right for zeros and for powers of two. -/
def powerProducts : FloatProducts where
  mul v w := if magnitude w = 0 then if magnitude v < infinity then v / 2 ^ 31 * 2 ^ 31 else 0x7FC00000 else (v + w - one) % 2 ^ 32
  scale f n := f * n

/-- The example's products are lawful. -/
theorem powerProducts_lawful : powerProducts.Lawful where
  mul_lt v hv w _ := by
    simp only [powerProducts]
    split_ifs <;> omega
  mul_zero v hv := by
    simp [powerProducts, hv, show magnitude 0 = 0 from rfl]
  mul_zero_nan v hv := by
    have : ¬ magnitude v < infinity := not_lt.2 hv
    simp only [powerProducts, show magnitude 0 = 0 from rfl, if_true, this, if_false]
    decide
  scale_le f hf n := mul_le_of_le_one_left (Nat.cast_nonneg n) hf

/-- Two tokens of two values, the first with 1.0 and 2.0. -/
def twoTokens (v w : Fin (2 ^ 32)) : VocabTensor where
  vocab := 2
  hidden := 2
  flat := [one, 0x40000000, v, w]
  packed := le_refl 4
  floats := by
    intro x hx
    simp only [List.mem_cons, List.not_mem_nil, or_false] at hx
    rcases hx with rfl | rfl | rfl | rfl
    · decide
    · decide
    · exact v.isLt
    · exact w.isLt
  small := by decide

instance (a b : ℕ) : Decidable (SameFloat a b) := inferInstanceAs (Decidable (_ ∨ _))

instance (ops : FloatProducts) (backend : Backend) (args : OutlierArgs) (t : VocabTensor) (topTokens : List ℕ) (p : ℕ) :
    Decidable (OutOfReach ops backend args t topTokens p) :=
  inferInstanceAs (Decidable (_ ∨ _))

/-- The other token is larger than the zeros that are left, and takes both outliers. -/
theorem protects_iff_twoTokens :
    Protects storedStream storedData powerProducts .torch ⟨1 / 2, none⟩ (twoTokens 0x3F800000 0x40000000) [0] :=
  (protects_iff storedData_storedStream powerProducts_lawful .torch (by norm_num) _ _).2 (by decide +kernel)

/-- A tensor whose protected rows are lost whichever of equal scores are chosen, and whatever the stages sum to: one of their positions
decodes to something else than the value captured for it. -/
def NeverProtects (compress : List ℕ → List ℕ) (decompress : List ℕ → Except PyErr (List ℕ)) (ops : FloatProducts) (backend : Backend)
    (args : OutlierArgs) (t : VocabTensor) (topTokens : List ℕ) : Prop :=
  ∀ topk, Chooses topk → ∀ stages, stages.length = t.packedValues →
    ∃ decoded, decodedVectors compress decompress (outlierEntries ops topk backend args t topTokens) stages = .ok decoded ∧
      ∃ p ∈ t.pillarPositions topTokens, ¬ SameFloat (cell decoded p) (t.captured topTokens p)

/-- **Two rows, the other one of zeros**: there are three outliers, and only two positions that are not protected, so a protected zero
is one of them, and it decodes to the zero and not to the captured value. -/
theorem zeroRow_not_protected :
    NeverProtects storedStream storedData powerProducts .torch ⟨3 / 4, none⟩ (twoTokens 0 0) [0] := by
  intro topk htopk stages hstages
  obtain ⟨decoded, hdecoded, hat⟩ :=
    decoded_at_pillar storedData_storedStream powerProducts_lawful htopk .torch ⟨3 / 4, none⟩ [0] hstages
  refine ⟨decoded, hdecoded, ?_⟩
  have hpillar : ∃ p, p ∈ chosen powerProducts topk .torch ⟨3 / 4, none⟩ (twoTokens 0 0) [0] ∧ p < 2 := by
    by_contra hout
    push Not at hout
    have hcount : outlierCount powerProducts ⟨3 / 4, none⟩ (twoTokens 0 0) = 3 := by decide +kernel
    have hscores : (scoreKeys powerProducts .torch ⟨3 / 4, none⟩ (twoTokens 0 0) [0]).length = 4 := length_scoreKeys _ _ _ _ _
    have hlength : (chosen powerProducts topk .torch ⟨3 / 4, none⟩ (twoTokens 0 0) [0]).length = 3 := by
      rw [chosen, hcount, if_neg (by decide), htopk.length _ _ (by rw [hscores]; decide)]
    have hnodup : (chosen powerProducts topk .torch ⟨3 / 4, none⟩ (twoTokens 0 0) [0]).Nodup := by
      rw [chosen, hcount, if_neg (by decide)]
      exact htopk.nodup _ _
    have hsub : ∀ q ∈ chosen powerProducts topk .torch ⟨3 / 4, none⟩ (twoTokens 0 0) [0], q ∈ [2, 3] := by
      intro q hq
      have hlt : q < 4 := chosen_lt htopk hq
      have := hout q hq
      have : q = 2 ∨ q = 3 := by omega
      simpa using this
    have hle := (List.subperm_of_subset hnodup hsub).length_le
    rw [hlength] at hle
    exact absurd hle (by decide)
  obtain ⟨p, hp, hlt⟩ := hpillar
  have hmem : p ∈ (twoTokens 0 0).pillarPositions [0] := by
    rw [show (twoTokens 0 0).pillarPositions [0] = [0, 1] by decide +kernel]
    have : p = 0 ∨ p = 1 := by omega
    simpa using this
  refine ⟨p, hmem, ?_⟩
  rw [hat p hmem, if_pos hp]
  interval_cases p
  · decide +kernel
  · decide +kernel

end Protection

end Bits

end Orka
