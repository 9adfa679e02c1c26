import Orka.Embedding
import Orka.Lemmas.Decode
import Orka.Lemmas.Runtime

/-!
# A row-lazy embedding against the decoder

A lookup reads, decodes and scales only the groups and blocks of the distinct rows it asks for. For every entry the loader
accepts, each position gets the row of the table that `_decode_tensor` writes, a negative id counting from the end; an id outside
the table raises.
-/

namespace Orka

open Flat Steps DecodeAux

/-! ## Selecting rows -/

section Select

variable {n m : ℕ} {ids : List ℤ}

/-- An index inside an axis, counted from the end where it is negative, is its remainder. -/
theorem axisIndex_emod {i : ℤ} (h0 : -(n : ℤ) ≤ i) (hn : i < n) : axisIndex n i = .ok (i % n).toNat := by
  rcases lt_or_ge i 0 with hneg | hpos
  · rw [axisIndex_of_neg hneg h0, ← Int.add_emod_right, Int.emod_eq_of_lt (by omega) (by omega)]
  · rw [axisIndex_of_nonneg hpos hn, Int.emod_eq_of_lt hpos hn]

/-- An index outside an axis. -/
theorem axisIndex_out {i : ℤ} (h : ¬ (-(n : ℤ) ≤ i ∧ i < n)) : axisIndex n i = .error .indexError := by
  rw [axisIndex, if_neg]
  split <;> omega

/-- The row an id names. -/
def rowOfId (n : ℕ) (i : ℤ) : ℕ := (i % n).toNat

/-- An id inside the table names a row. -/
theorem rowOfId_lt {i : ℤ} (h0 : -(n : ℤ) ≤ i) (hn : i < n) : rowOfId n i < n := by
  have hpos : (0 : ℤ) < n := by omega
  have hlt := Int.emod_lt_of_pos i hpos
  have hge := Int.emod_nonneg i hpos.ne'
  unfold rowOfId
  omega

/-- Place `a` of the row an id names. -/
theorem emod_row {i : ℤ} {a : ℕ} (h0 : -(n : ℤ) ≤ i) (hn : i < n) (ha : a < m) :
    ((i * m + a) % ((n * m : ℕ) : ℤ)).toNat = rowOfId n i * m + a := by
  have hpos : (0 : ℤ) < n := by omega
  have hlt := rowOfId_lt h0 hn
  have hr : ((rowOfId n i : ℕ) : ℤ) = i % n := Int.toNat_of_nonneg (Int.emod_nonneg i hpos.ne')
  have hplace := flat_lt hlt ha
  have hsplit : i * m + a = ((rowOfId n i * m + a : ℕ) : ℤ) + ((n * m : ℕ) : ℤ) * (i / n) := by
    push_cast
    rw [hr]
    calc i * m + a = (i % n + n * (i / n)) * m + a := by rw [Int.emod_add_mul_ediv]
      _ = i % n * m + a + n * m * (i / n) := by ring
  rw [hsplit, Int.add_mul_emod_self_left, Int.emod_eq_of_lt (by omega) (by exact_mod_cast hplace), Int.toNat_natCast]

/-- The ids are rows of the table. -/
def IdsInside (n : ℕ) (ids : List ℤ) : Prop := ∀ i ∈ ids, -(n : ℤ) ≤ i ∧ i < n

instance : Decidable (IdsInside n ids) := inferInstanceAs (Decidable (∀ i ∈ ids, -(n : ℤ) ≤ i ∧ i < n))

/-- Ids inside the table name rows. -/
theorem rows_lt (h : IdsInside n ids) : ∀ r ∈ ids.map (rowOfId n), r < n := by
  intro r hr
  obtain ⟨i, hi, rfl⟩ := List.mem_map.1 hr
  exact rowOfId_lt (h i hi).1 (h i hi).2

/-- A place of a selected row is a place of the buffer. -/
theorem inside_rowSelect (h : IdsInside n ids) : IdsInside (n * m) (rowSelect m ids) := by
  intro j hj
  obtain ⟨i, hi, hj⟩ := List.mem_flatMap.1 hj
  obtain ⟨a, ha, rfl⟩ := List.mem_map.1 hj
  obtain ⟨h0, hn⟩ := h i hi
  have ha' : (a : ℤ) + 1 ≤ m := by exact_mod_cast List.mem_range.1 ha
  push_cast
  constructor
  · nlinarith
  · nlinarith

variable {β : Type} [Zero β]

/-- Reading the places of rows inside the table picks the rows. -/
theorem takeValues_rowSelect {xs : List β} (hx : xs.length = n * m) (h : IdsInside n ids) :
    takeValues xs (rowSelect m ids) = .ok (Flat.pick m (ids.map (rowOfId n)) xs) := by
  have hall : ∀ j ∈ rowSelect m ids,
      ((axisIndex xs.length j).map (cell xs)) = .ok (cell xs (j % ((n * m : ℕ) : ℤ)).toNat) := by
    intro j hj
    obtain ⟨h0, hn⟩ := inside_rowSelect h j hj
    rw [hx, axisIndex_emod h0 hn]
    rfl
  unfold takeValues
  rw [mapM_ok hall]
  congr 1
  rw [rowSelect, List.map_flatMap, Flat.pick, List.map_map, List.flatMap_def]
  congr 1
  apply List.map_congr_left
  intro i hi
  obtain ⟨h0, hn⟩ := h i hi
  have hrow := length_row hx.ge (rowOfId_lt h0 hn)
  rw [Function.comp_apply, List.map_map]
  apply ext_cell
  · rw [List.length_map, List.length_range, hrow]
  · intro a ha
    rw [List.length_map, List.length_range] at ha
    rw [cell_take ha, cell_drop, ← emod_row h0 hn ha]
    exact cell_tabulate _ ha

/-- An id outside raises `IndexError`. -/
theorem takeValues_out {xs : List β} {js : List ℤ} {j : ℤ} (hj : j ∈ js)
    (hout : ¬ (-(xs.length : ℤ) ≤ j ∧ j < xs.length)) : takeValues xs js = .error .indexError := by
  unfold takeValues
  induction js with
  | nil => cases hj
  | cons k js ih =>
    rw [mapM_cons_eq]
    by_cases hk : -(xs.length : ℤ) ≤ k ∧ k < xs.length
    · rw [axisIndex_emod hk.1 hk.2, ok_map, ok_bind, ih ?_, error_map]
      rcases List.mem_cons.1 hj with rfl | hj
      · exact absurd hk hout
      · exact hj
    · rw [axisIndex_out hk, error_map, error_bind]

/-- An id outside the table makes the first read fail, unless a row has no place to read. -/
theorem takeValues_rowSelect_out {xs : List β} (hx : xs.length = n * m) (hm : 0 < m) (h : ¬ IdsInside n ids) :
    takeValues xs (rowSelect m ids) = .error .indexError := by
  simp only [IdsInside, not_forall] at h
  obtain ⟨i, hi, hout⟩ := h
  have hmem : i * m ∈ rowSelect m ids :=
    List.mem_flatMap.2 ⟨i, hi, List.mem_map.2 ⟨0, List.mem_range.2 hm, by simp⟩⟩
  apply takeValues_out hmem
  have hm' : (1 : ℤ) ≤ m := by exact_mod_cast hm
  rw [hx]
  push_cast
  rintro ⟨h0, hn⟩
  apply hout
  constructor
  · nlinarith
  · nlinarith

end Select

/-! ## Distinct ids -/

theorem mem_unique {ids : List ℤ} {i : ℤ} : i ∈ (unique ids).1 ↔ i ∈ ids := by
  simp [unique]

theorem unique_inside {n : ℕ} {ids : List ℤ} : IdsInside n (unique ids).1 ↔ IdsInside n ids := by
  simp only [IdsInside, mem_unique]

/-- Scattering what was computed for the distinct ids gives it for every position. -/
theorem scatter_unique {β : Type} (f : ℤ → List β) (ids : List ℤ) :
    (unique ids).2.map (fun i => ((unique ids).1.map f).getD i []) = ids.map f := by
  have hinv : (unique ids).2 = ids.map (unique ids).1.idxOf := rfl
  rw [hinv, List.map_map]
  apply List.map_congr_left
  intro i hi
  have hlt := List.idxOf_lt_length_iff.2 (mem_unique.2 hi)
  rw [Function.comp_apply, List.getD_eq_getElem _ _ (by rwa [List.length_map]), List.getElem_map, List.getElem_idxOf]

/-! ## The decoder without the steps an embedding leaves out -/

/-- The entry without rotation and column scales, which a lookup does not undo. -/
def TensorMeta.asLookup (tm : TensorMeta) : TensorMeta :=
  { tm with rotation := none, awqColScales := none,
            normalization := if tm.normalizationMode = .awq then none else tm.normalization }

section AsLookup

variable {α : Type} [Field α] {num : Numerics α} {store : Store α} {tm : TensorMeta} {c : TensorContents α}

/-- The contents without rotation and column scales. -/
def TensorContents.asLookup (c : TensorContents α) : TensorContents α :=
  { c with
    rotation := .none
    colScales := none
    hadamard_block := by rintro ⟨⟩
    colScales_length := by rintro ss ⟨⟩ }

/-- The entry without the two steps holds the contents without them. -/
theorem holds_asLookup (h : Holds num store tm c) : Holds num store tm.asLookup c.asLookup where
  shape := h.shape
  packed := h.packed
  padded := h.padded
  group_pos := h.group_pos
  group_dvd := h.group_dvd
  stages := h.stages
  outliers := h.outliers
  pillars := h.pillars
  rotation := rfl
  seed := h.seed
  blockSize := h.blockSize
  scales := by
    have hsc := h.scales
    have hmode : tm.asLookup.normalizationMode = if tm.normalizationMode = .awq then .none else tm.normalizationMode := by
      by_cases hawq : tm.normalizationMode = .awq
      · rw [if_pos hawq, TensorMeta.normalizationMode, TensorMeta.asLookup, if_pos hawq]
        rfl
      · rw [if_neg hawq, TensorMeta.normalizationMode, TensorMeta.asLookup, if_neg hawq]
        rfl
    unfold HoldsScales at hsc ⊢
    rw [hmode]
    cases hm : tm.normalizationMode with
    | none =>
      rw [hm] at hsc
      exact ⟨hsc.1, rfl⟩
    | awq =>
      rw [hm] at hsc
      exact ⟨hsc.1, rfl⟩
    | blockMax | channelBlockMax | slrqBlock =>
      rw [hm] at hsc
      exact ⟨rfl, hsc.2⟩
    | awqBlockMax =>
      rw [hm] at hsc
      exact ⟨hsc.1, rfl⟩
  salient := h.salient
  lowrank := h.lowrank

/-- What `can_serve` has checked of an entry it accepts. -/
theorem canServe_true (hs : canServe tm = .ok (true, "")) : ∃ vocab dim, tm.shape = [vocab, dim] ∧ tm.groupSize ∣ dim ∧
    tm.blockSize ∣ dim ∧ tm.outliers = none ∧ tm.salient = none ∧ tm.lowrank = none ∧ tm.pillars = none ∧
      ∀ stage ∈ tm.stages, stage.groupSize.getD tm.groupSize = tm.groupSize := by
  unfold canServe at hs
  split at hs
  case h_2 => simp at hs
  case h_1 vocab dim hshape =>
    dsimp only at hs
    split_ifs at hs with hg hdim hblock hmixed
    · simp at hs
    · simp at hs
    · split at hs <;> simp at hs
    · split at hs
      · simp at hs
      · rename_i hnone
        simp only [List.find?_eq_none, List.forall_mem_cons, Bool.not_eq_true, Option.isSome_eq_false_iff,
          Option.isNone_iff_eq_none, List.not_mem_nil, false_imp_iff, implies_true, and_true] at hnone
        obtain ⟨ho, hsal, hl, hp⟩ := hnone
        simp only [List.any_eq_true, decide_eq_true_eq, not_exists, not_and, ne_eq, not_not] at hmixed
        exact ⟨vocab, dim, hshape, Nat.dvd_of_mod_eq_zero (not_not.1 hdim), Nat.dvd_of_mod_eq_zero (not_not.1 hblock), ho,
          hsal, hl, hp, hmixed⟩

/-- The resolved stages have the entry's group size when its stages do. -/
theorem groupSize_resolved (hs : ∀ stage ∈ tm.stages, stage.groupSize.getD tm.groupSize = tm.groupSize) :
    ∀ stage ∈ resolveStages tm, stage.groupSize.getD tm.groupSize = tm.groupSize := by
  intro stage hmem
  unfold resolveStages at hmem
  split_ifs at hmem
  · obtain rfl := List.mem_singleton.1 hmem
    rfl
  · exact hs stage hmem

/-- The rows of an accepted entry are whole groups and whole blocks, of one group size. -/
theorem canServe_cols (hs : canServe tm = .ok (true, "")) (h : Holds num store tm c) : tm.groupSize ∣ c.cols ∧
    tm.blockSize ∣ c.cols ∧ ∀ stage ∈ resolveStages tm, stage.groupSize.getD tm.groupSize = tm.groupSize := by
  obtain ⟨vocab, dim, hshape, hg, hb, -, -, -, -, hgroup⟩ := canServe_true hs
  have hpair := h.shape
  rw [hshape] at hpair
  have hcols : c.cols = dim := by simpa using (congrArg Prod.snd (Except.ok.inj hpair)).symm
  rw [hcols]
  exact ⟨hg, hb, groupSize_resolved hgroup⟩

/-! ## A lookup -/

/-- Adding to zeros gives the values. -/
theorem zero_add_values {n : ℕ} {xs : List α} (h : xs.length = n) : List.zipWith (· + ·) (List.replicate n 0) xs = xs := by
  have hl : (List.zipWith (· + ·) (List.replicate n 0) xs).length = xs.length := by
    rw [List.length_zipWith, List.length_replicate, h, Nat.min_self]
  apply ext_cell hl
  intro i hi
  rw [hl] at hi
  rw [cell_zipWith (by rwa [List.length_replicate, ← h]) hi, cell_replicate_zero, zero_add]

end AsLookup

/-! ## The buffers -/

section Held

variable {α : Type} {tm : TensorMeta} {c : TensorContents α} {ids : List ℤ}

/-- The buffers of a stage. -/
def heldStage (s : StageContents α) : EmbeddingStage α := ⟨s.codebook, ints s.indices⟩

/-- The buffers of a table. -/
def heldEmbedding (tm : TensorMeta) (c : TensorContents α) : VQEmbedding α :=
  { numEmbeddings := c.rows, embeddingDim := c.cols, groupSize := tm.groupSize, blockSize := tm.blockSize,
    stages := c.stages.map heldStage, scales := c.blockScales }

/-- An index below the size of its codebook fits the buffer chosen for that size. -/
theorem storeIndex_natCast {k i : ℕ} (hi : i < k) (hk : k ≤ 2 ^ 31) : storeIndex k (i : ℤ) = i := by
  unfold storeIndex
  split
  · exact Int.emod_eq_of_lt (by omega) (by omega)
  · split
    · exact Int.bmod_eq_of_le (by omega) (by omega)
    · exact Int.bmod_eq_of_le (by omega) (by omega)

/-- One stage of the rows of some ids: those rows of the values of the stage. -/
theorem stagePart_eq (hids : IdsInside c.rows ids) (hdvd : tm.groupSize ∣ c.cols) {s : StageContents α}
    (hwidth : s.width = tm.groupSize) (hlen : s.indices.length = c.rows * (c.cols / tm.groupSize)) :
    (heldEmbedding tm c).stagePart ids (heldStage s) = .ok (Flat.pick c.cols (ids.map (rowOfId c.rows)) s.values) := by
  have hread : takeValues (ints s.indices) (rowSelect (c.cols / tm.groupSize) ids) =
      .ok (ints (Flat.pick (c.cols / tm.groupSize) (ids.map (rowOfId c.rows)) s.indices)) := by
    rw [takeValues_rowSelect (by rw [length_ints, hlen]) hids, ints, pick_map]
    rfl
  have hgather := @pick_gather α s.codebook s.indices (ids.map (rowOfId c.rows)) (c.cols / tm.groupSize) s.width
    s.row_width s.index_lt
  rw [hwidth, Nat.div_mul_cancel hdvd] at hgather
  unfold VQEmbedding.stagePart heldStage heldEmbedding
  dsimp only
  rw [hread, ok_bind, takeRows_ints fun i hi => s.index_lt i (mem_of_mem_pick hi), ok_map, ← List.flatMap_def]
  exact congrArg Except.ok hgather

end Held

section Lookup

variable {α : Type} [Field α] [LinearOrder α] [FloorRing α]
variable {num : Numerics α} {store : Store α} {tm : TensorMeta} {c : TensorContents α}

/-- A stage as it is packed: its format and size are recorded, and binary16 holds its values. -/
structure StageEmbeddable (stage : StageMeta) (s : StageContents α) : Prop where
  dtype : stage.codebookDtype ≠ none
  size : stage.codebookSize = s.codebook.length
  small : s.codebook.length ≤ 2 ^ 31
  codebook16 : ∀ row ∈ s.codebook, ∀ x ∈ row, Binary16.round16 x = x

/-- A table as it is packed: whole groups without padding, and floats that binary16 holds. -/
structure Embeddable (num : Numerics α) (store : Store α) (tm : TensorMeta) (c : TensorContents α) : Prop where
  holds : Holds num store tm c
  padded : c.padded = c.count
  stages : List.Forall₂ StageEmbeddable (resolveStages tm) c.stages
  scales16 : ∀ ss, c.blockScales = some ss → ∀ x ∈ ss, Binary16.round16 x = x

/-- Half-precision values round to themselves. -/
theorem map_round16 {xs : List α} (h : ∀ x ∈ xs, Binary16.round16 x = x) : xs.map Binary16.round16 = xs := by
  conv_rhs => rw [← List.map_id xs]
  exact List.map_congr_left h

/-- A stage is read into the buffers of its contents. -/
theorem embeddingStage_eq {stage : StageMeta} {s : StageContents α} (hgroup : stage.groupSize.getD tm.groupSize = tm.groupSize)
    (hst : HoldsStage num store tm.groupSize tm.paddedValues stage s) (he : StageEmbeddable stage s) :
    embeddingStage num store tm tm.paddedValues stage = .ok (heldStage s) := by
  obtain ⟨d, hd⟩ := Option.ne_none_iff_exists'.1 he.dtype
  have hread := hst.2
  unfold readStageArrays at hread
  dsimp only at hread
  rw [hgroup] at hread
  split_ifs at hread with hpos
  obtain ⟨cb, hcb, hread⟩ := bind_eq_ok.1 hread
  obtain ⟨idxs, hidxs, hpair⟩ := map_eq_ok.1 hread
  obtain ⟨rfl, rfl⟩ := Prod.mk.inj hpair
  have hcb' : readCodebook num store stage.codebook tm.groupSize (stage.codebookDtype.getD .float16) = .ok s.codebook := by
    rw [hd] at hcb ⊢
    exact hcb
  have hround : s.codebook.map (·.map Binary16.round16) = s.codebook := by
    conv_rhs => rw [← List.map_id s.codebook]
    exact List.map_congr_left fun row hrow => map_round16 (he.codebook16 row hrow)
  have hstore : (ints s.indices).map (storeIndex stage.codebookSize) = ints s.indices := by
    unfold ints
    rw [List.map_map]
    apply List.map_congr_left
    intro i hi
    rw [he.size]
    exact storeIndex_natCast (s.index_lt i hi) he.small
  unfold embeddingStage
  rw [hidxs, ok_bind, hcb', ok_map, hround, hstore]
  rfl

/-- The stages of an embedding are the stages stored. -/
theorem embeddingStages_eq {stages : List StageMeta} {cs : List (StageContents α)}
    (hgroup : ∀ stage ∈ stages, stage.groupSize.getD tm.groupSize = tm.groupSize)
    (hst : List.Forall₂ (HoldsStage num store tm.groupSize tm.paddedValues) stages cs)
    (he : List.Forall₂ StageEmbeddable stages cs) :
    stages.mapM (embeddingStage num store tm tm.paddedValues) = .ok (cs.map heldStage) := by
  induction hst with
  | nil => rfl
  | @cons stage s stages cs hs _ ih =>
    obtain ⟨he, hes⟩ := List.forall₂_cons.1 he
    rw [mapM_cons_eq, embeddingStage_eq (hgroup stage (by simp)) hs he, ok_bind,
      ih (fun t ht => hgroup t (List.mem_cons_of_mem _ ht)) hes, ok_map]
    rfl

/-- The scales of an embedding are the scales stored. -/
theorem embeddingScales_eq (h : Embeddable num store tm c) :
    embeddingScales num store tm (c.rows * c.cols) = .ok c.blockScales := by
  have hsc := h.holds.scales
  have hstored : ∀ ss, c.blockScales = some ss → readScales num store tm = .ok ss →
      ((readScales num store tm).map fun arr =>
        some ((arr.take (ceilDiv (c.rows * c.cols) tm.blockSize)).map Binary16.round16)) = .ok c.blockScales := by
    intro ss hss hread
    have hlen := c.blockScales_length ss hss
    rw [← h.holds.blockSize] at hlen
    rw [hread, ok_map, List.take_of_length_le hlen.le, map_round16 (h.scales16 ss hss), hss]
  unfold embeddingScales
  unfold HoldsScales at hsc
  cases hm : tm.normalizationMode with
  | none | awq =>
    rw [hm] at hsc
    rw [hsc.1]
    rfl
  | blockMax | channelBlockMax | slrqBlock =>
    rw [hm] at hsc
    obtain ⟨-, ss, hss, hread⟩ := hsc
    exact hstored ss hss hread
  | awqBlockMax =>
    rw [hm] at hsc
    obtain ⟨⟨ss, hss, hread⟩, -⟩ := hsc
    exact hstored ss hss hread

/-- What `from_artifact` builds. -/
theorem fromArtifact_eq (hs : canServe tm = .ok (true, "")) (h : Embeddable num store tm c) :
    VQEmbedding.fromArtifact num store tm = .ok (heldEmbedding tm c) := by
  obtain ⟨vocab, dim, -, -, -, -, -, -, -, hgroup⟩ := canServe_true hs
  have hpad : tm.paddedValues = c.rows * c.cols := by rw [h.holds.padded, h.padded, TensorContents.count]
  have hstages := embeddingStages_eq (groupSize_resolved hgroup) h.holds.stages h.stages
  rw [hpad] at hstages
  unfold VQEmbedding.fromArtifact
  rw [hs, ok_bind, if_neg (by simp), h.holds.shape, ok_bind]
  dsimp only
  rw [hstages, ok_bind, embeddingScales_eq h, ok_map]
  rfl

/-- The sizes of an entry whose rows are whole groups and whole blocks. -/
theorem heldStage_length (h : Embeddable num store tm c) (hgroup : ∀ stage ∈ resolveStages tm,
    stage.groupSize.getD tm.groupSize = tm.groupSize) (hdvd : tm.groupSize ∣ c.cols) {s : StageContents α} (hmem : s ∈ c.stages) :
    s.width = tm.groupSize ∧ s.indices.length = c.rows * (c.cols / tm.groupSize) := by
  obtain ⟨stage, hstage, hst⟩ : ∃ stage ∈ resolveStages tm, HoldsStage num store tm.groupSize tm.paddedValues stage s := by
    have hall := h.holds.stages
    obtain ⟨i, hi, rfl⟩ := List.getElem_of_mem hmem
    exact ⟨_, List.getElem_mem (by rwa [hall.length_eq]), (List.forall₂_iff_get.1 hall).2 i (by rwa [hall.length_eq]) hi⟩
  have hwidth : s.width = tm.groupSize := hst.1.symm.trans (hgroup stage hstage)
  refine ⟨hwidth, ?_⟩
  have hcount := c.stage_count s hmem
  obtain ⟨q, hq⟩ := hdvd
  have hpos := h.holds.group_pos
  rw [h.padded, TensorContents.count, hwidth, hq, Nat.mul_comm tm.groupSize q, ← Nat.mul_assoc] at hcount
  rw [hq, Nat.mul_div_cancel_left _ hpos]
  exact Nat.eq_of_mul_eq_mul_right hpos hcount

/-- An embedding has a stage. -/
theorem stages_ne_nil (h : Embeddable num store tm c) : c.stages ≠ [] := by
  intro hnil
  have hlen := h.holds.stages.length_eq
  rw [hnil, List.length_nil] at hlen
  have hres := List.eq_nil_of_length_eq_zero hlen
  unfold resolveStages at hres
  split_ifs at hres with hempty
  exact hempty (by rw [hres]; rfl)

variable [IsStrictOrderedRing α] {ids : List ℤ}

/-- The stages after the first. -/
theorem stageParts_eq (hids : IdsInside c.rows ids) (hdvd : tm.groupSize ∣ c.cols) {cs : List (StageContents α)}
    (hcs : ∀ s ∈ cs, s.width = tm.groupSize ∧ s.indices.length = c.rows * (c.cols / tm.groupSize)) :
    ∀ acc : List α, acc.length = c.rows * c.cols →
      (cs.map heldStage).foldlM (fun out s => ((heldEmbedding tm c).stagePart ids s).map fun part =>
          List.zipWith (· + ·) out part) (Flat.pick c.cols (ids.map (rowOfId c.rows)) acc) =
        .ok (Flat.pick c.cols (ids.map (rowOfId c.rows)) (cs.foldl (fun acc s => List.zipWith (· + ·) acc s.values) acc)) := by
  induction cs with
  | nil =>
    intro acc _
    rfl
  | cons s cs ih =>
    intro acc hacc
    obtain ⟨hwidth, hlen⟩ := hcs s (by simp)
    have hvalues : s.values.length = c.rows * c.cols := by
      rw [length_values, hlen, hwidth, Nat.mul_assoc, Nat.div_mul_cancel hdvd]
    rw [List.map_cons, foldlM_cons_eq, stagePart_eq hids hdvd hwidth hlen, ok_map, ok_bind,
      pick_zipWith _ hacc hvalues (rows_lt hids)]
    exact ih (fun t ht => hcs t (List.mem_cons_of_mem _ ht)) _ (by rw [List.length_zipWith, hacc, hvalues, Nat.min_self])

/-- The rows of ids inside the table: those rows of the scaled sum. -/
theorem decodeRows_eq (hs : canServe tm = .ok (true, "")) (h : Embeddable num store tm c) (hids : IdsInside c.rows ids) :
    (heldEmbedding tm c).decodeRows ids =
      .ok (Flat.pick c.cols (ids.map (rowOfId c.rows)) (c.blockScaled (c.sum.take c.count))) := by
  obtain ⟨hg, hb, hgroup⟩ := canServe_cols hs h.holds
  have hsizes : ∀ s ∈ c.stages, s.width = tm.groupSize ∧ s.indices.length = c.rows * (c.cols / tm.groupSize) := fun s hmem =>
    heldStage_length h hgroup hg hmem
  have hsum : (heldEmbedding tm c).stageSum ids = .ok (Flat.pick c.cols (ids.map (rowOfId c.rows)) c.sum) := by
    unfold VQEmbedding.stageSum TensorContents.sum
    obtain ⟨s, rest, hstages⟩ := List.exists_cons_of_ne_nil (stages_ne_nil h)
    have hheld : (heldEmbedding tm c).stages = heldStage s :: rest.map heldStage := by
      rw [heldEmbedding, hstages, List.map_cons]
    rw [hstages] at hsizes
    obtain ⟨hwidth, hlen⟩ := hsizes s (by simp)
    have hvalues : s.values.length = c.rows * c.cols := by
      rw [length_values, hlen, hwidth, Nat.mul_assoc, Nat.div_mul_cancel hg]
    rw [hheld]
    dsimp only
    rw [stagePart_eq hids hg hwidth hlen, ok_bind, hstages, List.foldl_cons,
      zero_add_values (by rw [hvalues, h.padded, TensorContents.count])]
    exact stageParts_eq hids hg (fun t ht => hsizes t (List.mem_cons_of_mem _ ht)) _ hvalues
  have hfull : c.sum.take c.count = c.sum := List.take_of_length_le (by rw [length_sum, h.padded])
  have hlen : c.sum.length = c.rows * c.cols := by rw [length_sum, h.padded, TensorContents.count]
  unfold VQEmbedding.decodeRows
  rw [hsum, ok_bind, hfull, TensorContents.blockScaled]
  cases hbs : c.blockScales with
  | none =>
    have hnone : (heldEmbedding tm c).scales = none := hbs
    rw [hnone]
  | some ss =>
    have hsome : (heldEmbedding tm c).scales = some ss := hbs
    obtain ⟨q, hq⟩ := hb
    have hpos := c.blockSize_pos
    have hbeq := h.holds.blockSize
    have hdiv : c.cols / tm.blockSize = q := by rw [hq, Nat.mul_div_cancel_left _ (by rwa [hbeq])]
    have hcq : c.cols = q * c.blockSize := by rw [hq, hbeq, Nat.mul_comm]
    have hcount : c.count = c.rows * q * c.blockSize := by rw [TensorContents.count, hcq, Nat.mul_assoc]
    have hss : ss.length = c.rows * q := by
      rw [c.blockScales_length ss hbs, ← TensorContents.count, hcount, ceilDiv_of_dvd hpos (Nat.dvd_mul_left _ _),
        Nat.mul_div_cancel _ hpos]
    have hpadding : padding c.count c.blockSize = 0 := padding_eq_zero ⟨c.rows * q, by rw [hcount, Nat.mul_comm]⟩
    have hscaled : (scaleRows c.blockSize c.sum ss).length = c.count := by
      rw [length_scaleRows (by rw [hss, hlen, ← hcount, TensorContents.count]), hss, hcount]
    rw [hsome]
    dsimp only [heldEmbedding]
    rw [hdiv, takeValues_rowSelect hss hids, ok_map, hpadding, List.replicate_zero, List.append_nil,
      List.take_of_length_le hscaled.le, hbeq, hcq, pick_scaleRows hpos (by rw [hlen, hcq]) hss (rows_lt hids)]

omit [IsStrictOrderedRing α] in
/-- With a column to read, an id outside the table raises at the first stage. -/
theorem decodeRows_out (hs : canServe tm = .ok (true, "")) (h : Embeddable num store tm c) (hcols : c.cols ≠ 0)
    (hout : ¬ IdsInside c.rows ids) : (heldEmbedding tm c).decodeRows ids = .error .indexError := by
  obtain ⟨hg, -, hgroup⟩ := canServe_cols hs h.holds
  obtain ⟨s, rest, hstages⟩ := List.exists_cons_of_ne_nil (stages_ne_nil h)
  have hheld : (heldEmbedding tm c).stages = heldStage s :: rest.map heldStage := by
    rw [heldEmbedding, hstages, List.map_cons]
  obtain ⟨-, hlen⟩ := heldStage_length h hgroup hg (s := s) (by simp [hstages])
  have hpos : 0 < c.cols / tm.groupSize := Nat.div_pos (Nat.le_of_dvd (by omega) hg) h.holds.group_pos
  have hpart : (heldEmbedding tm c).stagePart ids (heldStage s) = .error .indexError := by
    unfold VQEmbedding.stagePart heldStage heldEmbedding
    dsimp only
    rw [takeValues_rowSelect_out (by rw [length_ints, hlen]) hpos hout, error_bind]
  unfold VQEmbedding.decodeRows VQEmbedding.stageSum
  rw [hheld]
  dsimp only
  rw [hpart, error_bind, error_bind]

/-- What the decoder writes for an accepted entry, rotation and column scales aside: the scaled sum. -/
theorem decodeTensor_asLookup (hs : canServe tm = .ok (true, "")) (h : Holds num store tm c) :
    decodeTensor num store tm.asLookup = .ok (c.blockScaled (c.sum.take c.count)) := by
  obtain ⟨vocab, dim, -, -, -, ho, hsal, hl, hp, -⟩ := canServe_true hs
  have houtliers : c.outliers = [] := by
    have := h.outliers
    rwa [ho] at this
  have hpillars : c.pillars = [] := by
    have := h.pillars
    rwa [hp] at this
  have hsalient : c.salient = none := by
    have := h.salient
    unfold HoldsSalient at this
    rwa [hsal] at this
  have hlowrank : c.lowrank = none := by
    have := h.lowrank
    unfold HoldsLowrank at this
    rwa [hl] at this
  have hplain : c.asLookup.Plain :=
    { rotation := rfl
      colScales := rfl
      pillars := hpillars
      lowrank := by
        intro rank a b hlow
        rw [show c.asLookup.lowrank = c.lowrank from rfl, hlowrank] at hlow
        cases hlow }
  have hwrites : c.asLookup.salientOf = [] := by
    unfold TensorContents.salientOf
    rw [show c.asLookup.salient = c.salient from rfl, hsalient]
  rw [decodeTensor_eq (holds_asLookup h), reconstruct_plain hplain, hwrites,
    show c.asLookup.outliers = c.outliers from rfl, houtliers]
  rfl

/-- What a lookup in the buffers of an entry returns: the row each id names in the table the decoder writes. -/
def ServesRows (num : Numerics α) (store : Store α) (tm : TensorMeta) (rows cols : ℕ) (emb : VQEmbedding α) : Prop :=
  ∃ dense, decodeTensor num store tm.asLookup = .ok dense ∧ dense.length = rows * cols ∧
    ∀ (cast : α → α) (ids : List ℤ), emb.forward cast ids =
      if cols = 0 ∨ IdsInside rows ids then
        .ok (ids.map fun i => ((dense.drop (rowOfId rows i * cols)).take cols).map cast)
      else .error .indexError

/-- **A row-lazy lookup is a lookup in the decoded table.** -/
theorem servesRows (hs : canServe tm = .ok (true, "")) (h : Embeddable num store tm c) :
    ServesRows num store tm c.rows c.cols (heldEmbedding tm c) := by
  have hdense := length_blockScaled_eq (c := c) (length_truncated c)
  refine ⟨_, decodeTensor_asLookup hs h.holds, hdense, ?_⟩
  intro cast ids
  generalize hd : c.blockScaled (c.sum.take c.count) = dense at hdense
  unfold VQEmbedding.forward
  dsimp only
  split_ifs with hok
  · by_cases hcols : c.cols = 0
    · -- without columns no id is looked at
      have hrows : ∀ flat, (heldEmbedding tm c).decodeRows flat = (heldEmbedding tm c).decodeRows [] := by
        intro flat
        have hzero : ∀ b, rowSelect ((heldEmbedding tm c).embeddingDim / b) flat = [] := by
          intro b
          rw [show (heldEmbedding tm c).embeddingDim = 0 from hcols, Nat.zero_div]
          simp [rowSelect]
        unfold VQEmbedding.decodeRows VQEmbedding.stageSum VQEmbedding.stagePart
        simp only [hzero]
        rfl
      rw [hrows, decodeRows_eq hs h (by rintro i ⟨⟩), ok_map]
      congr 1
      rw [show (unique ids).2 = ids.map (unique ids).1.idxOf from rfl, List.map_map]
      apply List.map_congr_left
      intro i _
      have hempty : (heldEmbedding tm c).embeddingDim = 0 := hcols
      rw [Function.comp_apply, hempty, hcols]
      simp [rowsOf, Flat.pick]
    · have hids := unique_inside.2 (hok.resolve_left hcols)
      have hwidth : (heldEmbedding tm c).embeddingDim = c.cols := rfl
      have hcut := rowsOf_pick (c := c.cols) hdense.ge (rows_lt hids)
      rw [List.length_map] at hcut
      rw [decodeRows_eq hs h hids, ok_map, hd, hwidth, hcut, List.map_map]
      have hscatter := scatter_unique (fun i => (dense.drop (rowOfId c.rows i * c.cols)).take c.cols) ids
      have hcast := congrArg (List.map (List.map cast)) hscatter
      rw [List.map_map, List.map_map] at hcast
      exact congrArg Except.ok hcast
  · rw [not_or] at hok
    obtain ⟨hcols, hout⟩ := hok
    rw [decodeRows_out hs h hcols fun hin => hout (unique_inside.1 hin), error_map]

/-! ## The loader -/

/-- The entry a weight stands for: the first of its name, else the only one whose name ends in it. -/
def NamesEntry (weightName : String) (tensors : List TensorMeta) (tm : TensorMeta) : Prop :=
  (tm.name = weightName ∧ ∃ before after, tensors = before ++ tm :: after ∧ ∀ t ∈ before, t.name ≠ weightName) ∨
    ((∀ t ∈ tensors, t.name ≠ weightName) ∧
      tensors.filter (fun t => endsWith t.name.toList ("." ++ weightName)) = [tm])

/-- The entry found is the one the name leads to. -/
theorem findEntry_eq_ok_iff {weightName : String} {tensors : List TensorMeta} :
    findEntry weightName tensors = .ok tm ↔ NamesEntry weightName tensors tm := by
  unfold findEntry NamesEntry
  cases hfind : tensors.find? fun t => decide (t.name = weightName) with
  | some t =>
    obtain ⟨hname, before, after, hsplit, hbefore⟩ := List.find?_eq_some_iff_append.1 hfind
    have hname' : t.name = weightName := by simpa using hname
    have hbefore' : ∀ t ∈ before, t.name ≠ weightName := fun u hu => by simpa using hbefore u hu
    constructor
    · rintro h
      obtain rfl := Except.ok.inj h
      exact .inl ⟨hname', before, after, hsplit, hbefore'⟩
    · rintro (⟨htm, before₁, after₁, hsplit₁, hbefore₁⟩ | ⟨hnone, -⟩)
      · have hsome : tensors.find? (fun t => decide (t.name = weightName)) = some tm :=
          List.find?_eq_some_iff_append.2 ⟨by simpa using htm, before₁, after₁, hsplit₁, fun u hu => by simpa using hbefore₁ u hu⟩
        exact congrArg Except.ok (Option.some.inj (hfind.symm.trans hsome))
      · exact absurd hname' (hnone t (by rw [hsplit]; simp))
  | none =>
    have hnone : ∀ t ∈ tensors, t.name ≠ weightName := fun t ht => by
      simpa using List.find?_eq_none.1 hfind t ht
    dsimp only
    constructor
    · intro h
      split at h
      · next tm₁ hone =>
        obtain rfl := Except.ok.inj h
        exact .inr ⟨hnone, hone⟩
      · cases h
      · cases h
    · rintro (⟨htm, before, after, hsplit, -⟩ | ⟨-, hone⟩)
      · exact absurd htm (hnone tm (by rw [hsplit]; simp))
      · rw [hone]

/-- The entry found is in the manifest. -/
theorem NamesEntry.mem {weightName : String} {tensors : List TensorMeta} (h : NamesEntry weightName tensors tm) :
    tm ∈ tensors := by
  rcases h with ⟨-, before, after, hsplit, -⟩ | ⟨-, hone⟩
  · rw [hsplit]
    simp
  · exact (List.mem_filter.1 (hone ▸ List.mem_singleton.2 rfl)).1

/-- `can_serve` answers, and has no reason to give where the answer is yes. -/
theorem canServe_ok (hg : tm.groupSize ≠ 0) : ∃ why, canServe tm = .ok (true, "") ∨ canServe tm = .ok (false, why) := by
  unfold canServe
  split
  · dsimp only
    rw [if_neg hg]
    split_ifs
    · exact ⟨_, .inr rfl⟩
    · exact ⟨_, .inr rfl⟩
    · split
      · exact ⟨_, .inr rfl⟩
      · exact ⟨_, .inr rfl⟩
    · split
      · exact ⟨_, .inr rfl⟩
      · exact ⟨"", .inl rfl⟩
  · exact ⟨_, .inr rfl⟩

/-- Where the model gives its embedding, only a tie makes it more than a lookup. -/
theorem isPureLookup_eq {host : LookupHost} {m : ℕ} (hin : host.inputEmbeddings = some (.ok (some m))) :
    (isPureLookup host).1 = !host.tied := by
  unfold isPureLookup
  rw [hin]
  dsimp only
  cases host.tied <;> rfl

/-- **What the loader puts in a model serves the rows of the decoded table.** It leaves the model alone exactly where the table
is also the logit projection and no one insists, or where the weight stands for no entry that can be served by rows. -/
theorem installVqEmbeddings_serves {host : LookupHost} {tensors : List TensorMeta} {m : ℕ} {path : String} (allowTied : Bool)
    (hin : host.inputEmbeddings = some (.ok (some m))) (hpath : qualifiedName host (some m) = some path)
    (hgroup : ∀ tm ∈ tensors, tm.groupSize ≠ 0)
    (hall : ∀ tm ∈ tensors, canServe tm = .ok (true, "") → ∃ c, Embeddable num store tm c) :
    ∃ report placed, installVqEmbeddings num store host tensors allowTied = .ok (report, placed) ∧
      report.installed = placed.isSome ∧
      (placed = none ↔ (host.tied = true ∧ allowTied = false) ∨
        ¬ ∃ tm, NamesEntry (path ++ ".weight") tensors tm ∧ canServe tm = .ok (true, "")) ∧
      ∀ at_ emb, placed = some (at_, emb) → at_ = path ∧
        ∃ tm rows cols, NamesEntry (path ++ ".weight") tensors tm ∧ report.tensor = some tm.name ∧ tm.shape = [rows, cols] ∧
          ServesRows num store tm rows cols emb := by
  unfold installVqEmbeddings
  rw [isPureLookup_eq hin]
  dsimp only
  by_cases htied : host.tied = true ∧ allowTied = false
  · rw [if_pos (by simpa using htied)]
    refine ⟨_, _, rfl, rfl, ?_, by rintro at_ emb ⟨⟩⟩
    exact iff_of_true rfl (.inl htied)
  have hinput : host.input = .ok (some m) := by rw [LookupHost.input, hin]
  rw [if_neg (by simpa using htied), hinput, ok_bind, hpath]
  dsimp only
  cases hfind : findEntry (path ++ ".weight") tensors with
  | error reason =>
    refine ⟨_, _, rfl, rfl, ?_, by rintro at_ emb ⟨⟩⟩
    refine iff_of_true rfl (.inr ?_)
    rintro ⟨tm, hnames, -⟩
    rw [findEntry_eq_ok_iff.2 hnames] at hfind
    cases hfind
  | ok tm =>
    have hnames := findEntry_eq_ok_iff.1 hfind
    dsimp only
    obtain ⟨why, hserve | hrefuse⟩ := canServe_ok (hgroup tm hnames.mem)
    · obtain ⟨c, hc⟩ := hall tm hnames.mem hserve
      obtain ⟨vocab, dim, hshape, -⟩ := canServe_true hserve
      have hpair := hc.holds.shape
      rw [hshape] at hpair
      have hrows : vocab = c.rows := congrArg Prod.fst (Except.ok.inj hpair)
      have hcols : dim = c.cols := by simpa using congrArg Prod.snd (Except.ok.inj hpair)
      rw [hserve, ok_bind, if_neg (by simp), fromArtifact_eq hserve hc, ok_map]
      refine ⟨_, _, rfl, rfl, ?_, ?_⟩
      · refine iff_of_false (by simp) ?_
        rintro (h | h)
        · exact htied h
        · exact h ⟨tm, hnames, hserve⟩
      · rintro at_ emb hplaced
        obtain ⟨rfl, rfl⟩ := Prod.mk.inj (Option.some.inj hplaced)
        exact ⟨rfl, tm, c.rows, c.cols, hnames, rfl, by rw [hshape, hrows, hcols], servesRows hserve hc⟩
    · rw [hrefuse, ok_bind, if_pos rfl]
      refine ⟨_, _, rfl, rfl, ?_, by rintro at_ emb ⟨⟩⟩
      refine iff_of_true rfl (.inr ?_)
      rintro ⟨tm', hnames', hserve⟩
      have hsame : tm' = tm := Except.ok.inj ((findEntry_eq_ok_iff.2 hnames').symm.trans hfind)
      rw [hsame, hrefuse] at hserve
      cases hserve

end Lookup

/-- A rotated table of three rows, named from the root of its checkpoint. -/
def tableEntry : TensorMeta where
  name := "lfm2.embed_tokens.weight"
  shape := [3, 4]
  packedValues := 12
  paddedValues := 12
  groupSize := 2
  stages := [{ codebook := "cb", codebookSize := 2, codebookDtype := some .float16, indexBits := 1, packed := some true,
               indices := "idx" }]
  codebook := "cb"
  codebookSize := 2
  indexBits := 1
  indices := "idx"
  normalization := some .blockMax
  scales := some "scale"
  scaleCount := 3
  scaleDtype := some .float16
  blockScaleSize := some 4
  rotation := some .hadamard

def tableStore : Store ℚ := fun path =>
  if path = "cb" then some (.floats .float16 [1, 2, -1, 3])
  else if path = "idx" then some (.stream .raw [112])
  else if path = "scale" then some (.floats .float16 [1, 2, 3])
  else none

def tableContents : TensorContents ℚ where
  rows := 3
  cols := 2 * tableEntry.groupSize
  padded := 12
  stages := [{ width := tableEntry.groupSize, codebook := [[1, 2], [-1, 3]], indices := [0, 1, 1, 1, 0, 0],
               width_pos := by decide, row_width := by decide, index_lt := by decide }]
  outliers := []
  pillars := []
  rotation := tableEntry.rotationMode
  seed := 0
  blockSize := tableEntry.blockSize
  blockScales := some [1, 2, 3]
  colScales := none
  salient := none
  lowrank := none
  packed_le := by decide
  stage_count := by decide
  outlier_lt := by decide
  pillar_lt := by decide
  hadamard_block := fun _ => ⟨by decide, 4, rfl⟩
  blockSize_pos := tableEntry.blockSize_pos
  blockScales_length := by
    intro ss hs
    cases hs
    rfl
  colScales_length := by
    intro ss hs
    cases hs
  salient_spec := by
    intro idx vals hs
    cases hs
  lowrank_length := by
    intro rank a b hl
    cases hl

/-- The example's table can be installed. -/
theorem tableEntry_embeddable : Embeddable rationalNumerics tableStore tableEntry tableContents where
  holds :=
    { shape := rfl
      packed := rfl
      padded := rfl
      group_pos := by decide
      group_dvd := by decide
      stages := .cons ⟨rfl, by decide +kernel⟩ .nil
      outliers := rfl
      pillars := rfl
      rotation := rfl
      seed := rfl
      blockSize := rfl
      scales := ⟨rfl, [1, 2, 3], rfl, rfl⟩
      salient := rfl
      lowrank := rfl }
  padded := rfl
  stages := .cons ⟨by decide, rfl, (by norm_num : (2 : ℕ) ≤ 2 ^ 31), by decide +kernel⟩ .nil
  scales16 := by
    intro ss hs
    cases hs
    decide +kernel

/-- An encoder whose embedding stands at its root. -/
def encoderHost : LookupHost where
  modules := [("", 0), ("embed_tokens", 1)]
  inputEmbeddings := some (.ok (some 1))
  outputWeight := none
  inputWeight := ⟨0, [3, 4], 0⟩

/-- The example's table installed in an encoder. -/
theorem installVqEmbeddings_serves_encoder :
    ∃ report placed, installVqEmbeddings rationalNumerics tableStore encoderHost [tableEntry] false = .ok (report, placed) ∧
      report.installed = placed.isSome ∧
      (placed = none ↔ (encoderHost.tied = true ∧ false = false) ∨
        ¬ ∃ tm, NamesEntry ("embed_tokens" ++ ".weight") [tableEntry] tm ∧ canServe tm = .ok (true, "")) ∧
      ∀ at_ emb, placed = some (at_, emb) → at_ = "embed_tokens" ∧
        ∃ tm rows cols, NamesEntry ("embed_tokens" ++ ".weight") [tableEntry] tm ∧ report.tensor = some tm.name ∧
          tm.shape = [rows, cols] ∧ ServesRows rationalNumerics tableStore tm rows cols emb :=
  installVqEmbeddings_serves false rfl (by decide) (List.forall_mem_singleton.2 (by decide))
    (List.forall_mem_singleton.2 fun _ => ⟨tableContents, tableEntry_embeddable⟩)

/-- Rows one and, counted from the end, two: each block times its scale, and still rotated. -/
example : (VQEmbedding.fromArtifact rationalNumerics tableStore tableEntry).bind (fun emb => emb.decodeRows [1, -1]) =
    .ok [-2, 6, -2, 6, 3, 6, 3, 6] := by
  decide +kernel

end Orka
