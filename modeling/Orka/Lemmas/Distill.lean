import Orka.Distill
import Orka.Lemmas.Decode

/-!
# The mirror: what it computes on an entry that holds contents

Every step of the mirror does what the abstract layer says, up to the salient values; the low-rank correction is a step it does
not have.
-/

set_option linter.unusedSectionVars false

namespace Orka

open Flat RotateAux DecodeAux

namespace DistillAux

section Injection

variable {α : Type} [Field α] [LinearOrder α] [IsStrictOrderedRing α] [FloorRing α]

/-- The writes at the positions of a list, and a mark at each of them. -/
theorem lastWrite_mark (ws : List (ℕ × α)) (p : ℕ) :
    lastWrite (ws.map fun w => (w.1, true)) p = (lastWrite ws p).map fun _ => true := by
  unfold lastWrite
  rw [← List.map_reverse, List.find?_map, Option.map_map, Option.map_map]
  rfl

/-- Selecting through the mask of a list of writes performs the writes. -/
theorem whereMask_writes {n : ℕ} {ws : List (ℕ × α)} {x : List α} (hx : x.length = n) :
    whereMask (scatter (List.replicate n false) (ws.map fun w => (w.1, true))) (scatter (List.replicate n 0) ws) x =
      .ok (scatter x ws) := by
  unfold whereMask
  rw [if_pos (by simp [hx])]
  refine congrArg Except.ok (ext_cell (by simp) fun i hi => ?_)
  rw [length_tabulate] at hi
  rw [cell_tabulate _ hi, cell_scatter _ _ hi, cell_scatter _ _ (by simpa [hx] using hi),
    getD_scatter _ _ _ (by simpa [hx] using hi), lastWrite_mark]
  cases lastWrite ws i with
  | none => simp
  | some v => rfl

/-- The constants of an injection whose kept positions are a list of writes without repetition. -/
theorem injectionConsts_eq (num : Numerics α) {positions : List ℤ} {values : List α} {n : ℕ} {ws : List (ℕ × α)}
    (hl : positions.length = values.length)
    (hk : ((positions.zip values).filter fun w => decide (w.1 < (n : ℤ))) = ws.map fun w => ((w.1 : ℤ), w.2))
    (hlt : ∀ w ∈ ws, w.1 < n) (hn : (ws.map Prod.fst).Nodup) :
    injectionConsts num positions values n =
      .ok (scatter (List.replicate n false) (ws.map fun w => (w.1, true)), scatter (List.replicate n 0) ws) := by
  have hput := assignAtTorch_writes num (show ∀ w ∈ ws, w.1 < (List.replicate n (0 : α)).length by simpa using hlt) hn
  have haxis : (ints (ws.map Prod.fst)).mapM (axisIndex n) = .ok (ws.map Prod.fst) := by
    refine mapM_axisIndex_ints fun p hp => ?_
    obtain ⟨w, hw, rfl⟩ := List.mem_map.1 hp
    exact hlt w hw
  unfold injectionConsts
  rw [if_neg (by simpa using hl)]
  simp only [hk, map_fst_cast, map_snd_cast, haxis, Except.bind, hput, Except.map]
  rw [List.map_map]
  rfl

/-- All the positions of a list of writes inside the stream are kept. -/
theorem filter_writes {n : ℕ} {ws : List (ℕ × α)} (hlt : ∀ w ∈ ws, w.1 < n) :
    (((ints (ws.map Prod.fst)).zip (ws.map Prod.snd)).filter fun w => decide (w.1 < (n : ℤ))) =
      ws.map fun w => ((w.1 : ℤ), w.2) := by
  have hzip : (ints (ws.map Prod.fst)).zip (ws.map Prod.snd) = ws.map fun w => ((w.1 : ℤ), w.2) := by
    rw [← map_fst_cast, ← map_snd_cast, List.zip_map']
    exact List.map_id' _
  rw [hzip, List.filter_eq_self]
  intro w hw
  obtain ⟨v, hv, rfl⟩ := List.mem_map.1 hw
  simpa using hlt v hv

/-- An escape field: its constants exist, and injecting them performs its writes. -/
theorem escapeConsts_eq (num : Numerics α) {read : Option (Except PyErr (List ℤ × List α))} {ws : List (ℕ × α)} {n : ℕ}
    (h : HoldsEscapes read ws) (hlt : ∀ w ∈ ws, w.1 < n) (hn : (ws.map Prod.fst).Nodup) :
    ∃ inj, escapeConsts num read n = .ok inj ∧ ∀ x : List α, x.length = n → mirrorInject inj x = .ok (scatter x ws) := by
  cases read with
  | none =>
    rw [show ws = [] from h]
    exact ⟨none, rfl, fun x _ => rfl⟩
  | some r =>
    rw [show r = .ok (ints (ws.map Prod.fst), ws.map Prod.snd) from h]
    cases hw : ws with
    | nil => exact ⟨none, rfl, fun x _ => rfl⟩
    | cons w ws' =>
      rw [← hw]
      refine ⟨some (scatter (List.replicate n false) (ws.map fun w : ℕ × α => (w.1, true)),
        scatter (List.replicate n 0) ws), ?_, fun x hx => whereMask_writes hx⟩
      simp only [escapeConsts, Except.bind, ints_isEmpty]
      rw [if_neg (by rw [hw]; simp), injectionConsts_eq num (by simp) (filter_writes hlt) hlt hn]
      rfl

end Injection

section Mirror

variable {α : Type} [Field α] [LinearOrder α] [IsStrictOrderedRing α] [FloorRing α]
variable {num : Numerics α} {store : Store α} {tm : TensorMeta} {c : TensorContents α}

/-! ## The constants -/

/-- The mirror resolves the stages as the decoder does. -/
theorem mirrorStages_forall {g : ℕ} (hg : tm.groupSize = g) {contents : List (StageContents α)}
    (h : List.Forall₂ (HoldsStage num store g tm.paddedValues) (resolveStages tm) contents) :
    List.Forall₂ (HoldsStage num store g tm.paddedValues) (mirrorStages tm) contents := by
  unfold resolveStages at h
  unfold mirrorStages
  split
  · next he =>
    rw [if_pos he] at h
    cases h with
    | cons hs hrest =>
      cases hrest
      refine .cons ?_ .nil
      subst hg
      exact hs
  · next he =>
    rw [if_neg he] at h
    exact h

/-- Stages the store holds are loaded. -/
theorem loadStages_eq {stages : List StageMeta} {contents : List (StageContents α)}
    (h : List.Forall₂ (HoldsStage num store tm.groupSize tm.paddedValues) stages contents) :
    ∃ cs, stages.mapM (loadStage num store tm) = .ok cs ∧
      List.Forall₂ (fun (sc : StageConsts α) (s : StageContents α) => sc.codebook = s.codebook ∧ sc.indices = ints s.indices)
        cs contents := by
  induction h with
  | nil => exact ⟨[], rfl, .nil⟩
  | @cons stage s stages contents hs _ ih =>
    obtain ⟨cs, hcs, hall⟩ := ih
    have hone : loadStage num store tm stage =
        .ok ⟨s.codebook, ints s.indices, stage.codebook, stage.codebookDtype.getD .float32⟩ := by
      rw [loadStage, hs.2]
      rfl
    refine ⟨⟨s.codebook, ints s.indices, stage.codebook, stage.codebookDtype.getD .float32⟩ :: cs, ?_,
      .cons ⟨rfl, rfl⟩ hall⟩
    rw [List.mapM_cons, hone, hcs]
    rfl

/-- The columns of the constants: those of the matrix, at least one. -/
theorem mirrorCols_eq (h : Holds num store tm c) : mirrorCols tm = max 1 c.cols := by
  have hs := h.shape
  unfold mirrorCols
  cases hshape : tm.shape with
  | nil =>
    rw [hshape] at hs
    cases hs
  | cons r rest =>
    rw [hshape] at hs
    have hrc := Except.ok.inj hs
    rw [Prod.mk.injEq] at hrc
    rw [List.tail_cons, hrc.2]
    cases rest with
    | nil =>
      rw [List.prod_nil] at hrc
      rw [if_neg (by simp), ← hrc.2]
      rfl
    | cons d rest => rw [if_pos (by simp)]

/-- The mirror's rows are the tensor's. -/
theorem mirrorRows_eq (h : Holds num store tm c) : tm.shape.headD 0 = c.rows := by
  have hs := h.shape
  cases hshape : tm.shape with
  | nil =>
    rw [hshape] at hs
    cases hs
  | cons r rest =>
    rw [hshape] at hs
    have hrc := Except.ok.inj hs
    rw [Prod.mk.injEq] at hrc
    exact hrc.1

/-- The block scales loaded are those stored. -/
theorem loadBlockScales_eq (h : Holds num store tm c) :
    loadBlockScales num store tm = .ok (c.blockScales.map fun ss => (ss, c.blockSize)) := by
  have hs := h.scales
  unfold HoldsScales at hs
  unfold loadBlockScales
  cases hn : tm.normalizationMode with
  | none =>
    rw [hn] at hs
    rw [hs.1]
    rfl
  | awq =>
    rw [hn] at hs
    rw [hs.1]
    rfl
  | awqBlockMax =>
    rw [hn] at hs
    obtain ⟨⟨ss, hb, hread⟩, -⟩ := hs
    rw [hread, hb, h.blockSize]
    rfl
  | blockMax | channelBlockMax | slrqBlock =>
    rw [hn] at hs
    obtain ⟨-, ss, hb, hread⟩ := hs
    rw [hread, hb, h.blockSize]
    rfl

/-- The column scales loaded are those stored. -/
theorem loadAwqCol_eq (h : Holds num store tm c) : loadAwqCol num store tm = .ok c.colScales := by
  have hs := h.scales
  unfold HoldsScales at hs
  unfold loadAwqCol
  cases hn : tm.normalizationMode with
  | none =>
    rw [hn] at hs
    rw [hs.2]
  | awq =>
    rw [hn] at hs
    obtain ⟨-, ss, hc, hread⟩ := hs
    simp only [hread, hc]
    rfl
  | awqBlockMax =>
    rw [hn] at hs
    obtain ⟨-, hcol⟩ := hs
    cases hm : tm.awqColScales with
    | none =>
      rw [hm] at hcol
      rw [show c.colScales = none from hcol]
    | some awqMeta =>
      rw [hm] at hcol
      obtain ⟨ss, hc, hread⟩ := hcol
      simp only [hread, hc]
      rfl
  | blockMax | channelBlockMax | slrqBlock =>
    rw [hn] at hs
    rw [hs.1]

/-- The salient values loaded are put back as the decoder does. -/
theorem loadSalient_eq (h : Holds num store tm c) :
    ∃ inj, loadSalient num store tm = .ok inj ∧
      ∀ x : List α, x.length = c.count → mirrorInject inj x = .ok (c.reinjected x) := by
  have hs := h.salient
  unfold HoldsSalient at hs
  unfold loadSalient TensorContents.reinjected
  cases hm : tm.salient with
  | none =>
    rw [hm] at hs
    rw [show c.salient = none from hs]
    exact ⟨none, rfl, fun x _ => rfl⟩
  | some m =>
    rw [hm] at hs
    obtain ⟨idx, vals, hc, hread⟩ := hs
    obtain ⟨hv, -, hidx⟩ := c.salient_spec idx vals hc
    simp only [hread, Except.bind, hc, ints_isEmpty, h.blockSize]
    cases hi : idx with
    | nil => exact ⟨none, rfl, fun x _ => rfl⟩
    | cons j idx' =>
      rw [← hi]
      refine ⟨some (scatter (List.replicate c.count false) ((salientWrites c.count c.blockSize idx vals).map
        fun w : ℕ × α => (w.1, true)), scatter (List.replicate c.count 0) (salientWrites c.count c.blockSize idx vals)), ?_,
        fun x hx => whereMask_writes hx⟩
      rw [if_neg (by rw [hi]; simp), h.packed]
      rw [injectionConsts_eq num (by rw [salientPositions, length_tabulate, length_ints, hv])
        (salientPositions_zip hv) salientWrites_lt (salientWrites_nodup hidx)]
      rfl

/-- The Hadamard block is loaded where the tensor is rotated by it. -/
theorem loadHadamardBlock_eq (h : Holds num store tm c) :
    loadHadamardBlock tm = .ok (if c.rotation = .hadamard then some (hadamardBlock c.cols) else none) := by
  unfold loadHadamardBlock
  rw [h.rotation]
  split
  · next hr =>
    obtain ⟨hc, -⟩ := c.hadamard_block hr
    obtain ⟨m, hm, -, hb⟩ := hadamardBlock_spec hr
    rw [mirrorCols_eq h, Nat.max_eq_right hc, hb, hm]
    rfl
  · rfl

/-! ## The chain -/

/-- One stage of the mirror's sum. -/
theorem mirrorAdd_eq {s : StageContents α} {padded : ℕ} (hs : s.indices.length * s.width = padded) :
    mirrorAdd padded none s.codebook (ints s.indices) = .ok (some s.values) ∧
      ∀ acc : List α, acc.length = padded →
        mirrorAdd padded (some acc) s.codebook (ints s.indices) = .ok (some (List.zipWith (· + ·) acc s.values)) := by
  have htake : ((s.indices.map fun i => s.codebook.getD i []).flatten).take padded = s.values :=
    List.take_of_length_le (by rw [← hs]; exact (length_values s).le)
  constructor
  · unfold mirrorAdd
    rw [takeRows_ints s.index_lt]
    simp only [Except.bind, htake]
  · intro acc hacc
    unfold mirrorAdd
    rw [takeRows_ints s.index_lt]
    simp only [Except.bind, htake]
    rw [show s.values.length = acc.length by rw [length_values, hs, hacc],
      broadcastMatrix_same (Nat.one_mul _).symm (by rw [length_values, hs, hacc, Nat.one_mul])]
    rfl

/-- The loop over the stages, once it has started. -/
theorem mirrorSum_loop {cs : List (StageConsts α)} {contents : List (StageContents α)} {padded : ℕ}
    (h : List.Forall₂ (fun (sc : StageConsts α) (s : StageContents α) =>
      sc.codebook = s.codebook ∧ sc.indices = ints s.indices) cs contents)
    (hcount : ∀ s ∈ contents, s.indices.length * s.width = padded) :
    ∀ acc : List α, acc.length = padded →
      ((cs.map StageConsts.codebook).zip cs).foldlM (fun decoded p => mirrorAdd padded decoded p.1 p.2.indices)
          (some acc) =
        .ok (some (contents.foldl (fun acc s => List.zipWith (· + ·) acc s.values) acc)) := by
  induction h with
  | nil =>
    intro acc _
    rfl
  | @cons sc s cs contents hs _ ih =>
    intro acc hacc
    have hsc := hcount s (by simp)
    rw [List.map_cons, List.zip_cons_cons, List.foldlM_cons, hs.1, hs.2, (mirrorAdd_eq hsc).2 acc hacc, List.foldl_cons]
    exact ih (fun s hs => hcount s (List.mem_cons_of_mem _ hs)) _ (by rw [List.length_zipWith, length_values]; omega)

/-- The mirror's sum is the decoder's: the decoder starts it from zeros. -/
theorem mirrorSum_eq {consts : DecodeConsts α}
    (h : List.Forall₂ (fun (sc : StageConsts α) (s : StageContents α) =>
      sc.codebook = s.codebook ∧ sc.indices = ints s.indices) consts.stages c.stages)
    (hne : c.stages ≠ []) (hp : consts.padded = c.padded) :
    mirrorSum (consts.stages.map StageConsts.codebook) consts = .ok c.sum := by
  have hcount := c.stage_count
  unfold mirrorSum TensorContents.sum
  rw [hp]
  revert h hne hcount
  generalize c.stages = contents
  generalize consts.stages = cs
  intro h hne hcount
  cases h with
  | nil => exact absurd rfl hne
  | @cons sc s cs contents hs hrest =>
    have hsc := hcount s (by simp)
    have hlen : s.values.length = c.padded := by rw [length_values, hsc]
    have hzero : List.zipWith (· + ·) (List.replicate c.padded 0) s.values = s.values := by
      refine ext_cell (by simp [hsc]) fun i hi => ?_
      rw [List.length_zipWith, List.length_replicate, hlen, Nat.min_self] at hi
      rw [cell_zipWith (by simpa using hi) (by omega), cell_replicate_zero, zero_add]
    have hloop := mirrorSum_loop hrest (fun s hs => hcount s (List.mem_cons_of_mem _ hs)) s.values hlen
    rw [List.map_cons, List.zip_cons_cons, List.foldlM_cons, hs.1, hs.2, (mirrorAdd_eq hsc).1, List.foldl_cons, hzero]
    change Except.bind (List.foldlM _ (some s.values) _) _ = _
    rw [hloop]
    rfl

/-- The constants of an entry that holds contents. -/
structure ConstsOf (num : Numerics α) (c : TensorContents α) (consts : DecodeConsts α) : Prop where
  stages : List.Forall₂ (fun (sc : StageConsts α) (s : StageContents α) =>
    sc.codebook = s.codebook ∧ sc.indices = ints s.indices) consts.stages c.stages
  padded : consts.padded = c.padded
  packed : consts.packed = c.count
  rows : consts.rows = c.rows
  cols : consts.cols = max 1 c.cols
  outliers : ∀ x : List α, x.length = c.count → mirrorInject consts.outliers x = .ok (scatter x c.outliers)
  pillars : ∀ x : List α, x.length = c.count → mirrorInject consts.pillars x = .ok (scatter x c.pillars)
  q : consts.q = if c.rotation = .orthogonal then some (num.orthogonal (max 1 c.cols) c.seed) else none
  hadamardBlock : consts.hadamardBlock = if c.rotation = .hadamard then some (hadamardBlock c.cols) else none
  blockScales : consts.blockScales = c.blockScales.map fun ss => (ss, c.blockSize)
  awqCol : consts.awqCol = c.colScales
  salient : ∀ x : List α, x.length = c.count → mirrorInject consts.salient x = .ok (c.reinjected x)

/-- The constants loaded are those of the contents. -/
theorem loadDecodeConsts_eq (h : Holds num store tm c) (hout : (c.outliers.map Prod.fst).Nodup)
    (hpil : (c.pillars.map Prod.fst).Nodup) :
    ∃ consts, loadDecodeConsts num store tm = .ok consts ∧ ConstsOf num c consts := by
  obtain ⟨stages, hstages, hall⟩ := loadStages_eq (mirrorStages_forall rfl h.stages)
  obtain ⟨outliers, hol, hoi⟩ := escapeConsts_eq num h.outliers c.outlier_lt hout
  obtain ⟨pillars, hpl, hpi⟩ := escapeConsts_eq num h.pillars c.pillar_lt hpil
  obtain ⟨salient, hsl, hsi⟩ := loadSalient_eq h
  refine ⟨{ stages := stages, padded := tm.paddedValues, packed := tm.packedValues, rows := tm.shape.headD 0,
            cols := mirrorCols tm, outliers := outliers, pillars := pillars, rotation := tm.rotationMode,
            q := if tm.rotationMode = .orthogonal then some (num.orthogonal (mirrorCols tm) tm.seed) else none,
            hadamardBlock := if c.rotation = .hadamard then some (hadamardBlock c.cols) else none,
            blockScales := c.blockScales.map fun ss => (ss, c.blockSize), awqCol := c.colScales, salient := salient }, ?_, ?_⟩
  · unfold loadDecodeConsts
    rw [hstages, h.packed, hol, hpl, loadHadamardBlock_eq h, loadBlockScales_eq h, loadAwqCol_eq h, hsl]
    rfl
  · refine ⟨hall, h.padded, h.packed, mirrorRows_eq h, mirrorCols_eq h, hoi, hpi, ?_, rfl, rfl, rfl, hsi⟩
    simp only [h.rotation, h.seed, mirrorCols_eq h]

/-- Where there are columns the mirror undoes the same rotation. -/
theorem mirrorRotation_eq_of_pos {consts : DecodeConsts α} (hc : ConstsOf num c consts) {x : List α} (hx : x.length = c.count)
    (hcols : 0 < c.cols) : mirrorRotation num consts x = .ok (c.unrotated num x) := by
  have hmax : max 1 c.cols = c.cols := Nat.max_eq_right hcols
  have hx' : x.length = c.rows * c.cols := hx
  unfold mirrorRotation TensorContents.unrotated
  rw [hc.q, hc.hadamardBlock, hc.rows, hc.cols, hmax, List.take_of_length_le hx'.le]
  cases hr : c.rotation with
  | none => rfl
  | orthogonal => simp only [if_true, reshape_ok hx', Except.map, flatten_rowsOf hx']
  | hadamard =>
    obtain ⟨m, hm, hd, -⟩ := hadamardBlock_spec hr
    have hblocks : x.length = c.rows * (c.cols / 2 ^ m) * 2 ^ m := by rw [hx', length_blocks hd]
    simp only [reduceCtorEq, if_false, if_true, hm]
    rw [if_neg (by positivity), reshape_ok hblocks, Except.bind, fwht_backend, fwht_two_pow]
    simp only [Except.map, fwhtLoop_two_pow, div_eq_inv_mul]

/-- The mirror applies the same block scales. -/
theorem mirrorBlockScales_eq {consts : DecodeConsts α} (hc : ConstsOf num c consts) {x : List α} (hx : x.length = c.count) :
    mirrorBlockScales consts x = .ok (c.blockScaled x) ∧ (c.blockScaled x).length = c.count := by
  unfold mirrorBlockScales TensorContents.blockScaled
  rw [hc.blockScales]
  cases hb : c.blockScales with
  | none => exact ⟨rfl, hx⟩
  | some ss =>
    exact ⟨applyBlockScales_ok .torch c.blockSize_pos hx (c.blockScales_length ss hb), length_blockScaled hx hb⟩

/-- Where there are columns the mirror applies the same column scales. -/
theorem mirrorColScales_eq_of_pos {consts : DecodeConsts α} (hc : ConstsOf num c consts) {x : List α}
    (hx : x.length = c.count) (hcols : 0 < c.cols) : mirrorColScales consts x = .ok (c.colScaled x) := by
  unfold mirrorColScales TensorContents.colScaled
  rw [hc.awqCol, hc.rows, hc.cols, Nat.max_eq_right hcols]
  cases hs : c.colScales with
  | none => rfl
  | some ss =>
    refine applyColScales_ok .torch ?_ hx (c.colScales_length ss hs)
    simp [rowsCols]

/-! ## Width zero

The mirror counts at least one column, so a matrix of width zero keeps its empty stream only where nothing reshapes it. -/

/-- Without columns the mirror reads the rotation only where there are no rows. -/
theorem mirrorRotation_zero {consts : DecodeConsts α} (hc : ConstsOf num c consts) (h0 : c.cols = 0) (y : List α) :
    mirrorRotation num consts [] = .ok y ↔ (c.rows = 0 ∨ c.rotation = .none) ∧ y = [] := by
  unfold mirrorRotation
  rw [hc.q, hc.hadamardBlock, hc.rows, hc.cols, h0]
  cases hr : c.rotation with
  | none => simp [eq_comm]
  | hadamard => exact absurd (c.hadamard_block hr).1 (by omega)
  | orthogonal =>
    by_cases hrow : c.rows = 0
    · simp [hrow, reshape, Except.map, matmulT, tabulate, eq_comm]
    · simp [hrow, Ne.symm hrow, reshape, Except.map]

/-- Without columns the mirror reads the scales only where there are no rows. -/
theorem mirrorColScales_zero {consts : DecodeConsts α} (hc : ConstsOf num c consts) (h0 : c.cols = 0) (y : List α) :
    mirrorColScales consts [] = .ok y ↔ (c.rows = 0 ∨ c.colScales = none) ∧ y = [] := by
  unfold mirrorColScales
  rw [hc.awqCol, hc.rows, hc.cols, h0]
  cases hs : c.colScales with
  | none => simp [eq_comm]
  | some ss =>
    have hss : ss = [] := List.length_eq_zero_iff.1 (by rw [c.colScales_length ss hs, h0])
    by_cases hrow : c.rows = 0
    · simp [hrow, hss, applyColScalesTorch, rowsCols, Except.bind, broadcastMatrix, broadcastDim, Except.map, tabulate,
        eq_comm]
    · simp [hrow, Ne.symm hrow, applyColScalesTorch, rowsCols, Except.bind]

/-! ## The whole mirror -/

/-- The mirror runs to the un-rotation on every entry. -/
theorem mirrorDecode_chain (h : Holds num store tm c) (hout : (c.outliers.map Prod.fst).Nodup)
    (hpil : (c.pillars.map Prod.fst).Nodup) :
    ∃ consts, ConstsOf num c consts ∧ mirrorDecode num store tm =
      (mirrorRotation num consts c.injected).bind fun decoded =>
        (mirrorBlockScales consts decoded).bind fun decoded =>
          (mirrorColScales consts decoded).bind fun decoded => mirrorInject consts.salient decoded := by
  obtain ⟨consts, hload, hc⟩ := loadDecodeConsts_eq h hout hpil
  have hne : c.stages ≠ [] := by
    intro he
    have hall := h.stages
    rw [he] at hall
    have hlen := hall.length_eq
    unfold resolveStages at hlen
    split at hlen
    · cases hlen
    · next hs => exact hs (List.isEmpty_iff_length_eq_zero.2 hlen)
  refine ⟨consts, hc, ?_⟩
  unfold mirrorDecode differentiableDecode
  rw [hload]
  simp only [Except.bind]
  rw [mirrorSum_eq hc.stages hne hc.padded]
  simp only
  rw [hc.packed, hc.outliers _ (length_truncated c)]
  simp only
  rw [hc.pillars _ (by rw [length_scatter, length_truncated])]
  rfl

/-- The steps after the injections on the empty stream of a matrix of width zero. -/
theorem mirrorTail_zero {consts : DecodeConsts α} (hc : ConstsOf num c consts) (h0 : c.cols = 0) (v : List α) :
    ((mirrorRotation num consts []).bind fun decoded =>
      (mirrorBlockScales consts decoded).bind fun decoded =>
        (mirrorColScales consts decoded).bind fun decoded => mirrorInject consts.salient decoded) = .ok v ↔
      c.Shaped ∧ v = [] := by
  have hcount : c.count = 0 := by rw [TensorContents.count, h0, Nat.mul_zero]
  have hnil : ∀ x : List α, x.length = c.count → x = [] := fun x hx => List.length_eq_zero_iff.1 (hx.trans hcount)
  have hblock := mirrorBlockScales_eq hc (x := []) hcount.symm
  rw [hnil _ hblock.2] at hblock
  have hsalient := hc.salient [] hcount.symm
  rw [hnil (c.reinjected []) (length_reinjected (x := []) hcount.symm)] at hsalient
  constructor
  · intro he
    cases hrot : mirrorRotation num consts [] with
    | error e =>
      rw [hrot] at he
      cases he
    | ok y =>
      obtain ⟨hor, rfl⟩ := (mirrorRotation_zero hc h0 y).1 hrot
      rw [hrot] at he
      simp only [Except.bind, hblock.1] at he
      cases hcol : mirrorColScales consts [] with
      | error e =>
        rw [hcol] at he
        cases he
      | ok y =>
        obtain ⟨hor', rfl⟩ := (mirrorColScales_zero hc h0 y).1 hcol
        rw [hcol] at he
        simp only [hsalient] at he
        refine ⟨fun _ => ?_, (Except.ok.inj he).symm⟩
        rcases hor with hrow | hrot
        · exact .inl hrow
        · exact hor'.imp id fun hs => ⟨hrot, hs⟩
  · rintro ⟨hs, rfl⟩
    rw [(mirrorRotation_zero hc h0 []).2 ⟨(hs h0).imp id And.left, rfl⟩]
    simp only [Except.bind, hblock.1]
    rw [(mirrorColScales_zero hc h0 []).2 ⟨(hs h0).imp id And.right, rfl⟩]
    exact hsalient

/-- **What the mirror returns**: the matrix the entry holds, before any low-rank correction. -/
theorem mirrorDecode_eq_ok (h : Holds num store tm c) (hout : (c.outliers.map Prod.fst).Nodup)
    (hpil : (c.pillars.map Prod.fst).Nodup) (v : List α) :
    mirrorDecode num store tm = .ok v ↔
      c.Shaped ∧ v = c.reinjected (c.scaled (c.unrotated num c.injected)) := by
  obtain ⟨consts, hc, hrun⟩ := mirrorDecode_chain h hout hpil
  have hlen : (c.unrotated num c.injected).length = c.count := length_unrotated (length_injected c)
  rw [hrun]
  rcases Nat.eq_zero_or_pos c.cols with h0 | hpos
  · have hnil : ∀ x : List α, x.length = c.count → x = [] := by
      intro x hx
      exact List.length_eq_zero_iff.1 (by rw [hx, TensorContents.count, h0, Nat.mul_zero])
    rw [hnil _ (length_reinjected (length_scaled hlen)), hnil _ (length_injected c)]
    exact mirrorTail_zero hc h0 v
  · have hblock := mirrorBlockScales_eq hc hlen
    rw [mirrorRotation_eq_of_pos hc (length_injected c) hpos]
    simp only [Except.bind]
    rw [hblock.1]
    simp only
    rw [mirrorColScales_eq_of_pos hc hblock.2 hpos]
    simp only
    rw [show c.colScaled (c.blockScaled (c.unrotated num c.injected)) = c.scaled (c.unrotated num c.injected) from rfl,
      hc.salient _ (length_scaled hlen)]
    constructor
    · intro he
      exact ⟨fun h0 => absurd h0 hpos.ne', (Except.ok.inj he).symm⟩
    · rintro ⟨-, rfl⟩
      rfl

end Mirror

end DistillAux

end Orka
