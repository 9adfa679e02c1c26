import Orka.Build
import Orka.Lemmas.Decode
import Orka.Lemmas.StableSort
import Orka.Serve

/-!
# The correction of a layer

Adding a correction built from values at distinct positions is adding the matrix its CSR form stands for.
-/

set_option linter.unusedSectionVars false

namespace Orka

open Flat Steps DecodeAux

namespace CsrAux

/-! ## The rows of a CSR form -/

variable {α : Type}

/-- The entries of a CSR form, in the order they are stored. -/
def sortedDeltas (inFeatures : ℕ) (deltas : List (ℕ × α)) : List (ℕ × α) :=
  deltas.mergeSort fun a b => decide (a.1 / inFeatures ≤ b.1 / inFeatures)

theorem perm_sortedDeltas (inFeatures : ℕ) (deltas : List (ℕ × α)) : (sortedDeltas inFeatures deltas).Perm deltas :=
  List.mergeSort_perm _ _

/-- The keys below `r + 1` are those below `r` and those at `r`. -/
theorem countP_lt_succ {β : Type} (key : β → ℕ) (l : List β) (r : ℕ) :
    (l.map key).countP (fun k => decide (k < r + 1)) = (l.map key).countP (fun k => decide (k < r)) +
      (l.filter fun a => key a = r).length := by
  induction l with
  | nil => rfl
  | cons a l ih =>
    rw [List.map_cons, List.countP_cons, List.countP_cons, ih]
    rcases lt_trichotomy (key a) r with h | h | h
    · rw [List.filter_cons_of_neg (by simpa using h.ne), if_pos (by simpa using h.trans (Nat.lt_succ_self r)), if_pos (by simpa using h)]
      omega
    · rw [List.filter_cons_of_pos (by simpa using h), if_pos (by simp [h]), if_neg (by simp [h]), List.length_cons]
      omega
    · rw [List.filter_cons_of_neg (by simpa using h.ne'), if_neg (by simp; omega), if_neg (by simp; omega)]
      omega

/-- The row pointers of a CSR form give back the row of every entry. -/
theorem csrRows_toCsr {outFeatures inFeatures : ℕ} {deltas : List (ℕ × α)} (h : ∀ d ∈ deltas, d.1 < outFeatures * inFeatures) :
    VQLinear.csrRows outFeatures (toCsr outFeatures inFeatures deltas).rowptr =
      .ok ((sortedDeltas inFeatures deltas).map fun d => ((d.1 / inFeatures : ℕ) : ℤ)) := by
  set sorted := sortedDeltas inFeatures deltas with hsorted
  have hpairwise : sorted.Pairwise fun a b => a.1 / inFeatures ≤ b.1 / inFeatures :=
    (stablySorted_mergeSort (fun d : ℕ × α => d.1 / inFeatures) deltas).sorted
  have hrow : ∀ d ∈ sorted, d.1 / inFeatures < outFeatures := fun d hd =>
    Nat.div_lt_of_lt_mul (by rw [Nat.mul_comm]; exact h d ((perm_sortedDeltas inFeatures deltas).subset hd))
  have hptr : (toCsr outFeatures inFeatures deltas).rowptr = tabulate (outFeatures + 1) fun r =>
      (((sorted.map fun d => d.1 / inFeatures).countP fun row => decide (row < r) : ℕ) : ℤ) := rfl
  have hcounts : List.zipWith (· - ·) (toCsr outFeatures inFeatures deltas).rowptr.tail
      (toCsr outFeatures inFeatures deltas).rowptr =
        tabulate outFeatures fun r => (((sorted.filter fun d => d.1 / inFeatures = r).length : ℕ) : ℤ) := by
    rw [hptr]
    apply ext_cell
    · simp
    · intro r hr
      have hr' : r < outFeatures := by simpa using hr
      rw [cell_zipWith (by simpa using hr') (by simp; omega), ← List.drop_one, cell_drop, cell_tabulate _ (by omega),
        cell_tabulate _ (by omega), cell_tabulate _ hr', Nat.add_comm 1 r, countP_lt_succ]
      push_cast
      ring
  have hneg : ¬ (tabulate outFeatures fun r => (((sorted.filter fun d => d.1 / inFeatures = r).length : ℕ) : ℤ)).any (· < 0) := by
    rw [List.any_eq_true]
    rintro ⟨v, hv, hlt⟩
    obtain ⟨r, -, rfl⟩ := List.mem_map.1 hv
    exact absurd (of_decide_eq_true hlt) (by omega)
  rw [VQLinear.csrRows]
  simp only [hcounts]
  rw [if_neg (by rw [not_or]; exact ⟨by simp, hneg⟩)]
  have hruns : ((List.range outFeatures).flatMap fun (r : ℕ) => List.replicate
      (cell (tabulate outFeatures fun r => (((sorted.filter fun d => d.1 / inFeatures = r).length : ℕ) : ℤ)) r).toNat (r : ℤ)) =
        ((List.range outFeatures).flatMap fun r => sorted.filter fun d => d.1 / inFeatures = r).map
          fun d => ((d.1 / inFeatures : ℕ) : ℤ) := by
    rw [List.map_flatMap]
    refine List.flatMap_congr fun r hr => ?_
    rw [cell_tabulate _ (List.mem_range.1 hr), Int.toNat_natCast]
    symm
    rw [List.eq_replicate_iff, List.length_map]
    refine ⟨rfl, fun v hv => ?_⟩
    obtain ⟨d, hd, rfl⟩ := List.mem_map.1 hv
    rw [of_decide_eq_true (List.mem_filter.1 hd).2]
  rw [hruns, flatMap_runs hpairwise, List.filter_eq_self.2 fun d hd => decide_eq_true (hrow d hd)]

/-- The places of the entries, out of their rows and columns. -/
theorem flat_toCsr (inFeatures : ℕ) (deltas : List (ℕ × α)) :
    List.zipWith (fun r c => r * (inFeatures : ℤ) + c) ((sortedDeltas inFeatures deltas).map fun d => ((d.1 / inFeatures : ℕ) : ℤ))
      ((sortedDeltas inFeatures deltas).map fun d => ((d.1 % inFeatures : ℕ) : ℤ)) =
        ints ((sortedDeltas inFeatures deltas).map Prod.fst) := by
  rw [List.zipWith_map, List.zipWith_self, ints, List.map_map]
  refine List.map_congr_left fun d _ => ?_
  rw [← Nat.cast_mul, ← Nat.cast_add, Nat.div_add_mod']
  rfl

section Ring

variable [Ring α]

/-- The sum of what is at a place, where no place comes twice. -/
theorem sum_filter_of_nodup {ws : List (ℕ × α)} (hn : (ws.map Prod.fst).Nodup) (p : ℕ) :
    ((ws.filter fun w => decide (w.1 = p)).map Prod.snd).sum = (lastWrite ws p).getD 0 := by
  induction ws with
  | nil => rfl
  | cons w ws ih =>
    obtain ⟨hw, hn⟩ := List.nodup_cons.1 hn
    rw [lastWrite_cons]
    by_cases h : w.1 = p
    · have hnone : lastWrite ws p = none := lastWrite_eq_none fun v hv hp => hw (h ▸ hp ▸ List.mem_map_of_mem hv)
      rw [List.filter_cons_of_pos (by simpa using h), List.map_cons, List.sum_cons, ih hn, hnone, if_pos h]
      simp
    · rw [List.filter_cons_of_neg (by simpa using h), ih hn, if_neg h, Option.or_none]

variable {outFeatures inFeatures : ℕ} {deltas : List (ℕ × α)}

/-- The matrix a correction stands for. -/
theorem csrDense_toCsr (h : ∀ d ∈ deltas, d.1 < outFeatures * inFeatures) (hn : (deltas.map Prod.fst).Nodup) :
    csrDense outFeatures inFeatures (toCsr outFeatures inFeatures deltas) =
      .ok (tabulate (outFeatures * inFeatures) fun p => (lastWrite (sortedDeltas inFeatures deltas) p).getD 0) := by
  have hn' : ((sortedDeltas inFeatures deltas).map Prod.fst).Nodup :=
    ((perm_sortedDeltas inFeatures deltas).map Prod.fst).nodup_iff.2 hn
  have hcol : (toCsr outFeatures inFeatures deltas).col = (sortedDeltas inFeatures deltas).map fun d => ((d.1 % inFeatures : ℕ) : ℤ) := rfl
  have hval : (toCsr outFeatures inFeatures deltas).val = (sortedDeltas inFeatures deltas).map Prod.snd := rfl
  rw [csrDense, csrRows_toCsr h, hcol, hval]
  simp only [ok_map, flat_toCsr]
  refine congrArg Except.ok (tabulate_congr fun p _ => ?_)
  rw [← sum_filter_of_nodup hn', ints, List.map_map, List.zip_map', List.filter_map, List.map_map]
  refine congrArg (fun l : List (ℕ × α) => (l.map Prod.snd).sum) (List.filter_congr fun d _ => ?_)
  simp

/-- **Adding a correction is adding its matrix.** -/
theorem addCorrection_toCsr (num : Numerics α) {layer : VQLinear α} (h : ∀ d ∈ deltas, d.1 < layer.outFeatures * layer.inFeatures)
    (hn : (deltas.map Prod.fst).Nodup) {w : List α} (hw : w.length = layer.outFeatures * layer.inFeatures) :
    layer.addCorrection num (toCsr layer.outFeatures layer.inFeatures deltas) w =
      .ok (List.zipWith (· + ·) w (tabulate (layer.outFeatures * layer.inFeatures) fun p =>
        (lastWrite (sortedDeltas layer.inFeatures deltas) p).getD 0)) := by
  set sorted := sortedDeltas layer.inFeatures deltas with hsorted
  have hlt : ∀ d ∈ sorted, d.1 < layer.outFeatures * layer.inFeatures := fun d hd =>
    h d ((perm_sortedDeltas layer.inFeatures deltas).subset hd)
  have hn' : (sorted.map Prod.fst).Nodup := ((perm_sortedDeltas layer.inFeatures deltas).map Prod.fst).nodup_iff.2 hn
  have hcol : (toCsr layer.outFeatures layer.inFeatures deltas).col = sorted.map fun d => ((d.1 % layer.inFeatures : ℕ) : ℤ) := rfl
  have hval : (toCsr layer.outFeatures layer.inFeatures deltas).val = sorted.map Prod.snd := rfl
  have hkept : ((ints (sorted.map Prod.fst)).zip (sorted.map Prod.snd)).filter (fun w => decide (w.1 < (layer.total : ℤ))) =
      (ints (sorted.map Prod.fst)).zip (sorted.map Prod.snd) := by
    refine List.filter_eq_self.2 fun e he => decide_eq_true ?_
    obtain ⟨p, hp, hcast⟩ := List.mem_map.1 (List.of_mem_zip he).1
    obtain ⟨d, hd, rfl⟩ := List.mem_map.1 hp
    rw [← hcast, VQLinear.total]
    exact Int.ofNat_lt.2 (hlt d hd)
  have hfst : ((ints (sorted.map Prod.fst)).zip (sorted.map Prod.snd)).map Prod.fst = ints (sorted.map Prod.fst) :=
    List.map_fst_zip (by simp)
  have hsnd : ((ints (sorted.map Prod.fst)).zip (sorted.map Prod.snd)).map Prod.snd = sorted.map Prod.snd :=
    List.map_snd_zip (by simp)
  have hplaces : (ints (sorted.map Prod.fst)).mapM (axisIndex w.length) = .ok (sorted.map Prod.fst) := by
    apply mapM_axisIndex_ints
    intro p hp
    obtain ⟨d, hd, rfl⟩ := List.mem_map.1 hp
    exact hw ▸ hlt d hd
  rw [VQLinear.addCorrection, csrRows_toCsr h, ok_bind, hcol, hval]
  rw [if_neg (by simp [← hsorted])]
  simp only [← hsorted]
  rw [flat_toCsr, ← hsorted]
  simp only [hkept, hfst, hsnd, hplaces, ok_bind]
  have hwrites : List.zipWith (fun p v => cell w p + v) (sorted.map Prod.fst) (sorted.map Prod.snd) =
      (sorted.map fun d => (d.1, cell w d.1 + d.2)).map Prod.snd := by
    rw [List.zipWith_map, List.zipWith_self, List.map_map]
    rfl
  have hkeys : sorted.map Prod.fst = (sorted.map fun d => (d.1, cell w d.1 + d.2)).map Prod.fst := by
    rw [List.map_map]
    rfl
  rw [hwrites, hkeys, assignAtTorch_writes num]
  · refine congrArg Except.ok (ext_cell (by simp [hw]) fun p hp => ?_)
    rw [length_scatter] at hp
    rw [cell_scatter _ _ hp, cell_zipWith hp (by simpa [← hw] using hp), cell_tabulate _ (hw ▸ hp)]
    cases hlast : lastWrite sorted p with
    | none =>
      rw [lastWrite_eq_none, Option.getD_none, Option.getD_none, add_zero]
      intro u hu
      obtain ⟨d, hd, rfl⟩ := List.mem_map.1 hu
      exact ne_of_lastWrite_eq_none (w := d) hlast hd
    | some v =>
      have hmem : (p, cell w p + v) ∈ sorted.map fun d => (d.1, cell w d.1 + d.2) :=
        List.mem_map.2 ⟨(p, v), mem_of_lastWrite hlast, rfl⟩
      rw [lastWrite_of_mem (hkeys ▸ hn') hmem]
      rfl
  · intro u hu
    obtain ⟨d, hd, rfl⟩ := List.mem_map.1 hu
    exact hw ▸ hlt d hd
  · rwa [← hkeys]

end Ring

/-! ## What `build_vq_linear` stores -/

section Build

variable [Field α] [LinearOrder α] [IsStrictOrderedRing α] [FloorRing α]
variable {num : Numerics α} {store : Store α} {tm : TensorMeta}

/-- What is kept lies inside the tensor. -/
theorem lt_of_keptBelow {total : ℕ} {positions : List ℤ} {values : List α} {kept : List (ℕ × α)}
    (h : keptBelow total positions values = .ok kept) {d : ℕ × α} (hd : d ∈ kept) : d.1 < total := by
  unfold keptBelow at h
  simp only at h
  split_ifs at h with hlength hneg
  obtain rfl := Except.ok.inj h
  obtain ⟨w, hw, rfl⟩ := List.mem_map.1 hd
  have hlt := of_decide_eq_true (List.mem_filter.1 hw).2
  have hpos : ¬ w.1 < 0 := fun h => hneg (List.any_eq_true.2 ⟨w, hw, decide_eq_true h⟩)
  omega

/-- The outliers kept lie inside the tensor. -/
theorem lt_of_outlierFinals {blockSize total : ℕ} {scales : Option (List α)} {finals : List (ℕ × α)}
    (h : outlierFinals num store tm blockSize total scales = .ok finals) {d : ℕ × α} (hd : d ∈ finals) : d.1 < total := by
  unfold outlierFinals at h
  split at h
  · obtain rfl := Except.ok.inj h
    exact absurd hd List.not_mem_nil
  · split at h
    · obtain rfl := Except.ok.inj h
      exact absurd hd List.not_mem_nil
    · obtain ⟨⟨positions, values⟩, -, h⟩ := bind_eq_ok.1 h
      obtain ⟨kept, hkept, h⟩ := bind_eq_ok.1 h
      obtain ⟨ss, -, rfl⟩ := map_eq_ok.1 h
      obtain ⟨w, hw, hwd⟩ := List.mem_map.1 (List.of_mem_zip hd).1
      exact hwd ▸ lt_of_keptBelow hkept hw

/-- The salient values kept lie inside the tensor. -/
theorem lt_of_salientFinals {blockSize total : ℕ} {finals : List (ℕ × α)}
    (h : salientFinals num store tm blockSize total = .ok finals) {d : ℕ × α} (hd : d ∈ finals) : d.1 < total := by
  unfold salientFinals at h
  split at h
  · obtain rfl := Except.ok.inj h
    exact absurd hd List.not_mem_nil
  · split at h
    · obtain rfl := Except.ok.inj h
      exact absurd hd List.not_mem_nil
    · obtain ⟨⟨sIdx, sVal⟩, -, h⟩ := bind_eq_ok.1 h
      exact lt_of_keptBelow h hd

/-- Zipping leaves no place that was not there. -/
theorem map_fst_zip_sublist (ps : List ℕ) (vs : List α) : ((ps.zip vs).map Prod.fst).Sublist ps := by
  induction ps generalizing vs with
  | nil => exact List.Sublist.refl _
  | cons p ps ih =>
    cases vs with
    | nil => exact List.nil_sublist _
    | cons v vs => exact (ih vs).cons_cons p

/-- Reordering changes nothing but the indices, the scales and the mark of it. -/
theorem exists_toGroupMajor (layer : VQLinear α) :
    ∃ stages scales groupMajor, toGroupMajor layer = { layer with stages := stages, scales := scales, groupMajor := groupMajor } := by
  unfold toGroupMajor
  split
  · exact ⟨_, _, _, rfl⟩
  split
  · exact ⟨_, _, _, rfl⟩
  split
  · simp only
    split
    · exact ⟨_, _, _, rfl⟩
    · exact ⟨_, _, _, rfl⟩
  · exact ⟨_, _, _, rfl⟩

/-- **The correction of a built layer** comes from values at distinct positions of the matrix. -/
theorem exists_deltas {outFeatures inFeatures groupSize blockSize : ℕ} {stages : List (StageBuffers α)} {scales : Option (List α)}
    {corr : Csr α} (h : buildCsrCorrection num store tm outFeatures inFeatures groupSize blockSize stages scales = .ok corr) :
    ∃ deltas : List (ℕ × α), (∀ d ∈ deltas, d.1 < outFeatures * inFeatures) ∧ (deltas.map Prod.fst).Nodup ∧
      corr = toCsr outFeatures inFeatures deltas := by
  unfold buildCsrCorrection at h
  obtain ⟨outl, houtl, h⟩ := bind_eq_ok.1 h
  obtain ⟨salient, hsalient, h⟩ := bind_eq_ok.1 h
  have hnodup : ((Dict.update (Dict.update [] outl) salient).map Prod.fst).Nodup :=
    Dict.nodup_update (Dict.nodup_update (d := []) List.nodup_nil outl) salient
  have hlt : ∀ d ∈ Dict.update (Dict.update [] outl) salient, d.1 < outFeatures * inFeatures := by
    intro d hd
    rcases Dict.mem_update.1 hd with hlast | ⟨hd, -⟩
    · exact lt_of_salientFinals hsalient (mem_of_lastWrite hlast)
    · exact lt_of_outlierFinals houtl (mem_of_lastWrite (Dict.mem_update_nil.1 hd))
  simp only at h
  split at h
  · obtain rfl := Except.ok.inj h
    refine ⟨[], fun d hd => absurd hd List.not_mem_nil, .nil, ?_⟩
    simp [toCsr, tabulate]
  · obtain ⟨vqAt, -, rfl⟩ := map_eq_ok.1 h
    refine ⟨_, fun d hd => ?_, ?_, rfl⟩
    · obtain ⟨w, hw, hwd⟩ := List.mem_map.1 (List.of_mem_zip hd).1
      exact hwd ▸ hlt w hw
    · exact hnodup.sublist (map_fst_zip_sublist _ _)

end Build

end CsrAux

end Orka
