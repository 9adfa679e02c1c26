import Orka.Correct
import Orka.Lemmas.Frame
import Orka.Lemmas.Lowrank

/-!
# What a correction leaves

The sidecars of a tensor are written while the manifest on disk is still the old one. A run that raises leaves every tensor as it was
where no turn has come to the sidecars of a tensor that was corrected already, and a run that returns records the error of every tensor
where no turn drops an earlier correction.
-/

namespace Orka

open Flat Steps

/-! ## The paths of the sidecars -/

/-- The two factors are never one file. -/
theorem lowrankA_ne_lowrankB (n m : String) : lowrankA n ≠ lowrankB m := by
  intro h
  have hlast := congrArg (fun s : String => s.toList.getLast?) h
  simp only [lowrankA, lowrankB, String.toList_append, List.getLast?_append, show ".lowrank.a".toList.getLast? = some 'a' from rfl,
    show ".lowrank.b".toList.getLast? = some 'b' from rfl, Option.some_or] at hlast
  exact absurd (Option.some.inj hlast) (by decide)

/-- Tensors that share the first factor's file share their safe name. -/
theorem safe_of_lowrankA {n m : String} (h : lowrankA n = lowrankA m) : safeTensorName n = safeTensorName m := by
  have h := congrArg String.toList h
  simp only [lowrankA, String.toList_append, List.append_cancel_left_eq, List.append_cancel_right_eq] at h
  exact String.toList_injective h

/-- Tensors that share the second factor's file share their safe name. -/
theorem safe_of_lowrankB {n m : String} (h : lowrankB n = lowrankB m) : safeTensorName n = safeTensorName m := by
  have h := congrArg String.toList h
  simp only [lowrankB, String.toList_append, List.append_cancel_left_eq, List.append_cancel_right_eq] at h
  exact String.toList_injective h

/-- A path of a sidecar of the tensor. -/
def IsSidecar (name path : String) : Prop := path = lowrankA name ∨ path = lowrankB name

/-- Tensors that share a factor's file share their safe name. -/
theorem safe_of_isSidecar {n m path : String} (hn : IsSidecar n path) (hm : IsSidecar m path) : safeTensorName n = safeTensorName m := by
  rcases hn with rfl | rfl <;> rcases hm with h | h
  · exact safe_of_lowrankA h
  · exact absurd h (lowrankA_ne_lowrankB n m)
  · exact absurd h.symm (lowrankA_ne_lowrankB m n)
  · exact safe_of_lowrankB h

/-- A path that is no factor file is untouched by writing the factors. -/
theorem update_frame {β : Type} {name path : String} (h : ¬ IsSidecar name path) (store : Store β) (f : Option (File β)) :
    Function.update store (lowrankA name) f path = store path ∧ Function.update store (lowrankB name) f path = store path :=
  ⟨Function.update_of_ne (fun hp => h (.inl hp)) .., Function.update_of_ne (fun hp => h (.inr hp)) ..⟩

section Correct

variable {α : Type} [Field α] {num : Numerics α}

/-! ## One tensor -/

/-- An entry without its correction reads nothing more. -/
theorem reads_of_popped {tm : TensorMeta} {path : String} (h : path ∈ ({ tm with lowrank := none } : TensorMeta).reads) :
    path ∈ tm.reads := by
  simp only [TensorMeta.reads, TensorMeta.sidecarPaths, resolveStages, List.mem_append, Option.toList_none, List.flatMap_nil,
    List.not_mem_nil, or_false] at h ⊢
  exact h.imp_right .inl

/-- The entry of an improved tensor reads what it read before and its own sidecars. -/
theorem reads_of_corrected {tm : TensorMeta} {rank : ℕ} {name path : String}
    (h : path ∈ ({ tm with lowrank := some ⟨rank, some .float16, lowrankA name, lowrankB name⟩ } : TensorMeta).reads) :
    path ∈ tm.reads ∨ IsSidecar name path := by
  simp only [TensorMeta.reads, TensorMeta.sidecarPaths, resolveStages, List.mem_append, Option.toList_some, List.flatMap_cons,
    List.flatMap_nil, List.append_nil, List.mem_cons, List.not_mem_nil, or_false] at h ⊢
  rcases h with h | h | h
  · exact .inl (.inl h)
  · exact .inl (.inr (.inl h))
  · exact .inr h

variable {half : α → α} {rank : ℕ} {store store' : Store α} {e e' : MetricEntry α} {turn : CorrectTurn α} {r : Corrected}

/-- What an improved tensor is left with: the factors in its sidecars, an entry that names them, and the error of the values with the
factors added. -/
structure Improved (num : Numerics α) (rank : ℕ) (store store' : Store α) (e e' : MetricEntry α) (turn : CorrectTurn α)
    (rows cols : ℕ) (decoded a b : List α) : Prop where
  shape : rowsCols e.entry.shape = .ok (rows, cols)
  packed : e.entry.packedValues = rows * cols
  decodes : decodeTensor num store { e.entry with lowrank := none } = .ok decoded
  length : decoded.length = rows * cols
  holds : SidecarsHold store' ⟨rank, some .float16, lowrankA turn.name, lowrankB turn.name⟩ rows cols a b
  entry : e'.entry = { e.entry with lowrank := some ⟨rank, some .float16, lowrankA turn.name, lowrankB turn.name⟩ }
  mse : qualityMse (turn.tensor.take e.entry.packedValues) (List.zipWith (· + ·) decoded (matmulT rows rank cols a b)) = .ok e'.mse

/-- Measuring a tensor decodes it and factors what is left. -/
theorem measureResidual_ok {tm : TensorMeta} {target decoded : List α} {rows cols : ℕ} {before : α} {factors : Factors α}
    (h : measureResidual num store tm turn target rows cols rank = .ok (decoded, before, factors)) :
    decodeTensor num store tm = .ok decoded ∧ qualityMse target decoded = .ok before ∧ decoded.length = rows * cols ∧
      target.length = rows * cols := by
  unfold measureResidual at h
  obtain ⟨decoded', hdecode, h⟩ := bind_eq_ok.1 h
  obtain ⟨before', hbefore, h⟩ := bind_eq_ok.1 h
  obtain ⟨residual, hresidual, h⟩ := bind_eq_ok.1 h
  obtain ⟨factors', -, h⟩ := map_eq_ok.1 h
  obtain ⟨rfl, rfl, rfl⟩ : decoded' = decoded ∧ before' = before ∧ factors' = factors := by simpa using h
  have hlen : target.length = decoded'.length := by
    unfold qualityMse at hbefore
    split at hbefore
    · cases hbefore
    · next hne => exact not_not.1 hne
  unfold reshape at hresidual
  split at hresidual
  · next hcount =>
    rw [List.length_zipWith, hlen, Nat.min_self] at hcount
    exact ⟨hdecode, hbefore, hcount, hlen.trans hcount⟩
  · cases hresidual

/-- An empty tensor has no error. -/
theorem qualityMse_eq_zero_of_empty {target decoded : List α} {m : α} (ht : target.length = 0) (h : qualityMse target decoded = .ok m) :
    m = 0 := by
  unfold qualityMse at h
  split at h
  · cases h
  · simp only at h
    exact (Except.ok.inj h).symm

variable [LinearOrder α]

/-- **The frame of a correction**: whatever happens, only the sidecars of the tensor change. -/
theorem correctTensor_frame (num : Numerics α) (half : α → α) (rank : ℕ) (store : Store α) (e : MetricEntry α) {turn : CorrectTurn α}
    {path : String} (h : ¬ IsSidecar turn.name path) : (correctTensor num half rank store e turn).1 path = store path := by
  have hA := fun (store : Store α) f => (update_frame h store f).1
  have hB := fun (store : Store α) f => (update_frame h store f).2
  unfold correctTensor
  split
  · rfl
  · simp only
    split
    · rfl
    · split
      · rfl
      · split
        · exact hA _ _
        · split
          · simp only [hA, hB]
          · unfold settleCorrection
            split
            · simp only [hA, hB]
            · split
              · split
                · simp only [hA, hB]
                · simp only
                  split
                  · simp only [hA, hB]
                  · simp only [hA, hB]
              · simp only [hA, hB]

/-- **What a turn that returns has done**: nothing, it dropped the correction, or it replaced it by a better one. -/
theorem correctTensor_ok (hrank : 1 ≤ rank) (h : correctTensor num half rank store e turn = (store', e', .ok r)) :
    (r = .skipped ∧ store' = store ∧ e' = e) ∨ (r = .notImproved ∧ e' = { e with entry := { e.entry with lowrank := none } }) ∨
      (r = .improved ∧ ∃ rank' rows cols decoded a b, Improved num rank' store store' e e' turn rows cols decoded a b) := by
  unfold correctTensor at h
  split at h
  · cases h
  · next rows cols hshape =>
    simp only at h
    split at h
    · obtain ⟨rfl, rfl, rfl⟩ : store = store' ∧ e = e' ∧ .skipped = r := by simpa using h
      exact .inl ⟨rfl, rfl, rfl⟩
    · next hpacked =>
      split at h
      · cases h
      · next decoded before factors hmeasure =>
        obtain ⟨hdecode, hbefore, hdlen, htlen⟩ := measureResidual_ok hmeasure
        split at h
        · cases h
        · split at h
          · cases h
          · unfold settleCorrection at h
            split at h
            · cases h
            · next after hafter =>
              split at h
              · split at h
                · cases h
                · simp only at h
                  split at h
                  · cases h
                  · obtain ⟨-, rfl, rfl⟩ := by simpa using h
                    exact .inr (.inl ⟨rfl, rfl⟩)
              · next hworse =>
                obtain ⟨rfl, rfl, rfl⟩ := by simpa using h
                -- an error that can be lowered is not that of an empty tensor
                have hpos : 0 < rows * cols := by
                  refine Nat.pos_of_ne_zero fun h0 => hworse ?_
                  rw [qualityMse_eq_zero_of_empty (htlen.trans h0) hbefore, qualityMse_eq_zero_of_empty (htlen.trans h0) hafter]
                have hrows := Nat.pos_of_mul_pos_right hpos
                have hcols := Nat.pos_of_mul_pos_left hpos
                refine .inr (.inr ⟨rfl, min rank (min rows cols), rows, cols, decoded,
                  factors.a16 half rows (min rank (min rows cols)), factors.b16 half cols (min rank (min rows cols)), ?_⟩)
                exact {
                  shape := hshape
                  packed := not_not.1 hpacked
                  decodes := hdecode
                  length := hdlen
                  holds := {
                    dtype := rfl
                    rank := by
                      change 0 < min rank (min rows cols)
                      omega
                    fileA := by
                      rw [Function.update_of_ne (lowrankA_ne_lowrankB _ _), Function.update_self]
                    fileB := by rw [Function.update_self]
                    lengthA := length_tabulate _ _
                    lengthB := length_tabulate _ _ }
                  entry := rfl
                  mse := hafter }

/-! ## The manifest in memory -/

omit [Field α] [LinearOrder α] in
theorem mem_of_packedMeta {entries : List (MetricEntry α)} {name : String} (h : packedMeta entries name = some e) :
    e ∈ entries ∧ e.entry.name = name := by
  unfold packedMeta at h
  exact ⟨List.mem_reverse.1 (List.mem_of_find?_eq_some h), by simpa using List.find?_some h⟩

omit [Field α] [LinearOrder α] in
/-- After an entry is set the others are as before. -/
theorem mem_setPacked {name : String} {new x : MetricEntry α} {entries : List (MetricEntry α)} (h : x ∈ setPacked name new entries) :
    x = new ∨ x ∈ entries := by
  induction entries with
  | nil => cases h
  | cons e es ih =>
    rw [setPacked] at h
    split at h
    · rcases List.mem_cons.1 h with rfl | h
      · exact .inr List.mem_cons_self
      · exact (ih h).imp_right (List.mem_cons_of_mem _)
    · split at h
      · exact (List.mem_cons.1 h).imp_right (List.mem_cons_of_mem _)
      · exact .inr h

/-- The names of the entries. -/
def entryNames (entries : List (MetricEntry α)) : List String := entries.map fun e => e.entry.name

omit [Field α] [LinearOrder α] in
/-- Where names are not repeated, an entry is new or one of another name. -/
theorem mem_setPacked_of_nodup {name : String} {new x : MetricEntry α} {entries : List (MetricEntry α)}
    (hnodup : (entryNames entries).Nodup) (h : x ∈ setPacked name new entries) : x = new ∨ x ∈ entries ∧ x.entry.name ≠ name := by
  induction entries with
  | nil => cases h
  | cons e es ih =>
    obtain ⟨hhead, hrest⟩ := List.nodup_cons.1 hnodup
    have hother {x : MetricEntry α} (hx : x ∈ es) (hlater : name ∉ entryNames es) : x.entry.name ≠ name := by
      rintro rfl
      exact hlater (List.mem_map_of_mem hx)
    rw [setPacked] at h
    split at h
    · next hlater =>
      rcases List.mem_cons.1 h with rfl | h
      · refine .inr ⟨List.mem_cons_self, ?_⟩
        rintro rfl
        exact hhead hlater
      · exact (ih hrest h).imp_right fun hx => ⟨List.mem_cons_of_mem _ hx.1, hx.2⟩
    · next hlater =>
      split at h
      · exact (List.mem_cons.1 h).imp_right fun hx => ⟨List.mem_cons_of_mem _ hx, hother hx hlater⟩
      · next he =>
        refine .inr ⟨h, ?_⟩
        rcases List.mem_cons.1 h with rfl | hx
        · exact he
        · exact hother hx hlater

omit [Field α] [LinearOrder α] in
/-- Setting an entry of a name keeps the names. -/
theorem entryNames_setPacked {name : String} {new : MetricEntry α} (hnew : new.entry.name = name) (entries : List (MetricEntry α)) :
    entryNames (setPacked name new entries) = entryNames entries := by
  induction entries with
  | nil => rfl
  | cons e es ih =>
    rw [setPacked]
    split
    · rw [entryNames, List.map_cons, ← entryNames, ih, entryNames, entryNames, List.map_cons]
    · split
      · next he => rw [entryNames, entryNames, List.map_cons, List.map_cons, hnew, he]
      · rfl

/-- Without its correction an entry is what it was. -/
theorem correctTensor_popped (hrank : 1 ≤ rank) (h : correctTensor num half rank store e turn = (store', e', .ok r)) :
    ({ e'.entry with lowrank := none } : TensorMeta) = { e.entry with lowrank := none } := by
  rcases correctTensor_ok hrank h with ⟨-, -, rfl⟩ | ⟨-, rfl⟩ | ⟨-, rank', rows, cols, decoded, a, b, himproved⟩
  · rfl
  · rfl
  · rw [himproved.entry]

/-- A corrected entry keeps its name, shape and count. -/
theorem correctTensor_entry (hrank : 1 ≤ rank) (h : correctTensor num half rank store e turn = (store', e', .ok r)) :
    e'.entry.name = e.entry.name ∧ e'.entry.shape = e.entry.shape ∧ e'.entry.packedValues = e.entry.packedValues := by
  have hpopped := correctTensor_popped hrank h
  simp only [TensorMeta.mk.injEq] at hpopped
  exact ⟨hpopped.1, hpopped.2.1, hpopped.2.2.1⟩

/-- The entry is of a matrix, packed whole: others are passed over. -/
def MetricEntry.isMatrix (e : MetricEntry α) : Bool :=
  match rowsCols e.entry.shape with
  | .ok (rows, cols) => decide (e.entry.packedValues = rows * cols)
  | .error _ => false

/-- A tensor that is no matrix is passed over. -/
theorem correctTensor_passedOver (num : Numerics α) (half : α → α) (rank : ℕ) (store : Store α) (turn : CorrectTurn α)
    (h : e.isMatrix = false) :
    (correctTensor num half rank store e turn).1 = store ∧ (correctTensor num half rank store e turn).2.1 = e := by
  unfold correctTensor
  unfold MetricEntry.isMatrix at h
  split
  · exact ⟨rfl, rfl⟩
  · next rows cols hshape =>
    rw [hshape, decide_eq_false_iff_not] at h
    simp only
    rw [if_pos h]
    exact ⟨rfl, rfl⟩

omit [Field α] [LinearOrder α] in
theorem packedMeta_cons (x : MetricEntry α) (entries : List (MetricEntry α)) (name : String) :
    packedMeta (x :: entries) name = (packedMeta entries name).or (if x.entry.name = name then some x else none) := by
  simp only [packedMeta, List.reverse_cons, List.find?_append, List.find?_singleton, decide_eq_true_eq]

omit [Field α] [LinearOrder α] in
/-- No entry is found exactly when the manifest does not have the name. -/
theorem packedMeta_eq_none {entries : List (MetricEntry α)} {name : String} :
    packedMeta entries name = none ↔ name ∉ entryNames entries := by
  simp only [packedMeta, List.find?_eq_none, List.mem_reverse, decide_eq_true_eq, entryNames, List.mem_map, not_exists, not_and]

omit [Field α] [LinearOrder α] in
/-- The entry set is the one found, every other name finds what it did. -/
theorem packedMeta_setPacked {name : String} {new : MetricEntry α} (hnew : new.entry.name = name) (entries : List (MetricEntry α))
    (n : String) :
    packedMeta (setPacked name new entries) n =
      if n = name then (packedMeta entries name).map fun _ => new else packedMeta entries n := by
  induction entries with
  | nil => simp [setPacked, packedMeta]
  | cons x entries ih =>
    rw [setPacked]
    split
    · next hlater =>
      rw [packedMeta_cons, ih, packedMeta_cons, packedMeta_cons]
      obtain ⟨y, hy⟩ := Option.ne_none_iff_exists'.1 fun hnone => packedMeta_eq_none.1 hnone hlater
      by_cases hn : n = name
      · simp only [if_pos hn, hy, Option.map_some, Option.some_or]
      · simp only [if_neg hn]
    · next hlater =>
      have hnone : packedMeta entries name = none := packedMeta_eq_none.2 hlater
      split
      · next hx =>
        rw [packedMeta_cons, packedMeta_cons, packedMeta_cons, hnone, hnew, hx]
        by_cases hn : n = name
        · subst hn
          simp [hnone]
        · simp [hn, Ne.symm hn]
      · next hx =>
        by_cases hn : n = name
        · subst hn
          rw [if_pos rfl, packedMeta_eq_none.2, Option.map_none]
          simpa [entryNames, Ne.symm hx] using hlater
        · rw [if_neg hn]

/-- Which names the manifest has, and which of them are of matrices packed whole. -/
def matrixOf (entries : List (MetricEntry α)) (name : String) : Option Bool := (packedMeta entries name).map MetricEntry.isMatrix

/-- Correcting a tensor keeps which tensors are matrices. -/
theorem matrixOf_setPacked (hrank : 1 ≤ rank) {entries : List (MetricEntry α)} (he : packedMeta entries turn.name = some e)
    (hrun : correctTensor num half rank store e turn = (store', e', .ok r)) :
    matrixOf (setPacked turn.name e' entries) = matrixOf entries := by
  obtain ⟨hname, hshape, hpacked⟩ := correctTensor_entry hrank hrun
  have hmatrix : e'.isMatrix = e.isMatrix := by rw [MetricEntry.isMatrix, MetricEntry.isMatrix, hshape, hpacked]
  funext n
  rw [matrixOf, matrixOf, packedMeta_setPacked (hname.trans (mem_of_packedMeta he).2)]
  split
  · next hn => rw [hn, he, Option.map_some, Option.map_some, Option.map_some, hmatrix]
  · rfl

/-! ## The run -/

/-- The turns of a run that may write: up to the limit, those of a matrix that is packed whole. -/
def touched (matrix : String → Option Bool) (maxTensors : Option ℕ) : List (CorrectTurn α) → ℕ → List (CorrectTurn α)
  | [], _ => []
  | turn :: turns, done =>
    match matrix turn.name with
    | none => touched matrix maxTensors turns done
    | some whole =>
      if maxTensors.any (· ≤ done) then []
      else if whole then turn :: touched matrix maxTensors turns (done + 1) else touched matrix maxTensors turns (done + 1)

/-- A turn that comes to its writes: the tensor is a matrix packed whole, it decodes without a correction, and there are factors. -/
def ComesToWrites (num : Numerics α) (rank : ℕ) (store : Store α) (e : MetricEntry α) (turn : CorrectTurn α) : Prop :=
  ∃ rows cols, rowsCols e.entry.shape = .ok (rows, cols) ∧ e.entry.packedValues = rows * cols ∧
    ∃ measured, measureResidual num store { e.entry with lowrank := none } turn (turn.tensor.take e.entry.packedValues) rows cols
      (min rank (min rows cols)) = .ok measured

/-- A turn that a run takes, with the files and the entry it finds. -/
structure TakenTurn (α : Type) where
  store : Store α
  found : MetricEntry α
  turn : CorrectTurn α

/-- The turn comes to its writes. -/
def TakenTurn.writes (num : Numerics α) (rank : ℕ) (t : TakenTurn α) : Prop := ComesToWrites num rank t.store t.found t.turn

/-- What the turn comes to. -/
def TakenTurn.outcome (num : Numerics α) (half : α → α) (rank : ℕ) (t : TakenTurn α) : Except PyErr Corrected :=
  (correctTensor num half rank t.store t.found t.turn).2.2

/-- The turns that a run of the loop takes, up to the limit or to one that raises. -/
def takenTurns (num : Numerics α) (half : α → α) (rank : ℕ) (maxTensors : Option ℕ) :
    List (CorrectTurn α) → ℕ → Store α → List (MetricEntry α) → List (TakenTurn α)
  | [], _, _, _ => []
  | turn :: turns, done, store, entries =>
    match packedMeta entries turn.name with
    | none => takenTurns num half rank maxTensors turns done store entries
    | some e =>
      if maxTensors.any (· ≤ done) then []
      else ⟨store, e, turn⟩ :: match correctTensor num half rank store e turn with
        | (_, _, .error _) => []
        | (store, e, .ok _) => takenTurns num half rank maxTensors turns (done + 1) store (setPacked turn.name e entries)

/-- A turn that does not come to its writes leaves the files. -/
theorem correctTensor_unwritten (h : ¬ ComesToWrites num rank store e turn) : (correctTensor num half rank store e turn).1 = store := by
  unfold correctTensor
  split
  · rfl
  · next rows cols hshape =>
    by_cases hpacked : e.entry.packedValues = rows * cols
    · have hfails : ∀ measured, measureResidual num store { e.entry with lowrank := none } turn (turn.tensor.take e.entry.packedValues)
          rows cols (min rank (min rows cols)) ≠ .ok measured := fun measured hmeasured =>
        h ⟨rows, cols, hshape, hpacked, measured, hmeasured⟩
      simp only
      rw [if_neg (not_not.2 hpacked)]
      split
      · rfl
      · next decoded before factors hmeasured => exact absurd hmeasured (hfails (decoded, before, factors))
    · simp only
      rw [if_pos hpacked]

/-- Over a whole run only the sidecars of the tensors change whose turns come to their writes. -/
theorem correctLoop_frame {maxTensors : Option ℕ} {sourceErr : Option PyErr} {turns : List (CorrectTurn α)} (done : ℕ)
    (store : Store α) {entries : List (MetricEntry α)} {path : String}
    (h : ∀ t ∈ takenTurns num half rank maxTensors turns done store entries, t.writes num rank → ¬ IsSidecar t.turn.name path) :
    (correctLoop num half rank maxTensors sourceErr turns done store entries).1 path = store path := by
  induction turns generalizing done store entries with
  | nil => rfl
  | cons turn turns ih =>
    rw [correctLoop]
    rw [takenTurns] at h
    split
    · next he =>
      rw [he] at h
      exact ih done store h
    · next e he =>
      rw [he] at h
      split
      · rfl
      · next hlimit =>
        simp only [if_neg hlimit] at h
        have hframe : (correctTensor num half rank store e turn).1 path = store path := by
          have hfirst := h ⟨store, e, turn⟩ List.mem_cons_self
          by_cases hwrites : ComesToWrites num rank store e turn
          · exact correctTensor_frame num half rank store e (hfirst hwrites)
          · rw [correctTensor_unwritten hwrites]
        split
        · next store' e' err hrun =>
          rw [hrun] at hframe
          exact hframe
        · next store' e' r hrun =>
          rw [hrun] at hframe h
          rw [ih _ _ fun t ht => h t (List.mem_cons_of_mem _ ht)]
          exact hframe

/-- The entry records the error of what it decodes to, against the tensor of the source. -/
def Recorded (num : Numerics α) (source : List (CorrectTurn α)) (store : Store α) (e : MetricEntry α) : Prop :=
  ∀ turn ∈ source, turn.name = e.entry.name → ∃ decoded, decodeTensor num store e.entry = .ok decoded ∧
    qualityMse (turn.tensor.take e.entry.packedValues) decoded = .ok e.mse

omit [LinearOrder α] in
/-- An entry that reads no file that changed records what it did. -/
theorem Recorded.congr {source : List (CorrectTurn α)} (h : Recorded num source store e)
    (hreads : ∀ path ∈ e.entry.reads, store' path = store path) : Recorded num source store' e := by
  intro turn hturn hname
  rw [decodeTensor_congr num hreads]
  exact h turn hturn hname

omit [LinearOrder α] in
/-- An improved entry decodes to the values with its factors added. -/
theorem Improved.decodes_corrected {rows cols rank' : ℕ} {decoded a b : List α}
    (h : Improved num rank' store store' e e' turn rows cols decoded a b)
    (hreads : ∀ path ∈ ({ e.entry with lowrank := none } : TensorMeta).reads, store' path = store path) :
    decodeTensor num store' e'.entry = .ok (List.zipWith (· + ·) decoded (matmulT rows rank' cols a b)) := by
  have hpopped : decodeTensor num store' { e.entry with lowrank := none } = .ok decoded :=
    (decodeTensor_congr num fun path hpath => hreads path hpath).trans h.decodes
  have hlowrank : e'.entry.lowrank = some ⟨rank', some .float16, lowrankA turn.name, lowrankB turn.name⟩ := by rw [h.entry]
  have hshape : rowsCols e'.entry.shape = .ok (rows, cols) := by
    rw [h.entry]
    exact h.shape
  have hwithout : { e'.entry with lowrank := none } = { e.entry with lowrank := none } := by rw [h.entry]
  exact h.holds.decodeTensor_ok hlowrank hshape (hwithout ▸ hpopped) h.length

/-- What a run needs of the tensors it still touches: the manifest names each tensor once, an entry reads the sidecars of one of them
only as its own correction, no two of them share sidecars, and the source has one tensor of each name. -/
structure OwnSidecars (source turns : List (CorrectTurn α)) (entries : List (MetricEntry α)) : Prop where
  named : (entryNames entries).Nodup
  plain : ∀ turn ∈ turns, ∀ e ∈ entries, ∀ path ∈ ({ e.entry with lowrank := none } : TensorMeta).reads, ¬ IsSidecar turn.name path
  own : ∀ turn ∈ turns, ∀ e ∈ entries, ∀ path ∈ e.entry.reads, IsSidecar turn.name path → e.entry.name = turn.name
  distinct : (turns.map fun turn => safeTensorName turn.name).Nodup
  single : ∀ turn ∈ turns, ∀ t ∈ source, t.name = turn.name → t = turn

omit [Field α] [LinearOrder α] in
/-- The tensors still to come have other sidecars than the one at hand. -/
theorem OwnSidecars.safe_ne {source turns : List (CorrectTurn α)} {entries : List (MetricEntry α)}
    (h : OwnSidecars source (turn :: turns) entries) {t : CorrectTurn α} (ht : t ∈ turns) :
    safeTensorName t.name ≠ safeTensorName turn.name := by
  have hnodup := h.distinct
  rw [List.map_cons, List.nodup_cons] at hnodup
  exact fun he => hnodup.1 (he ▸ List.mem_map_of_mem ht)

/-- A turn leaves what the later ones need. -/
theorem OwnSidecars.step (hrank : 1 ≤ rank) {source turns : List (CorrectTurn α)} {entries : List (MetricEntry α)}
    (h : OwnSidecars source (turn :: turns) entries) (he : packedMeta entries turn.name = some e)
    (hrun : correctTensor num half rank store e turn = (store', e', .ok r)) :
    OwnSidecars source turns (setPacked turn.name e' entries) where
  named := by
    rw [entryNames_setPacked ((correctTensor_entry hrank hrun).1.trans (mem_of_packedMeta he).2)]
    exact h.named
  plain t ht x hx path hpath := by
    have hplain := h.plain t (List.mem_cons_of_mem _ ht)
    rcases mem_setPacked hx with rfl | hx
    · rw [correctTensor_popped hrank hrun] at hpath
      exact hplain e (mem_of_packedMeta he).1 path hpath
    · exact hplain x hx path hpath
  own t ht x hx path hpath hsidecar := by
    have hown := h.own t (List.mem_cons_of_mem _ ht)
    rcases mem_setPacked hx with rfl | hx
    · have hmem := (mem_of_packedMeta he).1
      rw [(correctTensor_entry hrank hrun).1]
      rcases correctTensor_ok hrank hrun with ⟨-, -, rfl⟩ | ⟨-, rfl⟩ | ⟨-, rank', rows, cols, decoded, a, b, himproved⟩
      · exact hown x hmem path hpath hsidecar
      · exact hown e hmem path (reads_of_popped hpath) hsidecar
      · rw [himproved.entry] at hpath
        rcases reads_of_corrected hpath with hpath | hturn
        · exact hown e hmem path hpath hsidecar
        · exact absurd (safe_of_isSidecar hsidecar hturn) (h.safe_ne ht)
    · exact hown x hx path hpath hsidecar
  distinct := (List.nodup_cons.1 h.distinct).2
  single t ht := h.single t (List.mem_cons_of_mem _ ht)

/-- Whose turn drops a correction recorded the error without it. -/
def DropsNothing (num : Numerics α) (half : α → α) (rank : ℕ) (source : List (CorrectTurn α)) (taken : List (TakenTurn α)) : Prop :=
  ∀ t ∈ taken, t.outcome num half rank = .ok .notImproved → t.found.entry.lowrank = none ∨
    Recorded num source t.store { t.found with entry := { t.found.entry with lowrank := none } }

/-- The entry records its error, or a turn of its tensor is to improve it. -/
def RecordedOrImproved (num : Numerics α) (half : α → α) (rank : ℕ) (source : List (CorrectTurn α)) (taken : List (TakenTurn α))
    (store : Store α) (e : MetricEntry α) : Prop :=
  Recorded num source store e ∨ ∃ t ∈ taken, t.turn.name = e.entry.name ∧ t.outcome num half rank = .ok .improved

/-- A turn that returns leaves every entry with the error it records, or with a turn that is to improve it. -/
theorem recorded_step (hrank : 1 ≤ rank) {source turns : List (CorrectTurn α)} {entries : List (MetricEntry α)} {taken : List (TakenTurn α)}
    (h : OwnSidecars source (turn :: turns) entries) (hdrops : DropsNothing num half rank source (⟨store, e, turn⟩ :: taken))
    (hrecorded : ∀ x ∈ entries, RecordedOrImproved num half rank source (⟨store, e, turn⟩ :: taken) store x)
    (he : packedMeta entries turn.name = some e) (hrun : correctTensor num half rank store e turn = (store', e', .ok r)) :
    ∀ x ∈ setPacked turn.name e' entries, RecordedOrImproved num half rank source taken store' x := by
  obtain ⟨hmem, hname⟩ := mem_of_packedMeta he
  have hframe {path : String} (hpath : ¬ IsSidecar turn.name path) : store' path = store path := by
    have hkept := correctTensor_frame num half rank store e hpath
    rwa [hrun] at hkept
  have hplain := h.plain turn List.mem_cons_self e hmem
  have houtcome : TakenTurn.outcome num half rank ⟨store, e, turn⟩ = .ok r := by rw [TakenTurn.outcome, hrun]
  have hlater {x : MetricEntry α} (hx : RecordedOrImproved num half rank source (⟨store, e, turn⟩ :: taken) store x)
      (hother : r ≠ .improved ∨ x.entry.name ≠ turn.name) : Recorded num source store x ∨
        ∃ t ∈ taken, t.turn.name = x.entry.name ∧ t.outcome num half rank = .ok .improved := by
    refine hx.imp_right ?_
    rintro ⟨t, ht, htname, himproves⟩
    rcases List.mem_cons.1 ht with rfl | ht
    · rw [houtcome] at himproves
      exact absurd htname.symm (hother.resolve_left (not_not.2 (Except.ok.inj himproves)))
    · exact ⟨t, ht, htname, himproves⟩
  intro x hx
  rcases mem_setPacked_of_nodup h.named hx with rfl | ⟨hx, hother⟩
  · rcases correctTensor_ok hrank hrun with ⟨rfl, rfl, rfl⟩ | ⟨rfl, rfl⟩ | ⟨rfl, rank', rows, cols, decoded, a, b, himproved⟩
    · exact hlater (hrecorded x hmem) (.inl nofun)
    · have hcongr {x : MetricEntry α} (hx : Recorded num source store x)
          (hpopped : x = { e with entry := { e.entry with lowrank := none } }) : Recorded num source store' x := by
        subst hpopped
        exact hx.congr fun path hpath => hframe (hplain path hpath)
      rcases hdrops _ List.mem_cons_self houtcome with hnone | hpopped
      · have hsame : e = { e with entry := { e.entry with lowrank := none } } := by
          obtain ⟨tm, mse⟩ := e
          have hlowrank : tm.lowrank = none := hnone
          rw [← hlowrank]
        rw [← hsame]
        exact (hlater (hrecorded e hmem) (.inl nofun)).imp_left fun hrec => hcongr hrec hsame
      · exact .inl (hcongr hpopped rfl)
    · refine .inl fun t ht htname => ?_
      rw [himproved.entry] at htname
      obtain rfl := h.single turn List.mem_cons_self t ht (htname.trans hname)
      refine ⟨_, himproved.decodes_corrected fun path hpath => hframe (hplain path hpath), ?_⟩
      rw [himproved.entry]
      exact himproved.mse
  · refine (hlater (hrecorded x hx) (.inr hother)).imp_left fun hrec => hrec.congr fun path hpath => hframe fun hsidecar => ?_
    exact hother (h.own turn List.mem_cons_self x hx path hpath hsidecar)

omit [Field α] [LinearOrder α] in
/-- Correcting one entry keeps the sidecars apart. -/
theorem OwnSidecars.of_entries {source turns : List (CorrectTurn α)} {entries : List (MetricEntry α)} {name : String}
    (h : OwnSidecars source turns entries) (he : packedMeta entries name = some e) :
    OwnSidecars source turns (setPacked name e entries) where
  named := by
    rw [entryNames_setPacked (mem_of_packedMeta he).2]
    exact h.named
  plain t ht x hx := h.plain t ht x ((mem_setPacked hx).elim (fun hx => hx ▸ (mem_of_packedMeta he).1) id)
  own t ht x hx := h.own t ht x ((mem_setPacked hx).elim (fun hx => hx ▸ (mem_of_packedMeta he).1) id)
  distinct := h.distinct
  single := h.single

/-- A tensor that is passed over is not improved. -/
theorem outcome_passedOver (hrank : 1 ≤ rank) (h : e.isMatrix = false) :
    TakenTurn.outcome num half rank ⟨store, e, turn⟩ ≠ .ok .improved := by
  intro himproved
  have hrun : correctTensor num half rank store e turn =
      ((correctTensor num half rank store e turn).1, (correctTensor num half rank store e turn).2.1, .ok .improved) :=
    Prod.ext rfl (Prod.ext rfl himproved)
  rcases correctTensor_ok hrank hrun with ⟨hr, -⟩ | ⟨hr, -⟩ | ⟨-, rank', rows, cols, decoded, a, b, hbetter⟩
  · cases hr
  · cases hr
  · rw [MetricEntry.isMatrix, hbetter.shape, decide_eq_false_iff_not] at h
    exact h hbetter.packed

/-- A run that returns leaves every entry with the error it records. -/
theorem correctLoop_recorded (hrank : 1 ≤ rank) {maxTensors : Option ℕ} {sourceErr : Option PyErr}
    {source turns : List (CorrectTurn α)} (done : ℕ) (store : Store α) {entries entries' : List (MetricEntry α)}
    (h : OwnSidecars source (touched (matrixOf entries) maxTensors turns done) entries)
    (hdrops : DropsNothing num half rank source (takenTurns num half rank maxTensors turns done store entries))
    (hrecorded : ∀ x ∈ entries,
      RecordedOrImproved num half rank source (takenTurns num half rank maxTensors turns done store entries) store x)
    (hrun : correctLoop num half rank maxTensors sourceErr turns done store entries = (store', .ok entries')) :
    ∀ x ∈ entries', Recorded num source store' x := by
  have hended {store : Store α} {entries : List (MetricEntry α)}
      (hrecorded : ∀ x ∈ entries, RecordedOrImproved num half rank source [] store x) : ∀ x ∈ entries, Recorded num source store x :=
    fun x hx => (hrecorded x hx).elim id fun ⟨t, ht, _⟩ => absurd ht List.not_mem_nil
  induction turns generalizing done store entries with
  | nil =>
    cases sourceErr with
    | some err => cases hrun
    | none =>
      obtain ⟨rfl, rfl⟩ : store = store' ∧ entries = entries' := by simpa [correctLoop] using hrun
      exact hended hrecorded
  | cons turn turns ih =>
    rw [correctLoop] at hrun
    rw [touched] at h
    rw [takenTurns] at hdrops hrecorded
    split at hrun
    · next he =>
      rw [matrixOf, he, Option.map_none] at h
      rw [he] at hdrops hrecorded
      exact ih done store h hdrops hrecorded hrun
    · next e he =>
      rw [matrixOf, he, Option.map_some] at h
      rw [he] at hdrops hrecorded
      split at hrun
      · next hlimit =>
        simp only [if_pos hlimit] at hrecorded
        obtain ⟨rfl, rfl⟩ : store = store' ∧ entries = entries' := by simpa using hrun
        exact hended hrecorded
      · next hlimit =>
        simp only [if_neg hlimit] at h hdrops hrecorded
        split at hrun
        · cases hrun
        · next store₁ e₁ r hturn =>
          rw [hturn] at hdrops hrecorded
          have hmatrix := matrixOf_setPacked hrank he hturn
          have hrest : DropsNothing num half rank source
              (takenTurns num half rank maxTensors turns (done + 1) store₁ (setPacked turn.name e₁ entries)) := fun t ht =>
            hdrops t (List.mem_cons_of_mem _ ht)
          cases hwhole : e.isMatrix with
          | true =>
            rw [hwhole, if_pos rfl] at h
            exact ih (done + 1) store₁ (hmatrix.symm ▸ h.step hrank he hturn) hrest (recorded_step hrank h hdrops hrecorded he hturn) hrun
          | false =>
            -- nothing is written, and the entry is put back as it was
            rw [hwhole, if_neg Bool.false_ne_true] at h
            obtain ⟨hstore, hentry⟩ := correctTensor_passedOver num half rank store turn hwhole
            have hskipped : TakenTurn.outcome num half rank ⟨store, e, turn⟩ ≠ .ok .improved := outcome_passedOver hrank hwhole
            rw [hturn] at hstore hentry
            obtain rfl : store₁ = store := hstore
            obtain rfl : e₁ = e := hentry
            refine ih (done + 1) store₁ (hmatrix.symm ▸ h.of_entries he) hrest (fun x hx => ?_) hrun
            have hx := (mem_setPacked hx).elim (fun hx => hx ▸ (mem_of_packedMeta he).1) id
            refine (hrecorded x hx).imp_right ?_
            rintro ⟨t, ht, htname, himproves⟩
            rcases List.mem_cons.1 ht with rfl | ht
            · exact absurd himproves hskipped
            · exact ⟨t, ht, htname, himproves⟩

/-- A call that raises leaves what every entry on disk decodes to, and one that returns leaves entries that record the error of what
they decode to. -/
structure KeepsOrRecords (num : Numerics α) (source : List (CorrectTurn α)) (store : Store α) (disk : List (MetricEntry α))
    (after : Store α × Except PyErr (List (MetricEntry α))) : Prop where
  kept : ∀ err, after.2 = .error err → ∀ e ∈ disk, decodeTensor num after.1 e.entry = decodeTensor num store e.entry
  recorded : ∀ entries, after.2 = .ok entries → ∀ e ∈ entries, Recorded num source after.1 e

/-- A call that spares the corrections of earlier ones: before it raises, no turn has come to its writes whose sidecars an entry on disk
reads; and before it returns, every turn that drops a correction finds the error without it recorded. -/
structure Spares (num : Numerics α) (half : α → α) (rank : ℕ) (source : List (CorrectTurn α)) (taken : List (TakenTurn α))
    (disk : List (MetricEntry α)) (after : Store α × Except PyErr (List (MetricEntry α))) : Prop where
  raised : ∀ err, after.2 = .error err → ∀ t ∈ taken, t.writes num rank → ∀ e ∈ disk, ∀ path ∈ e.entry.reads, ¬ IsSidecar t.turn.name path
  returned : ∀ entries, after.2 = .ok entries → DropsNothing num half rank source taken

end Correct

/-! ## A tensor corrected twice -/

/-- The files of `w`, of which every group of two is `[1, 2]`, and sidecars of rank 1 on disk or not. -/
def smallStore (a b : Option (File ℚ)) : Store ℚ := fun path =>
  if path = "cb" then some (.floats .float16 [1, 2])
  else if path = "idx" then some (.stream .raw [0, 0])
  else if path = lowrankA "w" then a
  else if path = lowrankB "w" then b
  else none

/-- A tensor of two rows and two columns. -/
def smallEntry (name : String) (mse : ℚ) (lowrank : Option LowrankMeta) : MetricEntry ℚ where
  entry := { name := name, shape := [2, 2], packedValues := 4, paddedValues := 4, groupSize := 2,
             stages := [{ codebook := "cb", codebookSize := 1, codebookDtype := some .float16, indexBits := 1, indices := "idx" }],
             codebook := "cb", codebookSize := 1, indexBits := 1, indices := "idx", lowrank := lowrank }
  mse := mse

/-- The source has `[[3, 2], [1, 3]]`; the residual is diagonal. -/
def smallTurn (name : String) (svdLowrank : List ℚ → ℕ → Except PyErr (Factors ℚ)) : CorrectTurn ℚ where
  name := name
  tensor := [3, 2, 1, 3]
  svdLowrank := svdLowrank
  writeA := .ok
  writeB := .ok
  unlinkA := none
  unlinkB := none

def diagonalFactors : Factors ℚ where
  u i j := if i = j then 1 else 0
  s j := if j = 0 then 2 else 1
  v i j := if i = j then 1 else 0

/-- `w` corrected with rank 1: the error left is that of the second factor. -/
def correctedOnce : MetricEntry ℚ := smallEntry "w" (1 / 4) (some ⟨1, some .float16, lowrankA "w", lowrankB "w"⟩)

def onceStore : Store ℚ := smallStore (some (.floats .float16 [2, 0])) (some (.floats .float16 [1, 0]))

/-- A run over one tensor takes its turn. -/
theorem takenTurns_single {α : Type} [Field α] [LinearOrder α] {num : Numerics α} {half : α → α} {rank : ℕ} {store : Store α}
    {entries : List (MetricEntry α)} {turn : CorrectTurn α} {e : MetricEntry α} (he : packedMeta entries turn.name = some e) :
    takenTurns num half rank none [turn] 0 store entries = [⟨store, e, turn⟩] := by
  rw [takenTurns, he]
  simp only [Option.any_none, Bool.false_eq_true, if_false]
  split <;> rfl

/-- Where there are no factors, nothing is written. -/
theorem not_comesToWrites {α : Type} [Field α] {num : Numerics α} {rank : ℕ} {store : Store α} {e : MetricEntry α}
    {turn : CorrectTurn α} {err : PyErr} (h : ∀ residual q, turn.svdLowrank residual q = .error err) :
    ¬ ComesToWrites num rank store e turn := by
  rintro ⟨rows, cols, -, -, measured, hmeasured⟩
  obtain ⟨decoded, -, hmeasured⟩ := bind_eq_ok.1 hmeasured
  obtain ⟨before, -, hmeasured⟩ := bind_eq_ok.1 hmeasured
  obtain ⟨residual, -, hmeasured⟩ := bind_eq_ok.1 hmeasured
  obtain ⟨factors, hfactors, -⟩ := map_eq_ok.1 hmeasured
  rw [h] at hfactors
  cases hfactors

/-- The only tensor has its own sidecars. -/
theorem ownSidecars_correctedOnce (svdLowrank : List ℚ → ℕ → Except PyErr (Factors ℚ)) :
    OwnSidecars [smallTurn "w" svdLowrank] (touched (matrixOf [correctedOnce]) none [smallTurn "w" svdLowrank] 0) [correctedOnce] where
  named := List.nodup_singleton _
  plain turn hturn e he path hpath := by
    obtain rfl := List.mem_singleton.1 hturn
    obtain rfl := List.mem_singleton.1 he
    unfold IsSidecar
    revert path
    change ∀ path ∈ ({ correctedOnce.entry with lowrank := none } : TensorMeta).reads, ¬ (path = lowrankA "w" ∨ path = lowrankB "w")
    decide +kernel
  own turn hturn e he path _ _ := by
    obtain rfl := List.mem_singleton.1 hturn
    obtain rfl := List.mem_singleton.1 he
    rfl
  distinct := List.nodup_singleton _
  single turn hturn t ht _ := by
    obtain rfl := List.mem_singleton.1 hturn
    exact List.mem_singleton.1 ht

/-- The first correction has left its error. -/
theorem recorded_correctedOnce (svdLowrank : List ℚ → ℕ → Except PyErr (Factors ℚ)) :
    Recorded rationalNumerics [smallTurn "w" svdLowrank] onceStore correctedOnce := by
  intro turn hturn hname
  obtain rfl := List.mem_singleton.1 hturn
  refine ⟨[3, 2, 1, 2], by decide +kernel, ?_⟩
  change qualityMse (List.take 4 [3, 2, 1, 3]) [3, 2, 1, 2] = .ok (1 / 4 : ℚ)
  decide +kernel

end Orka
