import Orka.EmAq
import Orka.Theorems.Kmeans

/-!
# EM-AQ never increases the error

The residual stages of a tensor add up to its decoded sum. Learning a stage again against what the others leave starts from the
codebook the stage has, so two Lloyd iterations and a nearest assignment leave no more error than before, and neither does any number
of passes over the stages. The start is cut to as many centroids as there are rows: a first codebook that an earlier pack has cached may
have more, and then it is not the codebook of the stage.
-/

namespace Orka

open Flat Steps Clustering

set_option linter.unusedSectionVars false

variable {α : Type} [Field α] [LinearOrder α] [IsStrictOrderedRing α] {g w : ℕ}

/-! ## Rows -/

@[simp] theorem length_addRows (a b : List (Fin w → α)) : (addRows a b).length = min a.length b.length := List.length_zipWith

@[simp] theorem length_vectorsSubtract (a b : List (Fin w → α)) : (vectorsSubtract a b).length = min a.length b.length :=
  List.length_zipWith

theorem cell_addRows {a b : List (Fin w → α)} {i : ℕ} (ha : i < a.length) (hb : i < b.length) :
    cell (addRows a b) i = cell a i + cell b i := cell_zipWith ha hb

theorem cell_vectorsSubtract {a b : List (Fin w → α)} {i : ℕ} (ha : i < a.length) (hb : i < b.length) :
    cell (vectorsSubtract a b) i = cell a i - cell b i := cell_zipWith ha hb

/-- The total squared error of a sum against the vectors. -/
def sqErr (vectors sum : List (Fin g → α)) : α := ∑ i ∈ Finset.range vectors.length, ∑ e, (cell vectors i e - cell sum i e) ^ 2

/-! ## Views -/

/-- The number of rows of the view of `n` vectors. -/
def viewRows (g n : ℕ) : StageKind → ℕ
  | .vector => n
  | .scalar => n * g

/-- The view of a stage has the rows its kind gives. -/
theorem length_stageView (kind : StageKind) (vectors : List (Fin g → α)) :
    (stageView kind vectors).length = viewRows g vectors.length kind := by
  cases kind with
  | vector => rfl
  | scalar =>
    rw [stageView, List.length_map]
    exact length_flat

/-- The vectors a view is of. -/
def unviewed (kind : StageKind) (n : ℕ) (raw : List (Fin (kind.groupSize g) → α)) : List (Fin g → α) :=
  match kind, raw with
  | .vector, raw => raw
  | .scalar, raw => tabulate n fun i e => cell raw (i * g + e) (0 : Fin 1)

/-- Rows as many as the view has are unviewed. -/
theorem stageUnview_ok {kind : StageKind} {n : ℕ} {raw : List (Fin (kind.groupSize g) → α)} (h : raw.length = viewRows g n kind) :
    stageUnview kind n raw = .ok (unviewed kind n raw) := by
  cases kind with
  | vector => rfl
  | scalar => exact if_neg (not_not.2 h)

theorem length_unviewed {kind : StageKind} {n : ℕ} {raw : List (Fin (kind.groupSize g) → α)} (h : raw.length = viewRows g n kind) :
    (unviewed kind n raw).length = n := by
  cases kind with
  | vector => exact h
  | scalar => exact length_tabulate _ _

/-- A sum over the entries of a matrix, row by row. -/
theorem sum_rows {M : Type} [AddCommMonoid M] (f : ℕ → M) (n g : ℕ) :
    ∑ p ∈ Finset.range (n * g), f p = ∑ i ∈ Finset.range n, ∑ e : Fin g, f (i * g + e) := by
  induction n with
  | zero => simp
  | succ n ih => rw [Nat.succ_mul, Finset.sum_range_add, ih, Finset.sum_range_succ, Finset.sum_range fun e => f (n * g + e)]

/-- The views of two matrices have the same entries beside each other as the matrices. -/
theorem sum_stageView (F : α → α → α) {kind : StageKind} {vectors : List (Fin g → α)} {raw : List (Fin (kind.groupSize g) → α)} :
    ∑ p ∈ Finset.range (viewRows g vectors.length kind), ∑ e, F (cell (stageView kind vectors) p e) (cell raw p e) =
      ∑ i ∈ Finset.range vectors.length, ∑ e, F (cell vectors i e) (cell (unviewed kind vectors.length raw) i e) := by
  cases kind with
  | vector => rfl
  | scalar =>
    rw [viewRows, sum_rows]
    refine Finset.sum_congr rfl fun i hi => Finset.sum_congr rfl fun e _ => ?_
    have hi := Finset.mem_range.1 hi
    have hlt : i * g + e < (vectors.flatMap List.ofFn).length := by
      rw [length_flat]
      exact flat_lt hi e.isLt
    rw [unviewed, cell_tabulate _ hi, stageView, cell_map hlt, cell_flat hi]
    exact Fin.sum_univ_one _

/-! ## Stages -/

/-- What a stage decodes to. -/
def StageData.decoded (n : ℕ) (sd : StageData α g) : List (Fin g → α) := unviewed sd.kind n (sd.indices.map (cell sd.cb))

/-- A stage of a tensor of `n` vectors: an index of the codebook for each row of the view. -/
structure StageData.Fits (n : ℕ) (sd : StageData α g) : Prop where
  size : sd.codebookSize = sd.cb.length
  length : sd.indices.length = viewRows g n sd.kind
  range : ∀ i < sd.indices.length, cell sd.indices i < sd.cb.length

/-- Indices inside the codebook gather their rows. -/
theorem gatherRows_ok {cb : List (Fin w → α)} {idx : List ℕ} (h : ∀ i < idx.length, cell idx i < cb.length) :
    gatherRows cb idx = .ok (idx.map (cell cb)) := by
  refine if_neg fun hany => ?_
  obtain ⟨j, hj, hle⟩ := List.any_eq_true.1 hany
  obtain ⟨i, hi, rfl⟩ := List.getElem_of_mem hj
  have := h i hi
  rw [cell_eq_getElem hi] at this
  exact absurd (of_decide_eq_true hle) (not_le.2 this)

/-- A stage that fits decodes. -/
theorem StageData.Fits.decodeStage_ok {n : ℕ} {sd : StageData α g} (h : sd.Fits n) : decodeStage n sd = .ok (sd.decoded n) := by
  rw [decodeStage, gatherRows_ok h.range, ok_bind]
  exact stageUnview_ok (by rw [List.length_map, h.length])

theorem StageData.Fits.length_decoded {n : ℕ} {sd : StageData α g} (h : sd.Fits n) : (sd.decoded n).length = n :=
  length_unviewed (by rw [List.length_map, h.length])

/-- Without weights the objective of a stage is the squared error of what it decodes to. -/
theorem objective_eq_sqErr {sd : StageData α g} {vectors : List (Fin g → α)}
    (h : sd.indices.length = viewRows g vectors.length sd.kind) :
    objective (stageView sd.kind vectors) none none sd.cb sd.indices = sqErr vectors (sd.decoded vectors.length) := by
  rw [sqErr, StageData.decoded, ← sum_stageView fun x y => (x - y) ^ 2, objective, cost, length_stageView]
  refine Finset.sum_congr rfl fun p hp => ?_
  rw [cell_map (by rw [h]; exact Finset.mem_range.1 hp), rowWeight, one_mul]
  exact Finset.sum_congr rfl fun e _ => one_mul _

/-- A stage that assigns the rows of a view fits them. -/
theorem fits_of_assigns {kind : StageKind} {vectors : List (Fin g → α)} {cb : List (Fin (kind.groupSize g) → α)} {indices : List ℕ}
    (h : Assigns (stageView kind vectors) cb indices) : StageData.Fits vectors.length ⟨kind, cb, indices, cb.length⟩ where
  size := rfl
  length := by rw [h.1, length_stageView]
  range := fun i hi => h.2 i (by rwa [← h.1])

/-- What the stages decode to, added up. -/
def stageSum (n : ℕ) (stages : List (StageData α g)) : List (Fin g → α) :=
  tabulate n fun i => (stages.map fun sd => cell (sd.decoded n) i).sum

/-- A running sum that is the sum over the stages of `codebook[indices]`. -/
def SumsTo (n : ℕ) (stages : List (StageData α g)) (sum : List (Fin g → α)) : Prop :=
  ∃ decoded, stages.mapM (decodeStage n) = .ok decoded ∧ sum = tabulate n fun i => (decoded.map fun dec => cell dec i).sum

/-- Stages that fit add up. -/
theorem sumsTo_stageSum {n : ℕ} {stages : List (StageData α g)} (h : ∀ sd ∈ stages, sd.Fits n) :
    SumsTo n stages (stageSum n stages) := by
  refine ⟨stages.map (StageData.decoded n), mapM_ok fun sd hsd => (h sd hsd).decodeStage_ok, ?_⟩
  simp only [stageSum, List.map_map, Function.comp_def]

/-- One more stage. -/
theorem stageSum_append {n : ℕ} {stages : List (StageData α g)} {sd : StageData α g} (h : sd.Fits n) :
    stageSum n (stages ++ [sd]) = addRows (stageSum n stages) (sd.decoded n) := by
  refine ext_cell ?_ fun i hi => ?_
  · simp [stageSum, h.length_decoded]
  · rw [stageSum, length_tabulate] at hi
    rw [cell_addRows (by rwa [stageSum, length_tabulate]) (by rwa [h.length_decoded]), stageSum, cell_tabulate _ hi, stageSum,
      cell_tabulate _ hi, List.map_append, List.sum_append, List.map_singleton, List.sum_singleton]

/-- The first stage. -/
theorem stageSum_singleton {n : ℕ} {sd : StageData α g} (h : sd.Fits n) : stageSum n [sd] = sd.decoded n := by
  refine ext_cell ?_ fun i hi => ?_
  · rw [stageSum, length_tabulate, h.length_decoded]
  · rw [stageSum, length_tabulate] at hi
    rw [stageSum, cell_tabulate _ hi, List.map_singleton, List.sum_singleton]

/-- Another codebook and other indices for one of the stages. -/
theorem stageSum_set {n : ℕ} {stages : List (StageData α g)} {i : ℕ} {old new : StageData α g} (hi : stages[i]? = some old)
    (hold : old.Fits n) (hnew : new.Fits n) :
    stageSum n (stages.set i new) = addRows (vectorsSubtract (stageSum n stages) (old.decoded n)) (new.decoded n) := by
  obtain ⟨hlt, rfl⟩ := List.getElem?_eq_some_iff.1 hi
  have hlength : (stageSum n stages).length = n := length_tabulate _ _
  refine ext_cell ?_ fun j hj => ?_
  · simp [stageSum, hold.length_decoded, hnew.length_decoded]
  · rw [stageSum, length_tabulate] at hj
    rw [cell_addRows (by simpa [hlength, hold.length_decoded] using hj) (by rwa [hnew.length_decoded]),
      cell_vectorsSubtract (by rwa [hlength]) (by rwa [hold.length_decoded]), stageSum, cell_tabulate _ hj, stageSum,
      cell_tabulate _ hj, List.map_set, List.sum_set', dif_pos (by rwa [List.length_map]), List.getElem_map]
    abel

/-! ## Learning a stage -/

/-- No sub-sampling of so many rows. -/
def Unsampled (run : EmRun α) (rows : ℕ) : Prop := ∀ m ∈ run.sampleVectors, m ≤ 0 ∨ (rows : ℤ) ≤ m

/-- Where nothing is sampled the vectors stay as they are. -/
theorem sampleVectorsAndWeights_eq {run : EmRun α} {vectors : List (Fin w → α)} (h : Unsampled run vectors.length)
    (weights : Option (List α)) : sampleVectorsAndWeights run vectors weights = (vectors, weights) := by
  unfold sampleVectorsAndWeights
  split
  · rfl
  · next m hm => exact if_pos (h m hm)

variable {run : EmRun α} {c : EmCandidate α g}

/-- Without weights the greedy stage has none. -/
theorem greedyWeights_eq (hvw : c.vectorWeights = none) (hsw : c.sampleWeights = none) (kind : StageKind) :
    greedyWeights c kind = (none, none) := by
  cases kind with
  | vector => rw [greedyWeights, hvw, hsw]; rfl
  | scalar => rfl

/-- Without weights the refined stage has none. -/
theorem emWeights_eq (hvw : c.vectorWeights = none) (hsw : c.sampleWeights = none) (kind : StageKind) :
    emWeights c kind = (none, none) := by
  cases kind with
  | vector =>
    rw [emWeights, hvw, hsw]
    split <;> rfl
  | scalar => rfl

theorem nonnegWeights_none : NonnegWeights (none : Option (Fin w → α)) none := ⟨nofun, nofun⟩

/-- The indices of either backend. -/
theorem quantizeVectorsAuto_nearest {learner : Learner α} {rows codebook : List (Fin w → α)} {indices : List ℕ} {mse : α}
    (h : quantizeVectorsAuto learner rows codebook none false = .ok (indices, mse)) : AssignsNearest none rows codebook indices := by
  unfold quantizeVectorsAuto at h
  split at h
  · exact torchAssign_nearest (by simp) (by norm_num) h
  · exact numpyAssign_nearest (by simp) h

/-- The size `learn_codebook_auto` caps a codebook of `k` centroids at. -/
theorem cappedSize_min (k n : ℕ) : cappedSize (min k n : ℕ) n = min k n := by
  unfold cappedSize
  omega

/-- The codebook of a stage is cached, where it is the first, or it has no more centroids than the view has rows. -/
theorem stageCodebook_spec (hvw : c.vectorWeights = none) (hsw : c.sampleWeights = none) {stageI k : ℕ} {kind : StageKind}
    {vRes cb : List (Fin (kind.groupSize g) → α)} (hsample : Unsampled run vRes.length)
    (h : stageCodebook run c stageI kind k vRes = .ok cb) :
    stageI = 0 ∧ cb ∈ run.cached (kind.groupSize g) k ∨ cb.length ≤ vRes.length := by
  unfold stageCodebook at h
  split at h
  · next cached hcached =>
    obtain rfl := Except.ok.inj h
    split at hcached
    · next hfirst => exact .inl ⟨hfirst, hcached⟩
    · cases hcached
  · right
    rw [greedyWeights_eq hvw hsw, sampleVectorsAndWeights_eq hsample] at h
    obtain ⟨⟨cb', indices, mse⟩, hlearn, rfl⟩ := map_eq_ok.1 h
    obtain ⟨-, start, -, hle, hiterates⟩ := learnCodebookAuto_iterates (by simp) nonnegWeights_none hlearn
    rw [cappedSize_min] at hle
    rw [hiterates.length]
    exact hle.trans (min_le_right _ _)

/-- A stage that the passes leave as it is, or one they learn again from its whole codebook: no more centroids than rows. -/
def StageData.Whole (run : EmRun α) (n : ℕ) (sd : StageData α g) : Prop :=
  sd.cb.length ≤ viewRows g n sd.kind ∨ ∃ m ∈ run.sampleVectors, m ≤ (sd.codebookSize : ℤ)

/-- Learning a stage again from its whole codebook leaves no more error against its target, and as many centroids. -/
theorem relearn_le {learner : Learner α} {vectors : List (Fin g → α)} {sd : StageData α g} (hsd : sd.Fits vectors.length)
    (hbound : sd.cb.length ≤ viewRows g vectors.length sd.kind)
    {cb : List (Fin (sd.kind.groupSize g) → α)} {idx indices : List ℕ} {err mse : α}
    (hlearn : learnCodebookAuto learner (stageView sd.kind vectors) (min sd.codebookSize (stageView sd.kind vectors).length : ℕ) 2
      (some sd.cb) none none = .ok (cb, idx, err))
    (hassign : quantizeVectorsAuto learner (stageView sd.kind vectors) cb none false = .ok (indices, mse)) :
    StageData.Fits vectors.length ⟨sd.kind, cb, indices, sd.codebookSize⟩ ∧ cb.length = sd.cb.length ∧
      sqErr vectors (StageData.decoded vectors.length ⟨sd.kind, cb, indices, sd.codebookSize⟩) ≤
        sqErr vectors (sd.decoded vectors.length) := by
  obtain ⟨-, start, hstart, -, hiterates⟩ := learnCodebookAuto_iterates (by simp) nonnegWeights_none hlearn
  have hnearest := quantizeVectorsAuto_nearest hassign
  -- the codebook has no more centroids than there are rows, so the start is all of it
  have hwhole : start = sd.cb := by
    rw [hstart _ rfl, cappedSize_min, length_stageView, hsd.size, min_eq_left hbound, List.take_length]
  rw [hwhole] at hiterates
  have hfits := fits_of_assigns hnearest.1
  rw [hiterates.length, ← hsd.size] at hfits
  refine ⟨hfits, hiterates.length, ?_⟩
  rw [← objective_eq_sqErr hfits.length, ← objective_eq_sqErr hsd.length]
  refine hiterates.objective_le nonnegWeights_none ⟨?_, fun i hi => hsd.range i ?_⟩ hnearest
  · rw [hsd.length, length_stageView]
  · rwa [hsd.length, ← length_stageView sd.kind]

/-! ## The passes -/

/-- What the steps keep: stages that fit, whose sum is the running sum. -/
structure EmState.Keeps (run : EmRun α) (n : ℕ) (st : EmState α g) : Prop where
  fits : ∀ sd ∈ st.stages, sd.Fits n
  whole : ∀ sd ∈ st.stages, sd.Whole run n
  unsampled : ∀ sd ∈ st.stages, Unsampled run (viewRows g n sd.kind)
  sum : st.fullSum = stageSum n st.stages

/-- The error of a sum in which one part is replaced. -/
theorem sqErr_replace {vectors sum old new : List (Fin g → α)} (hsum : sum.length = vectors.length) (hold : old.length = vectors.length)
    (hnew : new.length = vectors.length) :
    sqErr vectors (addRows (vectorsSubtract sum old) new) = sqErr (vectorsSubtract vectors (vectorsSubtract sum old)) new := by
  have hlength : (vectorsSubtract vectors (vectorsSubtract sum old)).length = vectors.length := by simp [hsum, hold]
  rw [sqErr, sqErr, hlength]
  refine Finset.sum_congr rfl fun i hi => ?_
  have hi := Finset.mem_range.1 hi
  have hpart : i < (vectorsSubtract sum old).length := by simpa [hsum, hold] using hi
  rw [cell_addRows hpart (by rwa [hnew]), cell_vectorsSubtract hi hpart]
  exact Finset.sum_congr rfl fun e _ => by rw [Pi.add_apply, Pi.sub_apply, sub_add_eq_sub_sub]

/-- The target of a stage leaves the stage the error the sum has. -/
theorem sqErr_target {vectors sum old : List (Fin g → α)} (hsum : sum.length = vectors.length) (hold : old.length = vectors.length) :
    sqErr (vectorsSubtract vectors (vectorsSubtract sum old)) old = sqErr vectors sum := by
  rw [← sqErr_replace hsum hold hold]
  congr 1
  refine ext_cell (by simp [hsum, hold]) fun i hi => ?_
  have hi : i < vectors.length := by simpa [hsum, hold] using hi
  rw [cell_addRows (by simpa [hsum, hold] using hi) (by rwa [hold]), cell_vectorsSubtract (by rwa [hsum]) (by rwa [hold]),
    sub_add_cancel]

/-- One step. -/
theorem refineStage_descends (hvw : c.vectorWeights = none) (hsw : c.sampleWeights = none) {st st' : EmState α g} {stageI : ℕ}
    (hst : st.Keeps run c.vectorsOrig.length) (h : refineStage run c st stageI = .ok st') :
    st'.Keeps run c.vectorsOrig.length ∧ sqErr c.vectorsOrig st'.fullSum ≤ sqErr c.vectorsOrig st.fullSum := by
  unfold refineStage at h
  split at h
  · cases h
  next sd hsd =>
  have hmem : sd ∈ st.stages := List.mem_of_getElem? hsd
  have hfits := hst.fits sd hmem
  split at h
  · obtain rfl := Except.ok.inj h
    exact ⟨hst, le_rfl⟩
  next hlearns =>
  have hbound : sd.cb.length ≤ viewRows g c.vectorsOrig.length sd.kind := by
    refine (hst.whole sd hmem).resolve_right ?_
    rintro ⟨m, hm, hle⟩
    exact hlearns ((Option.any_eq_true _ _).2 ⟨m, hm, decide_eq_true hle⟩)
  rw [hfits.decodeStage_ok, ok_bind, emWeights_eq hvw hsw] at h
  simp only at h
  have hsum : st.fullSum.length = c.vectorsOrig.length := by rw [hst.sum, stageSum, length_tabulate]
  have hold := hfits.length_decoded
  have htarget := sqErr_target hsum hold
  have hreplace (new : List (Fin g → α)) (hnew : new.length = c.vectorsOrig.length) := sqErr_replace hsum hold hnew
  have hrows : (vectorsSubtract c.vectorsOrig (vectorsSubtract st.fullSum (sd.decoded c.vectorsOrig.length))).length =
      c.vectorsOrig.length := by simp [hsum, hold]
  generalize vectorsSubtract c.vectorsOrig (vectorsSubtract st.fullSum (sd.decoded c.vectorsOrig.length)) = target at *
  rw [sampleVectorsAndWeights_eq (by rw [length_stageView, hrows]; exact hst.unsampled sd hmem)] at h
  obtain ⟨⟨cb, idx, err⟩, hlearn, h⟩ := bind_eq_ok.1 h
  obtain ⟨⟨indices, mse⟩, hassign, h⟩ := bind_eq_ok.1 h
  obtain ⟨hnew, hlength, hle⟩ := relearn_le (by rwa [hrows]) (by rwa [hrows]) hlearn hassign
  rw [hrows] at hnew hle
  simp only at h
  rw [hnew.decodeStage_ok, ok_map] at h
  obtain rfl := Except.ok.inj h
  refine ⟨⟨fun sd' hsd' => ?_, fun sd' hsd' => ?_, fun sd' hsd' => ?_, ?_⟩, ?_⟩
  · rcases List.mem_or_eq_of_mem_set hsd' with hsd' | rfl
    · exact hst.fits sd' hsd'
    · exact hnew
  · rcases List.mem_or_eq_of_mem_set hsd' with hsd' | rfl
    · exact hst.whole sd' hsd'
    · exact .inl (hlength.trans_le hbound)
  · rcases List.mem_or_eq_of_mem_set hsd' with hsd' | rfl
    · exact hst.unsampled sd' hsd'
    · exact hst.unsampled sd hmem
  · rw [hst.sum, stageSum_set hsd hfits hnew]
  · rw [hreplace _ hnew.length_decoded, ← htarget]
    exact hle

/-! ## The stage loop -/

/-- What the stage loop keeps. -/
structure StagedCandidate.Keeps (run : EmRun α) (n : ℕ) (st : StagedCandidate α g) : Prop where
  residual : st.residual.length = n
  fits : ∀ sd ∈ st.stages, sd.Fits n
  unsampled : ∀ sd ∈ st.stages, Unsampled run (viewRows g n sd.kind)
  sum : st.stages = [] ∧ st.decodedSum = none ∨ st.stages ≠ [] ∧ st.decodedSum = some (stageSum n st.stages)

/-- A stage that is recorded. -/
theorem StagedCandidate.Keeps.record {n : ℕ} {st : StagedCandidate α g} (hst : st.Keeps run n) {sd : StageData α g} (hfits : sd.Fits n)
    (hsample : Unsampled run (viewRows g n sd.kind)) {vectors : List (Fin g → α)} (hvectors : vectors.length = n) :
    StagedCandidate.Keeps run n ⟨vectorsSubtract vectors (accumulate st.decodedSum (sd.decoded n)),
      some (accumulate st.decodedSum (sd.decoded n)), st.stages ++ [sd]⟩ := by
  have hsum : accumulate st.decodedSum (sd.decoded n) = stageSum n (st.stages ++ [sd]) := by
    rcases hst.sum with ⟨hnil, hnone⟩ | ⟨-, hsome⟩
    · rw [hnone, hnil]
      exact (stageSum_singleton hfits).symm
    · rw [hsome, stageSum_append hfits]
      rfl
  refine ⟨?_, fun sd' hsd' => ?_, fun sd' hsd' => ?_, .inr ⟨by simp, by rw [hsum]⟩⟩
  · rw [length_vectorsSubtract, hsum, stageSum, length_tabulate, hvectors, min_self]
  · rcases List.mem_append.1 hsd' with hsd' | hsd'
    · exact hst.fits sd' hsd'
    · exact List.mem_singleton.1 hsd' ▸ hfits
  · rcases List.mem_append.1 hsd' with hsd' | hsd'
    · exact hst.unsampled sd' hsd'
    · exact List.mem_singleton.1 hsd' ▸ hsample

/-- One stage of the loop: it records one more, from a cached codebook where it is the first, or with no more centroids than rows. -/
theorem quantizeAndRecordStage_keeps (hvw : c.vectorWeights = none) (hsw : c.sampleWeights = none) {st st' : StagedCandidate α g}
    {stageI : ℕ} {spec : SpecStage} (hsample : Unsampled run (viewRows g c.vectorsOrig.length (stageSize spec).1))
    (hst : st.Keeps run c.vectorsOrig.length) (h : quantizeAndRecordStage run c st stageI spec = .ok st') :
    st'.Keeps run c.vectorsOrig.length ∧ ∃ cb indices, st'.stages = st.stages ++ [⟨(stageSize spec).1, cb, indices, cb.length⟩] ∧
      (stageI = 0 ∧ cb ∈ run.cached ((stageSize spec).1.groupSize g) (stageSize spec).2 ∨
        cb.length ≤ viewRows g c.vectorsOrig.length (stageSize spec).1) := by
  unfold quantizeAndRecordStage at h
  simp only at h
  rw [greedyWeights_eq hvw hsw] at h
  obtain ⟨cb, hcb, h⟩ := bind_eq_ok.1 h
  obtain ⟨⟨indices, mse⟩, hassign, h⟩ := bind_eq_ok.1 h
  have hrows : (stageView (stageSize spec).1 st.residual).length = viewRows g c.vectorsOrig.length (stageSize spec).1 := by
    rw [length_stageView, hst.residual]
  have hsource := stageCodebook_spec hvw hsw (by rwa [hrows]) hcb
  rw [hrows] at hsource
  have hfits := fits_of_assigns (quantizeVectorsAuto_nearest hassign).1
  simp only at h
  rw [hfits.decodeStage_ok, ok_map, hst.residual] at h
  rw [hst.residual] at hfits
  obtain rfl := Except.ok.inj h
  exact ⟨hst.record hfits hsample rfl, cb, indices, rfl, hsource⟩

/-- A first codebook that the cache holds for the first of the stages is whole for the passes. -/
def CachedWhole (run : EmRun α) (g n : ℕ) (specs : List SpecStage) : Prop :=
  ∀ spec ∈ specs.head?, ∀ cb ∈ run.cached ((stageSize spec).1.groupSize g) (stageSize spec).2,
    cb.length ≤ viewRows g n (stageSize spec).1 ∨ ∃ m ∈ run.sampleVectors, m ≤ (cb.length : ℤ)

/-- **The stage loop.** It records the stages in order, and they are whole for the passes where a cached first codebook is. -/
theorem stageLoop_keeps (hvw : c.vectorWeights = none) (hsw : c.sampleWeights = none) {specs : List SpecStage}
    (hsample : ∀ spec ∈ specs, Unsampled run (viewRows g c.vectorsOrig.length (stageSize spec).1)) {st : StagedCandidate α g}
    (h : stageLoop run c specs = .ok st) :
    st.Keeps run c.vectorsOrig.length ∧
      (CachedWhole run g c.vectorsOrig.length specs → ∀ sd ∈ st.stages, sd.Whole run c.vectorsOrig.length) := by
  refine foldlM_keeps (P := fun st : StagedCandidate α g => st.Keeps run c.vectorsOrig.length ∧
    (CachedWhole run g c.vectorsOrig.length specs → ∀ sd ∈ st.stages, sd.Whole run c.vectorsOrig.length))
    (fun spec hspec st st' hst hstep => ?_) ⟨⟨rfl, by simp, by simp, .inl ⟨rfl, rfl⟩⟩, by simp⟩ h
  obtain ⟨hkeeps, cb, indices, hstages, hsource⟩ :=
    quantizeAndRecordStage_keeps hvw hsw (hsample _ (List.fst_mem_of_mem_zipIdx hspec)) hst.1 hstep
  refine ⟨hkeeps, fun hcached sd hsd => ?_⟩
  rw [hstages] at hsd
  rcases List.mem_append.1 hsd with hsd | hsd
  · exact hst.2 hcached sd hsd
  obtain rfl := List.mem_singleton.1 hsd
  rcases hsource with ⟨hfirst, hcb⟩ | hle
  · -- the first stage is the first of the spec
    refine hcached spec.1 ?_ cb hcb
    rw [List.head?_eq_getElem?]
    have := List.mem_zipIdx_iff_getElem?.1 hspec
    rwa [hfirst] at this
  · exact .inl hle

/-- The stage loop leaves a stage for each of the spec. -/
theorem length_stageLoop {specs : List SpecStage} {st : StagedCandidate α g} (h : stageLoop run c specs = .ok st) :
    st.stages.length = specs.length := by
  have hsteps (pairs : List (SpecStage × ℕ)) (st st' : StagedCandidate α g)
      (h : pairs.foldlM (fun st spec => quantizeAndRecordStage run c st spec.2 spec.1) st = .ok st') :
      st'.stages.length = st.stages.length + pairs.length := by
    induction pairs generalizing st with
    | nil =>
      obtain rfl := Except.ok.inj h
      rfl
    | cons pair pairs ih =>
      rw [foldlM_cons_eq] at h
      obtain ⟨mid, hmid, h⟩ := bind_eq_ok.1 h
      obtain ⟨cb, -, hmid⟩ := bind_eq_ok.1 hmid
      obtain ⟨⟨indices, mse⟩, -, hmid⟩ := bind_eq_ok.1 hmid
      obtain ⟨decoded, -, rfl⟩ := map_eq_ok.1 hmid
      rw [ih _ h, List.length_append, List.length_singleton, List.length_cons, Nat.add_right_comm, Nat.add_assoc]
  rw [hsteps _ _ _ h, List.length_zipIdx]
  exact Nat.zero_add _

/-! ## The refinement -/

/-- More stages behind those that are added up. -/
theorem foldlM_accumulate {n : ℕ} {before stages : List (StageData α g)} (h : ∀ sd ∈ stages, sd.Fits n) :
    stages.foldlM (fun fullSum sd => (decodeStage n sd).map fun dec => some (accumulate fullSum dec)) (some (stageSum n before)) =
      .ok (some (stageSum n (before ++ stages))) := by
  induction stages generalizing before with
  | nil =>
    rw [List.append_nil]
    rfl
  | cons sd stages ih =>
    have hsd := h sd (by simp)
    rw [foldlM_cons_eq, hsd.decodeStage_ok, ok_map, ok_bind, accumulate, ← stageSum_append hsd,
      ih fun sd' hsd' => h sd' (List.mem_cons_of_mem _ hsd'), List.append_assoc, List.singleton_append]

/-- The full sum the refinement starts with. -/
theorem decodeFullSum_eq {n : ℕ} {stages : List (StageData α g)} (h : ∀ sd ∈ stages, sd.Fits n) (hne : stages ≠ []) :
    decodeFullSum n stages = .ok (some (stageSum n stages)) := by
  cases stages with
  | nil => exact absurd rfl hne
  | cons sd stages =>
    have hsd := h sd (by simp)
    rw [decodeFullSum, foldlM_cons_eq, hsd.decodeStage_ok, ok_map, ok_bind, accumulate, ← stageSum_singleton hsd,
      foldlM_accumulate fun sd' hsd' => h sd' (List.mem_cons_of_mem _ hsd'), List.singleton_append]

/-- Any number of steps. -/
theorem foldlM_refineStage_descends (hvw : c.vectorWeights = none) (hsw : c.sampleWeights = none) {steps : List ℕ}
    {st st' : EmState α g} (hst : st.Keeps run c.vectorsOrig.length) (h : steps.foldlM (refineStage run c) st = .ok st') :
    st'.Keeps run c.vectorsOrig.length ∧ sqErr c.vectorsOrig st'.fullSum ≤ sqErr c.vectorsOrig st.fullSum := by
  induction steps generalizing st with
  | nil =>
    obtain rfl := Except.ok.inj h
    exact ⟨hst, le_rfl⟩
  | cons stageI steps ih =>
    rw [foldlM_cons_eq] at h
    obtain ⟨mid, hmid, h⟩ := bind_eq_ok.1 h
    obtain ⟨hkeeps, hle⟩ := refineStage_descends hvw hsw hst hmid
    obtain ⟨hkeeps', hle'⟩ := ih hkeeps h
    exact ⟨hkeeps', hle'.trans hle⟩

/-- The passes learn the stages of the tensor again: it is neither skipped nor giant, there are passes, and more than one stage. -/
def Refines (run : EmRun α) (c : EmCandidate α g) (nStages : ℕ) : Prop :=
  ¬c.skipped ∧ ¬(run.learner.backend = .torch ∧ isGiantMatrix run.learner.device c.vectorsOrig.length g = true) ∧
    0 < run.emAqPasses ∧ 1 < nStages

/-- **EM-AQ.** For a tensor without weights whose stages are learned without sub-sampling, and where the passes learn its stages again
only when a first codebook from the cache has no more rows than the stage (or the passes leave that stage out): at every step of the
passes the running sum is the sum over the stages of `codebook[indices]`, the squared error against the vectors does not increase, and
the refined tensor has no more error than the stage loop has left it. -/
theorem refineCandidate_descends {specs : List SpecStage} {packed : StagedCandidate α g} (hvw : c.vectorWeights = none)
    (hsw : c.sampleWeights = none) (hsample : ∀ spec ∈ specs, Unsampled run (viewRows g c.vectorsOrig.length (stageSize spec).1))
    (hcached : Refines run c specs.length → CachedWhole run g c.vectorsOrig.length specs)
    (hpacked : stageLoop run c specs = .ok packed) :
    (∀ fullSum, decodeFullSum c.vectorsOrig.length packed.stages = .ok (some fullSum) →
      SumsTo c.vectorsOrig.length packed.stages fullSum ∧
        (Refines run c packed.stages.length →
          ∀ before stageI after st st', jointSteps run packed.stages.length = before ++ stageI :: after →
            before.foldlM (refineStage run c) ⟨packed.stages, fullSum⟩ = .ok st → refineStage run c st stageI = .ok st' →
              SumsTo c.vectorsOrig.length st.stages st.fullSum ∧ SumsTo c.vectorsOrig.length st'.stages st'.fullSum ∧
                sqErr c.vectorsOrig st'.fullSum ≤ sqErr c.vectorsOrig st.fullSum)) ∧
    ∀ refined, refineCandidate run c packed = .ok refined → ∀ sum ∈ packed.decodedSum,
      ∃ sum' ∈ refined.decodedSum, SumsTo c.vectorsOrig.length refined.stages sum' ∧
        sqErr c.vectorsOrig sum' ≤ sqErr c.vectorsOrig sum := by
  obtain ⟨hkeeps, hwhole⟩ := stageLoop_keeps hvw hsw hsample hpacked
  rw [← length_stageLoop hpacked] at hcached
  have hstart (hrefines : Refines run c packed.stages.length) :
      EmState.Keeps run c.vectorsOrig.length ⟨packed.stages, stageSum c.vectorsOrig.length packed.stages⟩ :=
    ⟨hkeeps.fits, hwhole (hcached hrefines), hkeeps.unsampled, rfl⟩
  have hsums {st : EmState α g} (hst : st.Keeps run c.vectorsOrig.length) : SumsTo c.vectorsOrig.length st.stages st.fullSum := by
    rw [hst.sum]
    exact sumsTo_stageSum hst.fits
  constructor
  · intro fullSum hfull
    have hne : packed.stages ≠ [] := by
      intro hnil
      rw [hnil] at hfull
      cases hfull
    obtain rfl : stageSum c.vectorsOrig.length packed.stages = fullSum := by
      rw [decodeFullSum_eq hkeeps.fits hne] at hfull
      exact Option.some.inj (Except.ok.inj hfull)
    refine ⟨sumsTo_stageSum hkeeps.fits, fun hrefines before stageI after st st' _ hbefore hstep => ?_⟩
    obtain ⟨hst, -⟩ := foldlM_refineStage_descends hvw hsw (hstart hrefines) hbefore
    obtain ⟨hst', hle⟩ := refineStage_descends hvw hsw hst hstep
    exact ⟨hsums hst, hsums hst', hle⟩
  · intro refined h sum hsum
    obtain ⟨-, hnone⟩ | ⟨hne, hsome⟩ := hkeeps.sum
    · rw [hnone] at hsum
      cases hsum
    obtain rfl : stageSum c.vectorsOrig.length packed.stages = sum := by
      rw [hsome] at hsum
      exact Option.some.inj hsum
    unfold refineCandidate at h
    split at h
    · obtain rfl := Except.ok.inj h
      exact ⟨_, hsome, sumsTo_stageSum hkeeps.fits, le_rfl⟩
    next hskipped =>
    split at h
    · obtain rfl := Except.ok.inj h
      exact ⟨_, hsome, sumsTo_stageSum hkeeps.fits, le_rfl⟩
    next hgiant =>
    rw [decodeFullSum_eq hkeeps.fits hne, ok_bind] at h
    obtain ⟨st, hst, rfl⟩ := map_eq_ok.1 h
    split at hst
    · next hpasses =>
      obtain ⟨hkept, hle⟩ := foldlM_refineStage_descends hvw hsw (hstart ⟨hskipped, hgiant, hpasses⟩) hst
      exact ⟨_, rfl, hsums hkept, hle⟩
    · obtain rfl := Except.ok.inj hst
      exact ⟨_, rfl, sumsTo_stageSum hkeeps.fits, le_rfl⟩

/-- One pass on the numpy backend, with one Lloyd iteration for each stage before it and an earlier codebook for the first. -/
def onePass (cb : Option (List (Fin 2 → ℚ))) : EmRun ℚ where
  learner := smallLearner .numpy
  stageInit _ _ rows k := rows.take k
  cached d _ := if h : d = 2 then h ▸ cb else none
  linspace _ _ := []
  sampleVectors := none
  iterations := 1
  emAqPasses := 1

/-- Vectors of two dimensions. -/
def vectorsOf (vectors : List (Fin 2 → ℚ)) : EmCandidate ℚ 2 := ⟨vectors, none, none, false⟩

/-- Four vectors of two dimensions. -/
def fourVectors : List (Fin 2 → ℚ) := [![0, 0], ![1, 0], ![10, 4], ![12, 1]]

/-- The sums before and after the passes. -/
def sumsAround (run : EmRun ℚ) (c : EmCandidate ℚ 2) (specs : List SpecStage) :
    Option (Option (List (Fin 2 → ℚ)) × Option (List (Fin 2 → ℚ))) :=
  ((stageLoop run c specs).bind fun packed => (refineCandidate run c packed).map fun refined =>
    (packed.decodedSum, refined.decodedSum)).toOption

/-- The sums around the refinement, taken from a run of the stages. -/
theorem sumsAround_eq_some {run : EmRun ℚ} {c : EmCandidate ℚ 2} {specs : List SpecStage} {sum sum' : Option (List (Fin 2 → ℚ))}
    (h : sumsAround run c specs = some (sum, sum')) : ∃ packed refined, stageLoop run c specs = .ok packed ∧
      refineCandidate run c packed = .ok refined ∧ packed.decodedSum = sum ∧ refined.decodedSum = sum' := by
  obtain ⟨packed, hpacked, h⟩ := bind_eq_ok.1 (eq_ok_of_toOption h)
  obtain ⟨refined, hrefined, h⟩ := map_eq_ok.1 h
  obtain ⟨rfl, rfl⟩ := Prod.mk.inj h
  exact ⟨packed, refined, hpacked, hrefined, rfl, rfl⟩

/-- A stage of vectors from a cached codebook of two rows and a stage of scalars, for four vectors. -/
theorem refineCandidate_descends_twoStages : ∃ packed refined,
    stageLoop (onePass (some [![0, 0], ![10, 2]])) (vectorsOf fourVectors) [.vq 2, .scalar 1] = .ok packed ∧
      refineCandidate (onePass (some [![0, 0], ![10, 2]])) (vectorsOf fourVectors) packed = .ok refined ∧
        ∃ sum ∈ packed.decodedSum, ∃ sum' ∈ refined.decodedSum, SumsTo 4 refined.stages sum' ∧
          sqErr fourVectors sum' ≤ sqErr fourVectors sum := by
  have hrun : ((sumsAround (onePass (some [![0, 0], ![10, 2]])) (vectorsOf fourVectors) [.vq 2, .scalar 1]).bind Prod.fst).isSome := by
    decide +kernel
  obtain ⟨sum, hsum⟩ := Option.isSome_iff_exists.1 hrun
  obtain ⟨⟨_, sum'⟩, hsums, rfl⟩ := Option.bind_eq_some_iff.1 hsum
  obtain ⟨packed, refined, hpacked, hrefined, hsum, -⟩ := sumsAround_eq_some hsums
  have hcached : CachedWhole (onePass (some [![0, 0], ![10, 2]])) 2 4 [.vq 2, .scalar 1] := by
    intro spec hspec cb hcb
    obtain rfl := Option.some.inj hspec
    obtain rfl := Option.some.inj hcb
    exact .inl (by decide)
  have hdescends := (refineCandidate_descends rfl rfl (by rintro _ _ m ⟨⟩) (fun _ => hcached) hpacked).2 refined hrefined sum hsum
  exact ⟨packed, refined, hpacked, hrefined, sum, hsum, hdescends⟩

/-- Two vectors and a first codebook that was learned for more of them: its last two rows are the vectors, so the stage loop leaves no
error, and the pass starts from its first two. -/
theorem refineCandidate_grows : ∃ packed refined,
    stageLoop (onePass (some [![0, 0], ![1, 1], ![10, 10], ![11, 11]])) (vectorsOf [![10, 10], ![11, 11]]) [.vq 4, .vq 1] = .ok packed ∧
      refineCandidate (onePass (some [![0, 0], ![1, 1], ![10, 10], ![11, 11]])) (vectorsOf [![10, 10], ![11, 11]]) packed = .ok refined ∧
        ∃ sum ∈ packed.decodedSum, ∃ sum' ∈ refined.decodedSum,
          sqErr [![10, 10], ![11, 11]] sum = 0 ∧ sqErr [![10, 10], ![11, 11]] sum' = 1 := by
  have hrun : sumsAround (onePass (some [![0, 0], ![1, 1], ![10, 10], ![11, 11]])) (vectorsOf [![10, 10], ![11, 11]]) [.vq 4, .vq 1] =
      some (some [![10, 10], ![11, 11]], some [![21 / 2, 21 / 2], ![21 / 2, 21 / 2]]) := by decide +kernel
  obtain ⟨packed, refined, hpacked, hrefined, hsum, hsum'⟩ := sumsAround_eq_some hrun
  exact ⟨packed, refined, hpacked, hrefined, _, hsum, _, hsum', by decide +kernel, by decide +kernel⟩

end Orka
