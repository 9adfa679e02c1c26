import Orka.Lemmas.Kmeans
import Mathlib.Logic.Relation

/-!
# Lloyd iterations descend

Every iteration of either learner assigns the rows to nearest centroids and moves the centroids of the clusters with weight to their
means, so the weighted error never increases, and the indices that are returned are those of nearest centroids.
-/

namespace Orka

open Flat Steps Clustering

set_option linter.unusedSectionVars false

variable {α : Type} [Field α] [LinearOrder α] [IsStrictOrderedRing α] {d : ℕ}
variable {sqrt : α → α} {vectorWeights : Option (Fin d → α)} {sampleWeights : Option (List α)}
variable {rows codebook codebook' : List (Fin d → α)}

/-! ## One iteration -/

/-- What the sums of `_numpy_centroid_sums` are, and what it has checked. -/
theorem numpyCentroidSums_spec {indices : List ℕ} {k : ℕ} {sums : List (Fin d → α)}
    (h : numpyCentroidSums rows indices k sampleWeights = .ok sums) :
    indices.length = rows.length ∧ (∀ i ∈ indices, i < k) ∧ WeightsFit sampleWeights rows ∧
      ∀ j < k, cell sums j = clusterSum indices (weightedRows sampleWeights rows) j := by
  unfold numpyCentroidSums at h
  split at h
  · cases h
  next hlength =>
  rw [not_not] at hlength
  split at h
  · cases h
  next hrange =>
  have hrange : ∀ i ∈ indices, i < k := by
    intro i hi
    by_contra hk
    exact hrange (List.any_eq_true.2 ⟨i, hi, decide_eq_true (not_lt.1 hk)⟩)
  have hvectors : WeightsFit sampleWeights rows ∧
      sums = tabulate k fun j e => cell (bincountWeights indices ((weightedRows sampleWeights rows).map fun x => x e) k) j := by
    cases sampleWeights with
    | none => exact ⟨nofun, (Except.ok.inj h).symm⟩
    | some sw =>
      simp only at h
      split at h
      · cases h
      · next hfit =>
        refine ⟨fun sw' hsw => ?_, (Except.ok.inj h).symm⟩
        obtain rfl := Option.some.inj hsw
        exact not_not.1 hfit
  obtain ⟨hfit, rfl⟩ := hvectors
  refine ⟨hlength, hrange, hfit, fun j hj => funext fun e => ?_⟩
  rw [cell_tabulate _ hj, cell_bincountWeights (by rw [List.length_map, length_weightedRows hfit, hlength]) hj, clusterSum, clusterSum,
    Finset.sum_apply]
  exact Finset.sum_congr rfl fun i _ => cell_map_zero rfl _ _

/-- An iteration of `_learn_codebook_numpy` descends. -/
theorem lloydNumpy_descends (hsqrt : ∀ w ∈ vectorWeights, ∀ e, sqrt (w e) * sqrt (w e) = w e)
    (hw : NonnegWeights vectorWeights sampleWeights) {k : ℕ}
    (h : lloydNumpy sqrt rows k vectorWeights sampleWeights codebook = .ok codebook') :
    Descends vectorWeights sampleWeights rows codebook codebook' := by
  obtain ⟨⟨indices, mse⟩, hassign, h⟩ := bind_eq_ok.1 h
  obtain ⟨sums, hsums, h⟩ := bind_eq_ok.1 h
  have ha := numpyAssign_nearest hsqrt hassign
  obtain ⟨hlength, hrange, hfit, hsum⟩ := numpyCentroidSums_spec hsums
  have hbound := foldr_succ_max_le hrange
  -- the mask has `k` entries, so the codebook has `k` rows
  have hcount : (numpyCounts (α := α) indices k sampleWeights).length = k := by
    cases sampleWeights with
    | none => rw [numpyCounts, List.length_map, bincount, length_tabulate, max_eq_left hbound]
    | some sw => rw [numpyCounts, bincountWeights, length_tabulate, max_eq_left hbound]
  have hsize : codebook.length = k := by
    unfold divideNonzero at h
    split at h
    · cases h
    · next hmask => rw [← not_not.1 hmask, hcount]
  rw [← hsize] at hsum hcount h
  refine descends_of_divideNonzero hw ha (fun j hj e => ?_) (fun j hj => ?_) h
  · rw [hsum j hj, clusterSum_weightedRows hfit hlength]
  · cases sampleWeights with
    | none =>
      rw [numpyCounts, List.length_map] at hcount
      rw [numpyCounts, cell_map (by rwa [hcount]), cell_bincount hj, Int.cast_natCast, count_eq_mass hlength]
    | some sw => rw [numpyCounts, cell_bincountWeights (by rw [hlength, hfit sw rfl]) hj, clusterSum_weights hlength]

/-- An iteration of `_learn_codebook_torch` descends. -/
theorem lloydTorch_descends (hsqrt : ∀ w ∈ vectorWeights, ∀ e, sqrt (w e) * sqrt (w e) = w e)
    (hw : NonnegWeights vectorWeights sampleWeights) (hfit : WeightsFit sampleWeights rows) {dev : TorchDevice}
    (h : lloydTorch dev sqrt rows vectorWeights sampleWeights codebook = .ok codebook') :
    Descends vectorWeights sampleWeights rows codebook codebook' := by
  obtain ⟨⟨indices, mse⟩, hassign, h⟩ := bind_eq_ok.1 h
  have ha := torchAssign_nearest hsqrt (by norm_num) hassign
  have hlength := ha.1.1
  have hrange : ∀ i ∈ indices, i < codebook.length := by
    intro i hi
    obtain ⟨p, hp, rfl⟩ := List.getElem_of_mem hi
    have := ha.1.2 p (by rwa [← hlength])
    rwa [cell_eq_getElem hp] at this
  simp only at h
  rw [detSegmentSum_ok dev hrange (by rw [length_weightedRows hfit, hlength]), ok_bind] at h
  obtain ⟨counts, hcounts, h⟩ := bind_eq_ok.1 h
  refine descends_of_divideNonzero hw ha (fun j hj e => ?_) (fun j hj => ?_) h
  · rw [cell_tabulate _ hj, clusterSum_weightedRows hfit hlength]
  · cases sampleWeights with
    | none =>
      obtain rfl := Except.ok.inj hcounts
      rw [cell_map (by rwa [length_tabulate]), cell_tabulate _ hj, count_eq_mass hlength]
    | some sw =>
      rw [torchCounts, detSegmentSum_ok dev hrange (by rw [List.length_map, hfit sw rfl, hlength]), ok_map] at hcounts
      obtain rfl := Except.ok.inj hcounts
      rw [cell_map (by rwa [length_tabulate]), cell_tabulate _ hj, ← clusterSum_weights hlength, clusterSum, clusterSum,
        Finset.sum_apply]
      exact Finset.sum_congr rfl fun i _ => congrFun (cell_map_zero (f := fun s (_ : Fin 1) => s) rfl sw i) 0

/-! ## The runs -/

variable {learner : Learner α} {k : ℕ}

/-- An iteration of either learner descends. -/
theorem lloydIteration_descends (hsqrt : ∀ w ∈ vectorWeights, ∀ e, learner.sqrt (w e) * learner.sqrt (w e) = w e)
    (hw : NonnegWeights vectorWeights sampleWeights) (hfit : WeightsFit sampleWeights rows)
    (h : lloydIteration learner rows k vectorWeights sampleWeights codebook = .ok codebook') :
    Descends vectorWeights sampleWeights rows codebook codebook' := by
  unfold lloydIteration at h
  split at h
  · exact lloydTorch_descends hsqrt hw hfit h
  · exact lloydNumpy_descends hsqrt hw h

/-- The codebooks that iterations lead to. -/
def IteratesTo (learner : Learner α) (rows : List (Fin d → α)) (k : ℕ) (vectorWeights : Option (Fin d → α))
    (sampleWeights : Option (List α)) : List (Fin d → α) → List (Fin d → α) → Prop :=
  Relation.ReflTransGen fun codebook codebook' =>
    lloydIteration learner rows k vectorWeights sampleWeights codebook = .ok codebook' ∧
      Descends vectorWeights sampleWeights rows codebook codebook'

/-- A loop of steps that stops early leads where its steps lead. -/
theorem torchLoop_reaches {step : List (Fin d → α) → Except PyErr (List (Fin d → α))} {R : List (Fin d → α) → List (Fin d → α) → Prop}
    (hstep : ∀ c c', step c = .ok c' → R c c') {n i : ℕ} (h : torchLoop step n i codebook = .ok codebook') :
    Relation.ReflTransGen R codebook codebook' := by
  induction n generalizing i codebook with
  | zero =>
    obtain rfl := Except.ok.inj h
    exact .refl
  | succ n ih =>
    obtain ⟨next, hnext, h⟩ := bind_eq_ok.1 h
    split at h
    · obtain rfl := Except.ok.inj h
      exact .single (hstep _ _ hnext)
    · exact .head (hstep _ _ hnext) (ih h)

/-- No assignment of the codebook the iterations start from has less error than a nearest one of a codebook they lead to. -/
theorem IteratesTo.objective_le (hw : NonnegWeights vectorWeights sampleWeights)
    (h : IteratesTo learner rows k vectorWeights sampleWeights codebook codebook') {a a' : List ℕ} (ha : Assigns rows codebook a)
    (ha' : AssignsNearest vectorWeights rows codebook' a') :
    objective rows vectorWeights sampleWeights codebook' a' ≤ objective rows vectorWeights sampleWeights codebook a := by
  induction h using Relation.ReflTransGen.head_induction_on generalizing a with
  | refl => exact objective_le_of_nearest hw ha' ha
  | head hstep _ ih =>
    obtain ⟨b, hb, hupdate, -⟩ := hstep.2.assigned
    calc objective rows vectorWeights sampleWeights codebook' a' ≤ _ :=
          ih ⟨hb.1.1, fun i hi => by rw [hstep.2.length]; exact hb.1.2 i hi⟩
      _ ≤ _ := hupdate
      _ ≤ _ := objective_le_of_nearest hw hb ha

/-- Iterations keep the number of centroids. -/
theorem IteratesTo.length (h : IteratesTo learner rows k vectorWeights sampleWeights codebook codebook') :
    codebook'.length = codebook.length := by
  induction h with
  | refl => rfl
  | tail _ hstep ih => rw [hstep.2.length, ih]

/-- The starting codebook has `k` rows at most. -/
theorem length_startCodebook_le (init : List (Fin d → α) → ℕ → List (Fin d → α)) (rows : List (Fin d → α)) (k : ℕ)
    (initialCodebook : Option (List (Fin d → α))) : (startCodebook init rows k initialCodebook).length ≤ k := by
  unfold startCodebook
  split
  · exact List.length_take_le _ _
  · split
    · next hk => exact hk.ge
    · exact List.length_take_le _ _

/-- What either learner returns: nearest centroids in a codebook that iterations lead to from the one they start with. -/
theorem learnCodebookAuto_iterates {codebookSize iterations : ℤ} {initialCodebook : Option (List (Fin d → α))}
    (hsqrt : ∀ w ∈ vectorWeights, ∀ e, learner.sqrt (w e) * learner.sqrt (w e) = w e)
    (hw : NonnegWeights vectorWeights sampleWeights) {indices : List ℕ} {mse : α}
    (h : learnCodebookAuto learner rows codebookSize iterations initialCodebook vectorWeights sampleWeights =
      .ok (codebook, indices, mse)) :
    AssignsNearest vectorWeights rows codebook indices ∧
      ∃ start, (∀ c ∈ initialCodebook, start = c.take (cappedSize codebookSize rows.length)) ∧
        start.length ≤ cappedSize codebookSize rows.length ∧
          IteratesTo learner rows (cappedSize codebookSize rows.length) vectorWeights sampleWeights start codebook := by
  have hstart (init : List (Fin d → α) → ℕ → List (Fin d → α)) : ∀ c ∈ initialCodebook,
      startCodebook init rows (cappedSize codebookSize rows.length) initialCodebook = c.take (cappedSize codebookSize rows.length) := by
    rintro c hc
    obtain rfl := hc
    rfl
  unfold learnCodebookAuto at h
  split at h
  · next hbackend =>
    unfold learnCodebookTorch at h
    split at h
    · cases h
    split at h
    · cases h
    split at h
    · cases h
    simp only at h
    obtain ⟨found, hfound, h⟩ := bind_eq_ok.1 h
    obtain ⟨⟨idx, err⟩, hassign, h⟩ := map_eq_ok.1 h
    obtain ⟨rfl, rfl, -⟩ : found = codebook ∧ idx = indices ∧ err = mse := by simpa using h
    refine ⟨torchAssign_nearest hsqrt (by norm_num) hassign, ?_⟩
    split at hfound
    · -- the codebook of faiss
      next faissCodebook hfaiss =>
      obtain rfl := Except.ok.inj hfound
      refine ⟨_, fun c hc => ?_, faissCodebook.2.le, .refl⟩
      split at hfaiss
      · next hgate =>
        obtain rfl := hc
        simp at hgate
      · cases hfaiss
    · split at hfound
      · cases hfound
      · next hsw =>
        have hfit : WeightsFit sampleWeights rows := by
          rintro sw hsw'
          obtain rfl := hsw'
          simpa using hsw
        refine ⟨_, hstart _, length_startCodebook_le _ _ _ _, torchLoop_reaches (fun c c' hstep => ?_) hfound⟩
        have hiter : lloydIteration learner rows (cappedSize codebookSize rows.length) vectorWeights sampleWeights c = .ok c' := by
          unfold lloydIteration
          rw [hbackend]
          exact hstep
        exact ⟨hiter, lloydIteration_descends hsqrt hw hfit hiter⟩
  · next hbackend =>
    unfold learnCodebookNumpy at h
    split at h
    · cases h
    split at h
    · cases h
    split at h
    · cases h
    simp only at h
    obtain ⟨found, hfound, h⟩ := bind_eq_ok.1 h
    obtain ⟨⟨idx, err⟩, hassign, h⟩ := map_eq_ok.1 h
    obtain ⟨rfl, rfl, -⟩ : found = codebook ∧ idx = indices ∧ err = mse := by simpa using h
    refine ⟨numpyAssign_nearest hsqrt hassign, _, hstart _, length_startCodebook_le _ _ _ _,
      foldlM_reaches (fun c c' hstep => ?_) hfound⟩
    have hiter : lloydIteration learner rows (cappedSize codebookSize rows.length) vectorWeights sampleWeights c = .ok c' := by
      unfold lloydIteration
      rw [hbackend]
      exact hstep
    exact ⟨hiter, lloydNumpy_descends hsqrt hw hstep⟩

/-- **Learning a codebook.** With either backend, weights that are not negative, and whatever codebook the iterations start from: every
iteration descends, the codebook that is returned is one that iterations lead to, and the indices that are returned are those of
nearest centroids in it. -/
theorem learnCodebookAuto_descends {codebookSize iterations : ℤ} {initialCodebook : Option (List (Fin d → α))}
    (hsqrt : ∀ w ∈ vectorWeights, ∀ e, learner.sqrt (w e) * learner.sqrt (w e) = w e)
    (hw : NonnegWeights vectorWeights sampleWeights) :
    (∀ k c c', WeightsFit sampleWeights rows → lloydIteration learner rows k vectorWeights sampleWeights c = .ok c' →
      Descends vectorWeights sampleWeights rows c c') ∧
    ∀ codebook indices mse,
      learnCodebookAuto learner rows codebookSize iterations initialCodebook vectorWeights sampleWeights = .ok (codebook, indices, mse) →
        AssignsNearest vectorWeights rows codebook indices ∧
          ∃ start, (∀ c ∈ initialCodebook, start = c.take (cappedSize codebookSize rows.length)) ∧
            IteratesTo learner rows (cappedSize codebookSize rows.length) vectorWeights sampleWeights start codebook := by
  refine ⟨fun k c c' hfit => lloydIteration_descends hsqrt hw hfit, fun codebook indices mse h => ?_⟩
  obtain ⟨hnearest, start, hstart, -, hiterates⟩ := learnCodebookAuto_iterates hsqrt hw h
  exact ⟨hnearest, start, hstart, hiterates⟩

/-- A learner on the rationals that knows the roots of 1 and 4. -/
def smallLearner (backend : Backend) : Learner ℚ where
  backend := backend
  device := ⟨true, true, 20000000, 64⟩
  sqrt w := if w = 4 then 2 else w
  init _ rows k := rows.take k
  faiss _ := none

/-- Four rows of two dimensions. -/
def fourRows : List (Fin 2 → ℚ) := [![0, 0], ![1, 0], ![10, 1], ![12, 1]]

/-- Two centroids for them, where the second dimension weighs four times and the last row nothing. -/
theorem learnCodebookAuto_descends_fourRows :
    AssignsNearest (some ![1, 4]) fourRows [![1 / 2, 0], ![10, 1]] [0, 0, 1, 1] ∧
      ∃ start, (∀ c ∈ some [![0, 0], ![1, 0]], start = c.take (cappedSize 2 fourRows.length)) ∧
        IteratesTo (smallLearner .numpy) fourRows (cappedSize 2 fourRows.length) (some ![1, 4]) (some [1, 1, 2, 0]) start
          [![1 / 2, 0], ![10, 1]] := by
  have hsqrt : ∀ w ∈ some (![1, 4] : Fin 2 → ℚ), ∀ e, (smallLearner .numpy).sqrt (w e) * (smallLearner .numpy).sqrt (w e) = w e := by
    intro w hw
    obtain rfl := Option.some.inj hw
    decide +kernel
  have hweights : NonnegWeights (some (![1, 4] : Fin 2 → ℚ)) (some [1, 1, 2, 0]) := by
    constructor
    · intro w hw
      obtain rfl := Option.some.inj hw
      decide +kernel
    · intro sw hsw
      obtain rfl := Option.some.inj hsw
      decide +kernel
  have hrun : learnCodebookAuto (smallLearner .numpy) fourRows 2 2 (some [![0, 0], ![1, 0]]) (some ![1, 4]) (some [1, 1, 2, 0]) =
      .ok ([![1 / 2, 0], ![10, 1]], [0, 0, 1, 1], 9 / 16) :=
    eq_ok_of_toOption (by decide +kernel)
  exact (learnCodebookAuto_descends hsqrt hweights).2 _ _ _ hrun

end Orka
