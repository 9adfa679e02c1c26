import Orka.Allocate
import Orka.Kmeans

/-!
# Residual stages and EM-AQ

The stage loop of `pack_pipeline.py` and `_run_em_aq_refinement` of `refinement.py`, with codebooks that are stored as float32, for
which `_cast_codebook_storage` is the identity. Arithmetic is exact; a giant tensor, which the source handles in blocks of rows, gets
the same values.
-/

namespace Orka

open Flat

variable {α : Type} [Field α] [LinearOrder α] {g w : ℕ}

/-! ## Rows -/

/-- `a + b`. -/
def addRows (a b : List (Fin w → α)) : List (Fin w → α) := List.zipWith (fun x y => x + y) a b

/-- `_vectors_subtract(a, b)`. -/
def vectorsSubtract (a b : List (Fin w → α)) : List (Fin w → α) := List.zipWith (fun x y => x - y) a b

/-- `decoded if sum is None else sum + decoded`. -/
def accumulate (sum : Option (List (Fin w → α))) (decoded : List (Fin w → α)) : List (Fin w → α) :=
  match sum with
  | none => decoded
  | some sum => addRows sum decoded

/-- `cb[idx]`. -/
def gatherRows (cb : List (Fin w → α)) (idx : List ℕ) : Except PyErr (List (Fin w → α)) :=
  if idx.any fun i => cb.length ≤ i then .error .indexError else .ok (idx.map (cell cb))

/-- What a stage quantizes: the vectors, or their elements. -/
inductive StageKind where
  | vector
  | scalar
  deriving DecidableEq, Repr

/-- The group size of a stage. -/
def StageKind.groupSize (g : ℕ) : StageKind → ℕ
  | .vector => g
  | .scalar => 1

/-- `vectors`, or `vectors.reshape(-1, 1)` for a stage of scalars. -/
def stageView (kind : StageKind) (vectors : List (Fin g → α)) : List (Fin (kind.groupSize g) → α) :=
  match kind with
  | .vector => vectors
  | .scalar => (vectors.flatMap List.ofFn).map fun x _ => x

/-- `decoded_raw`, or `decoded_raw.reshape((n, g))` for a stage of scalars. -/
def stageUnview (kind : StageKind) (n : ℕ) (raw : List (Fin (kind.groupSize g) → α)) : Except PyErr (List (Fin g → α)) :=
  match kind, raw with
  | .vector, raw => .ok raw
  | .scalar, raw =>
    if raw.length ≠ n * g then .error (.valueError "cannot reshape array")
    else .ok (tabulate n fun i e => cell raw (i * g + e) (0 : Fin 1))

/-! ## The candidate -/

/-- An entry of `stages_data` with the `codebook_size` of its entry of `stages_meta`. -/
structure StageData (α : Type) (g : ℕ) where
  kind : StageKind
  cb : List (Fin (kind.groupSize g) → α)
  indices : List ℕ
  codebookSize : ℕ

/-- What the candidate holds before the stages. -/
structure EmCandidate (α : Type) (g : ℕ) where
  vectorsOrig : List (Fin g → α)
  vectorWeights : Option (Fin g → α)
  sampleWeights : Option (List α)
  skipped : Bool

/-- What the stages leave in the candidate. -/
structure StagedCandidate (α : Type) (g : ℕ) where
  residual : List (Fin g → α)
  decodedSum : Option (List (Fin g → α))
  stages : List (StageData α g)

/-- The settings of the pack. `linspace n m` stands for the positions of `m` of `n` rows, `stageInit` for the random initialization
under the seed of a stage, and `cached` for the codebook cache: for the first stage of the tensor it holds what an earlier pack has left
under the same key, which says nothing of how many rows the tensor had. -/
structure EmRun (α : Type) where
  learner : Learner α
  stageInit : ℕ → (d : ℕ) → List (Fin d → α) → ℕ → List (Fin d → α)
  cached : (d k : ℕ) → Option (List (Fin d → α))
  linspace : ℕ → ℕ → List ℕ
  sampleVectors : Option ℤ
  iterations : ℤ
  emAqPasses : ℤ

/-- `_sample_vectors_and_weights(vectors, weights, sample_vectors)`. -/
def sampleVectorsAndWeights (run : EmRun α) (vectors : List (Fin w → α)) (weights : Option (List α)) :
    List (Fin w → α) × Option (List α) :=
  match run.sampleVectors with
  | none => (vectors, weights)
  | some m =>
    if m ≤ 0 ∨ (vectors.length : ℤ) ≤ m then (vectors, weights)
    else
      let positions := run.linspace vectors.length m.toNat
      (positions.map (cell vectors), weights.map fun sw => positions.map (cell sw))

/-- `_is_giant_matrix(n_rows, width)`. -/
def isGiantMatrix (dev : TorchDevice) (nRows width : ℕ) : Bool := dev.largeAssignRows * 8 < nRows * width

/-- `_decode_to_vectors_format(...)`, in the shape of the vectors. -/
def decodeStage (n : ℕ) (sd : StageData α g) : Except PyErr (List (Fin g → α)) :=
  (gatherRows sd.cb sd.indices).bind (stageUnview sd.kind n)

/-! ## The stage loop -/

/-- The kind of a stage of the spec and the size of its codebook. -/
def stageSize : SpecStage → StageKind × ℕ
  | .vq k => (.vector, k)
  | .scalar bits => (.scalar, 2 ^ bits)

/-- The weights of a stage in `_quantize_and_record_stage`: a stage of scalars has none. -/
def greedyWeights (c : EmCandidate α g) (kind : StageKind) : Option (Fin (kind.groupSize g) → α) × Option (List α) :=
  match kind with
  | .vector => (c.vectorWeights, c.sampleWeights)
  | .scalar => (none, none)

/-- The codebook of stage `stageI` in per-tensor mode: the first may be cached. -/
def stageCodebook (run : EmRun α) (c : EmCandidate α g) (stageI : ℕ) (kind : StageKind) (k : ℕ)
    (vRes : List (Fin (kind.groupSize g) → α)) : Except PyErr (List (Fin (kind.groupSize g) → α)) :=
  match if stageI = 0 then run.cached (kind.groupSize g) k else none with
  | some cb => .ok cb
  | none =>
    let (training, swTrain) := sampleVectorsAndWeights run vRes (greedyWeights c kind).2
    (learnCodebookAuto { run.learner with init := run.stageInit stageI } training (min k training.length : ℕ) run.iterations none
      (greedyWeights c kind).1 swTrain).map Prod.fst

/-- `_quantize_and_record_stage(ctx, c, stage_i, k_spec, ...)`. -/
def quantizeAndRecordStage (run : EmRun α) (c : EmCandidate α g) (st : StagedCandidate α g) (stageI : ℕ) (spec : SpecStage) :
    Except PyErr (StagedCandidate α g) :=
  let kind := (stageSize spec).1
  let vRes := stageView kind st.residual
  (stageCodebook run c stageI kind (stageSize spec).2 vRes).bind fun cb =>
    (quantizeVectorsAuto run.learner vRes cb (greedyWeights c kind).1 false).bind fun (indices, _) =>
      let sd : StageData α g := ⟨kind, cb, indices, cb.length⟩
      (decodeStage st.residual.length sd).map fun decoded =>
        let decodedSum := accumulate st.decodedSum decoded
        ⟨vectorsSubtract c.vectorsOrig decodedSum, some decodedSum, st.stages ++ [sd]⟩

/-- The stage loop of `process_streamed_per_tensor_candidate` over the stages of the candidate. -/
def stageLoop (run : EmRun α) (c : EmCandidate α g) (specs : List SpecStage) : Except PyErr (StagedCandidate α g) :=
  specs.zipIdx.foldlM (fun st spec => quantizeAndRecordStage run c st spec.2 spec.1) ⟨c.vectorsOrig, none, []⟩

/-! ## EM-AQ -/

/-- The stages and the running sum. -/
structure EmState (α : Type) (g : ℕ) where
  stages : List (StageData α g)
  fullSum : List (Fin g → α)

/-- `full_sum`, which is `None` without a stage. -/
def decodeFullSum (n : ℕ) (stages : List (StageData α g)) : Except PyErr (Option (List (Fin g → α))) :=
  stages.foldlM (fun fullSum sd => (decodeStage n sd).map fun dec => some (accumulate fullSum dec)) none

/-- The weights of a stage in `_run_em_aq_refinement`: a stage of group size 1 has none. -/
def emWeights (c : EmCandidate α g) (kind : StageKind) : Option (Fin (kind.groupSize g) → α) × Option (List α) :=
  match kind with
  | .vector => if 1 < g then (c.vectorWeights, c.sampleWeights) else (none, none)
  | .scalar => (none, none)

/-- The body of the loop over the stages: the stage is learned again against what the others leave. -/
def refineStage (run : EmRun α) (c : EmCandidate α g) (st : EmState α g) (stageI : ℕ) : Except PyErr (EmState α g) :=
  match st.stages[stageI]? with
  | none => .error .indexError
  | some sd =>
    if run.sampleVectors.any fun m => m ≤ (sd.codebookSize : ℤ) then .ok st
    else
      (decodeStage c.vectorsOrig.length sd).bind fun oldDec =>
        let target := vectorsSubtract c.vectorsOrig (vectorsSubtract st.fullSum oldDec)
        let targetTrain := stageView sd.kind target
        let (training, swTrain) := sampleVectorsAndWeights run targetTrain (emWeights c sd.kind).2
        (learnCodebookAuto run.learner training (min sd.codebookSize training.length : ℕ) 2 (some sd.cb) (emWeights c sd.kind).1
          swTrain).bind fun (cb, _, _) =>
          (quantizeVectorsAuto run.learner targetTrain cb (emWeights c sd.kind).1 false).bind fun (indices, _) =>
            let refined : StageData α g := ⟨sd.kind, cb, indices, sd.codebookSize⟩
            (decodeStage c.vectorsOrig.length refined).map fun newDec =>
              ⟨st.stages.set stageI refined, addRows (vectorsSubtract st.fullSum oldDec) newDec⟩

/-- The stages of the loops over `joint_iterations` and `c_n_stages`, in order. -/
def jointSteps (run : EmRun α) (nStages : ℕ) : List ℕ :=
  (List.range (max 0 run.emAqPasses).toNat).flatMap fun _ => List.range nStages

/-- What `_run_em_aq_refinement` leaves in a candidate. -/
def refineCandidate (run : EmRun α) (c : EmCandidate α g) (st : StagedCandidate α g) : Except PyErr (StagedCandidate α g) :=
  if c.skipped then .ok st
  else if run.learner.backend = .torch ∧ isGiantMatrix run.learner.device c.vectorsOrig.length g = true then .ok st
  else
    (decodeFullSum c.vectorsOrig.length st.stages).bind fun
      | none => .ok { st with decodedSum := none }
      | some fullSum =>
        let refined : Except PyErr (EmState α g) := if 0 < run.emAqPasses ∧ 1 < st.stages.length then
            (jointSteps run st.stages.length).foldlM (refineStage run c) ⟨st.stages, fullSum⟩
          else .ok ⟨st.stages, fullSum⟩
        refined.map fun refined => { st with decodedSum := some refined.fullSum, stages := refined.stages }

/-- `_run_em_aq_refinement(candidates, ...)`. -/
def runEmAqRefinement (run : EmRun α) (candidates : List (EmCandidate α g × StagedCandidate α g)) :
    Except PyErr (List (StagedCandidate α g)) := candidates.mapM fun c => refineCandidate run c.1 c.2

end Orka
