import Orka.Lib.Menu
import Orka.Format

/-!
# The bit allocation

`quant/allocate.py`: what the candidate specs cost, and the solver that gives each tensor one of them within a budget. The
probe that measures a tensor's distortion under a spec is a function of the tensor; the arithmetic is exact.
-/

namespace Orka

open Flat Menu

/-! ## Specs -/

/-- A stage of a parsed spec: a codebook of `k` entries, or `s<bits>`. -/
inductive SpecStage where
  | vq (k : ℕ)
  | scalar (bits : ℕ)
  deriving DecidableEq, Repr

/-- A candidate spec with what `parse_quant_spec` reads from it. -/
structure Spec where
  name : String
  stages : List SpecStage
  deriving DecidableEq, Repr

/-- `_spec_bits_per_vector`. -/
def specBitsPerVector (stages : List SpecStage) (groupSize : ℕ) : ℕ :=
  (stages.map fun
    | .scalar bits => bits * groupSize
    | .vq k => indexBitsForSize k).sum

/-- `_spec_codebook_bytes`. -/
def specCodebookBytes (stages : List SpecStage) (groupSize dtypeBytes : ℕ) : ℕ :=
  (stages.map fun
    | .scalar _ => 0
    | .vq k => k * groupSize * dtypeBytes).sum

/-- `PLANAR_CANDIDATE_SPECS`. -/
def planarCandidateSpecs : List Spec :=
  [⟨"rvq-s8", [.scalar 8]⟩, ⟨"rvq-s8-s8", [.scalar 8, .scalar 8]⟩, ⟨"rvq-s8-s8-s8", [.scalar 8, .scalar 8, .scalar 8]⟩]

/-- `tuple(dict.fromkeys(specs))`: the first of the specs of each name. -/
def fromKeys (specs : List Spec) : List Spec :=
  specs.foldl (fun acc s => if acc.any (fun s' => s'.name = s.name) then acc else acc ++ [s]) []

/-- `specs` of `build_allocation`: the menu in the order of the index bits. -/
def sortedSpecs (candidateSpecs : List Spec) (groupSize : ℕ) (sizeAware : Bool) : List Spec :=
  (if sizeAware then fromKeys (candidateSpecs ++ planarCandidateSpecs) else candidateSpecs).insertionSort
    fun a b => specBitsPerVector a.stages groupSize ≤ specBitsPerVector b.stages groupSize

/-! ## The solver -/

section Solver

variable {α : Type} [Field α] [LinearOrder α]

/-- A candidate tensor of the source with the distortion the probe measures under a list of stages, in the units of the
tensor's total squared error. -/
structure Probed (α : Type) where
  name : String
  numel : ℕ
  distortion : List SpecStage → α

/-- The rows of the solver: `_bits` as the cost and the measured distortion as the loss. -/
def allocationProblem (rows : List (Probed α)) (specs : List Spec) (groupSize dtypeBytes : ℕ) (sizeAware : Bool) :
    Problem α where
  size := rows.length
  options := specs.length
  cost t s :=
    ((rows[t]?.elim 0 Probed.numel : ℕ) : α) * ((specs[s]?.elim 0 fun spec => specBitsPerVector spec.stages groupSize : ℕ) : α)
        / (groupSize : α) +
      if sizeAware then ((specs[s]?.elim 0 fun spec => specCodebookBytes spec.stages groupSize dtypeBytes : ℕ) : α) * 8 else 0
  loss t s := rows[t]?.elim 0 fun row => specs[s]?.elim 0 fun spec => row.distortion spec.stages

/-- An entry of the heap, `(-(gain / extra), t, nxt, extra)`. -/
structure Upgrade (α : Type) where
  key : α
  t : ℕ
  nxt : ℕ
  extra : α

/-- `step(t, cur)` of `_greedy_fill`. -/
def upgradeStep (p : Problem α) (t cur : ℕ) : Option (Upgrade α) :=
  let nxt := cur + 1
  if p.options ≤ nxt then none
  else
    let extra := p.cost t nxt - p.cost t cur
    let gain := p.loss t cur - p.loss t nxt
    if gain ≤ 0 ∨ extra ≤ 0 then none else some ⟨-(gain / extra), t, nxt, extra⟩

/-- The order of the tuples in the heap, as far as it decides: no two entries share a tensor. -/
def Upgrade.before (u v : Upgrade α) : Bool := u.key < v.key || u.key = v.key && u.t < v.t

/-- `heapq.heappop`: the least entry and the others. -/
def heapPop : List (Upgrade α) → Option (Upgrade α × List (Upgrade α))
  | [] => none
  | u :: heap =>
    match heapPop heap with
    | none => some (u, [])
    | some (v, rest) => if v.before u then some (v, u :: rest) else some (u, v :: rest)

/-- The variables of `_greedy_fill`. -/
structure Filling (α : Type) where
  choice : List ℕ
  spent : α
  heap : List (Upgrade α)

/-- One round of `while heap`. -/
def fillStep (p : Problem α) (budgetBits : α) (st : Filling α) : Filling α :=
  match heapPop st.heap with
  | none => st
  | some (u, rest) =>
    if budgetBits < st.spent + u.extra then { st with heap := rest }
    else ⟨st.choice.set u.t u.nxt, st.spent + u.extra, rest ++ (upgradeStep p u.t u.nxt).toList⟩

/-- The heap and the variables `_greedy_fill` starts with. -/
def fillStart (p : Problem α) (choice : List ℕ) (spent : α) : Filling α :=
  ⟨choice, spent, (List.range p.size).filterMap fun t => upgradeStep p t (cell choice t)⟩

/-- `_greedy_fill(choice, spent)`. Every round takes an entry off the heap or moves a tensor up the menu, so there are at most
`p.size * p.options` of them. -/
def greedyFill (p : Problem α) (budgetBits : α) (choice : List ℕ) (spent : α) : List ℕ :=
  ((fillStep p budgetBits)^[p.size * p.options] (fillStart p choice spent)).choice

/-- The variables of the bisection: `lo`, `hi` and `best_l`. -/
structure Bisection (α : Type) where
  lo : α
  hi : α
  bestL : List ℕ

/-- One round of the bisection. -/
def bisectStep (p : Problem α) (budgetBits : α) (st : Bisection α) : Bisection α :=
  let mid := (st.lo + st.hi) / 2
  let ch := p.bestAt mid
  if p.total p.cost ch ≤ budgetBits then { st with hi := mid, bestL := ch } else { st with lo := mid }

/-- The multiplier the bisection starts from, `1e25`. -/
def topMultiplier : α := 10 ^ 25

/-- `best_l` after the bisection. -/
def lagrangian (p : Problem α) (budgetBits : α) : Bisection α :=
  (bisectStep p budgetBits)^[100] ⟨0, topMultiplier, p.bestAt topMultiplier⟩

/-- `choice`: the better of the greedy and the Lagrangian candidate. -/
def solve (p : Problem α) (budgetBits : α) : List ℕ :=
  let zeros := List.replicate p.size 0
  let candGreedy := greedyFill p budgetBits zeros (p.total p.cost zeros)
  let bestL := (lagrangian p budgetBits).bestL
  let candLagr := greedyFill p budgetBits bestL (p.total p.cost bestL)
  if p.total p.loss candGreedy ≤ p.total p.loss candLagr then candGreedy else candLagr

/-! ## The allocation -/

/-- What the allocation records of a tensor. -/
structure AllocationEntry (α : Type) where
  name : String
  spec : String
  stages : List SpecStage
  bitsPerWeight : α
  estimatedSse : α

/-- The allocation. -/
structure Allocation (α : Type) where
  groupSize : ℕ
  targetBpw : α
  achievedBpw : α
  totalParams : ℕ
  candidateSpecs : List String
  tensors : List (AllocationEntry α)

/-- `build_allocation` of the tensors of a source. -/
def buildAllocation (rows : List (Probed α)) (targetBpw : α) (candidateSpecs : List Spec) (groupSize codebookDtypeBytes : ℕ)
    (sizeAware : Bool) : Except PyErr (Allocation α) :=
  let specs := sortedSpecs candidateSpecs groupSize sizeAware
  if (specs.map fun s => specBitsPerVector s.stages groupSize).dedup.length < 2 then
    .error (.valueError "need at least two candidate specs with distinct rates")
  else if rows = [] then .error (.runtimeError "no quantizable tensors found for allocation")
  else if groupSize = 0 then .error .zeroDivisionError
  else
    let totalParams := (rows.map Probed.numel).sum
    let p := allocationProblem rows specs groupSize codebookDtypeBytes sizeAware
    let choice := solve p (targetBpw * (totalParams : α))
    if totalParams = 0 then .error .zeroDivisionError
    else .ok {
      groupSize := groupSize
      targetBpw := targetBpw
      achievedBpw := p.total p.cost choice / (totalParams : α)
      totalParams := totalParams
      candidateSpecs := specs.map Spec.name
      tensors := (rows.zip choice).filterMap fun rc => specs[rc.2]?.map fun spec =>
        ⟨rc.1.name, spec.name, spec.stages, ((specBitsPerVector spec.stages groupSize : ℕ) : α) / (groupSize : α),
          rc.1.distortion spec.stages⟩ }

end Solver

end Orka
