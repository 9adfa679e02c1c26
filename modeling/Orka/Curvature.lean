import Orka.Lib.Halving
import Orka.Lib.Menu
import Orka.Runtime

/-!
# Reverse water-filling

`quant/curvature.py`: the rate of a spec, the stages map that `waterfill_stages` returns and the bits it costs. The logarithm is a
parameter and the arithmetic is exact; the numbers that stand in the error messages are left out of them.
-/

namespace Orka

open Flat Menu Halving

/-- What `fisher_diagonal` measures of a tensor. -/
structure TensorStats (α : Type) where
  fisher : α
  var : α
  numel : ℕ

/-- `stats`, a dict: a name comes once. -/
structure CurvatureStats (α : Type) where
  entries : List (String × TensorStats α)
  nodup : (entries.map Prod.fst).Nodup

/-- `DEFAULT_SPEC_GRID`. -/
def defaultSpecGrid : List (List ℤ) :=
  [[4096], [256, 256], [1024, 1024], [4096, 4096], [4096, 4096, 256], [4096, 4096, 4096]]

section Waterfill

variable {α : Type} [Field α] [LinearOrder α]

/-- The keyword arguments of `waterfill_stages`. -/
structure WaterfillConfig (α : Type) [Field α] where
  groupSize : ℤ := 8
  specGrid : List (List ℤ) := defaultSpecGrid
  iterations : ℤ := 64
  minSqnrDb : Option α := some 14
  rdSlopeDbPerBit : α := 545 / 100
  rdInterceptDb : α := -1 / 2

variable (log2 : α → α)

/-- `math.log2(int(k))`. -/
def mathLog2 (k : ℤ) : Except PyErr α := if k ≤ 0 then .error (.valueError "math domain error") else .ok (log2 k)

/-- `spec_bits_per_weight(spec, group_size)`. -/
def specBitsPerWeight (spec : List ℤ) (groupSize : ℤ) : Except PyErr α :=
  (spec.mapM (mathLog2 log2)).bind fun bits =>
    if groupSize = 0 then .error .zeroDivisionError else .ok (bits.sum / groupSize)

/-- A spec of the grid with its rate. -/
abbrev Rated (α : Type) := List ℤ × α

variable (cfg : WaterfillConfig α)

/-- `grid`, sorted by the rate. -/
def ratedGrid : Except PyErr (List (Rated α)) :=
  (cfg.specGrid.mapM fun spec => (specBitsPerWeight log2 spec cfg.groupSize).map (spec, ·)).bind fun grid =>
    if grid = [] then .error (.valueError "spec_grid is empty") else .ok (grid.insertionSort fun g h => g.2 ≤ h.2)

/-- `floor_bpw`. -/
def floorBpw (grid : List (Rated α)) (targetBpw : α) : Except PyErr α :=
  match cfg.minSqnrDb with
  | none => .ok 0
  | some minSqnrDb =>
    if cfg.rdSlopeDbPerBit = 0 then .error .zeroDivisionError
    else match grid.filter fun g => (minSqnrDb - cfg.rdInterceptDb) / cfg.rdSlopeDbPerBit ≤ g.2 with
      | [] => .error (.valueError "min_sqnr_db needs more bpw than the richest spec in the grid has")
      | reachable :: _ =>
        if targetBpw < reachable.2 then .error (.valueError "target_bpw is below the floor implied by min_sqnr_db")
        else .ok reachable.2

/-- `score[n]`. -/
def curvatureScore (s : TensorStats α) : α := 1 / 2 * log2 (max (s.fisher * s.var) (1 / 10 ^ 45))

/-- `min(grid, key=lambda kv: abs(kv[1] - want))`. -/
def nearestSpec (grid : List (Rated α)) (want : α) : Rated α :=
  grid.getD (argmin grid.length fun i => |(grid.getD i ([], 0)).2 - want|) ([], 0)

/-- `pick(offset, name)` for the score of the name; `next` raises where no spec reaches the floor. -/
def pick (grid : List (Rated α)) (floor want : α) : Except PyErr (Rated α) :=
  let best := nearestSpec grid want
  if best.2 < floor then
    match grid.find? fun g => floor ≤ g.2 with
    | some g => .ok g
    | none => .error (.runtimeError "StopIteration")
  else .ok best

/-- `mean_bpw(offset)`. -/
def meanBpw (grid : List (Rated α)) (floor : α) (stats : CurvatureStats α) (offset : α) : Except PyErr α :=
  let totalW := (stats.entries.map fun e => e.2.numel).sum
  (stats.entries.mapM fun e => (pick grid floor (curvatureScore log2 e.2 + offset)).map fun g => g.2 * (e.2.numel : α)).bind
    fun bits => if totalW = 0 then .error .zeroDivisionError else .ok (bits.sum / (totalW : α))

/-- The bisection from -128 to 128. -/
def searchOffset (grid : List (Rated α)) (floor : α) (stats : CurvatureStats α) (targetBpw : α) : Except PyErr (α × α) :=
  bisect (fun mid => (meanBpw log2 grid floor stats mid).map fun mean => decide (targetBpw < mean)) cfg.iterations.toNat (-128) 128

/-- `waterfill_stages(stats, target_bpw, ...)`: the stages of each name. -/
def waterfillStages (stats : CurvatureStats α) (targetBpw : α) : Except PyErr (List (String × List ℤ)) :=
  if targetBpw ≤ 0 then .error (.valueError "target_bpw must be positive")
  else (ratedGrid log2 cfg).bind fun grid =>
    if stats.entries = [] then .error (.valueError "stats is empty")
    else (floorBpw cfg grid targetBpw).bind fun floor =>
      (searchOffset log2 cfg grid floor stats targetBpw).bind fun (lo, hi) =>
        stats.entries.mapM fun e => (pick grid floor (curvatureScore log2 e.2 + (lo + hi) / 2)).map fun g => (e.1, g.1)

/-- `stats[n]`, if the name is there. -/
def CurvatureStats.get? (stats : CurvatureStats α) (n : String) : Option (TensorStats α) :=
  (stats.entries.find? fun e => e.1 = n).map Prod.snd

/-- `achieved_bpw(stages_map, stats, group_size)`. -/
def achievedBpw (stagesMap : List (String × List ℤ)) (stats : CurvatureStats α) (groupSize : ℤ) : Except PyErr α :=
  let known := stagesMap.filterMap fun e => (stats.get? e.1).map fun s => (e.2, s.numel)
  let totalW := (known.map Prod.snd).sum
  if totalW = 0 then .ok 0
  else (known.mapM fun e => (specBitsPerWeight log2 e.1 groupSize).map fun bits => bits * (e.2 : α)).map fun bits =>
    bits.sum / (totalW : α)

end Waterfill

end Orka
