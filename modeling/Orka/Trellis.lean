import Orka.Lib.Viterbi
import Orka.Runtime

/-!
# Trellis-coded quantization

`quant/trellis.py`: the levels, the search for the best path of each row and the reconstruction. The standard deviation of a tensor
is a parameter and the arithmetic is exact; a tensor is the list of its rows, which the source searches side by side.
-/

namespace Orka

open Flat Menu Viterbi

/-- `_SUBSET`. -/
def trellisSubset : List (List ℕ) := [[0, 2], [1, 3], [2, 0], [3, 1]]

/-- `_NEXT`. -/
def trellisNext : List (List ℕ) := [[0, 1], [2, 3], [1, 0], [3, 2]]

def subsetOf (s b : ℕ) : ℕ := cell (trellisSubset.getD s []) b

def nextOf (s b : ℕ) : ℕ := cell (trellisNext.getD s []) b

/-- The branches in the order of the two loops, `for s in range(4)` and `for b in range(2)`. -/
def trellisBranches : List Branch := (List.range 4).flatMap fun s => (List.range 2).map fun b => ⟨s, nextOf s b, subsetOf s b⟩

section Tcq

variable {α : Type} [Field α] [LinearOrder α]

/-- `_INF`. -/
def trellisInf : α := 10 ^ 30

/-- What `_levels` returns. -/
structure TcqLevels (α : Type) where
  levels : List α
  subset : List ℕ
  sigma : α

/-- `_levels(W, R)`, a uniform grid over four standard deviations on both sides. -/
def tcqLevels (std : List (List α) → α) (W : List (List α)) (R : ℤ) : Except PyErr (TcqLevels α) :=
  let sig := max (std W) (1 / 10 ^ 12)
  let lim := 4 * sig
  if R + 1 < 0 then .error (.valueError "negative shift count")
  else
    let nlev : ℕ := 2 ^ (R + 1).toNat
    let step := 2 * lim / ((nlev : α) - 1)
    .ok ⟨tabulate nlev fun i => (i : α) * step - lim, tabulate nlev fun i => i % 4, sig⟩

/-- `members = (subset == s).nonzero()`. -/
def subsetMembers (subset : List ℕ) (s : ℕ) : List ℕ := (List.range subset.length).filter fun i => cell subset i = s

/-- `sidx[s]` at a weight: the member of the subset whose level is nearest. -/
def nearestMember (levels : List α) (members : List ℕ) (w : α) : ℕ :=
  cell members (argmin members.length fun k => (w - cell levels (cell members k)) ^ 2)

/-- `sc[s]` at a weight: the squared distance to that level. -/
def memberCost (levels : List α) (members : List ℕ) (w : α) : α := (w - cell levels (nearestMember levels members w)) ^ 2

/-- The level indices of a row. -/
def encodeTrellisRow (lv : TcqLevels α) (row : List α) : List ℕ :=
  List.zipWith (fun ss w => nearestMember lv.levels (subsetMembers lv.subset ss) w)
    (search 4 trellisBranches trellisInf (row.map fun w ss => memberCost lv.levels (subsetMembers lv.subset ss) w)) row

/-- `tcq_encode(W, R)`; `dist.min(0)` has nothing to choose from where a subset is empty. -/
def tcqEncode (std : List (List α) → α) (W : List (List α)) (R : ℤ) : Except PyErr (List (List ℕ) × List α × α) :=
  (tcqLevels std W R).bind fun lv =>
    if [] ∈ (List.range 4).map (subsetMembers lv.subset) then .error .indexError
    else .ok (W.map (encodeTrellisRow lv), lv.levels, lv.sigma)

/-- `tcq_decode(level_idx, levels)`, a row of it. -/
def tcqDecode (levels : List α) (levelIdx : List ℕ) : List α := levelIdx.map (cell levels)

end Tcq

end Orka
