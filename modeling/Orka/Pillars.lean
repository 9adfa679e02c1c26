import Orka.Sidecars

/-!
# Pillars

The protection of token rows in `pack_checkpoint` and `_extract_outliers` of `outliers.py`, up to the decoded vectors. A float is its
32-bit pattern. The products of floats and the choice among equal scores are parameters.
-/

namespace Orka

open Flat FloatBits

namespace Bits

/-- The products of floats: of two patterns, and of the fraction with a count, in double precision. -/
structure FloatProducts where
  mul : ℕ → ℕ → ℕ
  scale : ℚ → ℕ → ℚ

/-- The pattern of `1.0`. -/
def one : ℕ := 0x3F800000

/-- The order of `topk` and `argpartition`: what is not a number comes last. -/
def orderKey (s : ℕ) : ℤ := if infinity < magnitude s then 2 ^ 31 else if s < 2 ^ 31 then magnitude s else -(magnitude s : ℤ)

/-- A vocab-width tensor as the packer prepares it: its shape, and `c["vectors"]` flat, with the padding behind the values. -/
structure VocabTensor where
  vocab : ℕ
  hidden : ℕ
  flat : List ℕ
  packed : vocab * hidden ≤ flat.length
  floats : ∀ v ∈ flat, v < 2 ^ 32
  small : vocab * hidden < 2 ^ 63

/-- `c["packed_values"]`. -/
def VocabTensor.packedValues (t : VocabTensor) : ℕ := t.vocab * t.hidden

/-- `p_pos`. -/
def VocabTensor.pillarPositions (t : VocabTensor) (topTokens : List ℕ) : List ℕ :=
  (topTokens.filter fun tid => tid < t.vocab).flatMap fun tid => List.range' (tid * t.hidden) t.hidden

/-- `pillar_values`. -/
def VocabTensor.pillarValues (t : VocabTensor) (topTokens : List ℕ) : List ℕ :=
  fp16StorageRoundtrip ((t.pillarPositions topTokens).map (cell t.flat))

/-- The vectors with the pillars taken out: multiplied with a mask on torch, set to zero on numpy. -/
def VocabTensor.zeroed (ops : FloatProducts) (backend : Backend) (t : VocabTensor) (topTokens : List ℕ) : List ℕ :=
  if (t.pillarPositions topTokens).isEmpty then t.flat
  else match backend with
    | .torch => List.zipWith ops.mul t.flat (scatter (List.replicate t.flat.length one) ((t.pillarPositions topTokens).map fun p => (p, 0)))
    | .numpy => scatter t.flat ((t.pillarPositions topTokens).map fun p => (p, 0))

/-- `_outlier_scores(flat_abs, col_importance, cols)`. -/
def outlierScores (ops : FloatProducts) (flatAbs : List ℕ) (colImportance : Option (List ℕ)) (cols : ℕ) : List ℕ :=
  let squares := flatAbs.map fun v => ops.mul v v
  match colImportance with
  | none => squares
  | some h =>
    if cols = 0 ∨ flatAbs.length % cols ≠ 0 ∨ h.length ≠ cols then squares
    else List.zipWith ops.mul squares (List.replicate (flatAbs.length / cols) h).flatten

/-- `_extract_outliers(vectors, outlier_frac, packed_values, col_importance, cols)`. `topk` gives the positions of the `k` largest. -/
def extractOutliers (ops : FloatProducts) (topk : List ℤ → ℕ → List ℕ) (flat : List ℕ) (outlierFrac : ℚ) (n : ℕ)
    (colImportance : Option (List ℕ)) (cols : ℕ) : Option (List ℕ × List ℕ) × List ℕ :=
  if outlierFrac ≤ 0 ∨ ⌊ops.scale outlierFrac n⌋ ≤ 0 then (none, flat)
  else
    let scores := outlierScores ops ((flat.take n).map magnitude) colImportance cols
    let positions := topk (scores.map orderKey) ⌊ops.scale outlierFrac n⌋.toNat
    (some (positions, positions.map (cell flat)), scatter flat (positions.map fun p => (p, 0)))

/-- What the packer takes of a tensor besides its vectors: the fraction of outliers and the importance of the columns. -/
structure OutlierArgs where
  outlierFrac : ℚ
  colImportance : Option (List ℕ)

/-- `c["outlier_positions"]` and `c["outlier_values"]`. -/
def outlierEntries (ops : FloatProducts) (topk : List ℤ → ℕ → List ℕ) (backend : Backend) (args : OutlierArgs) (t : VocabTensor)
    (topTokens : List ℕ) : Option (List ℕ × List ℕ) :=
  let extracted := (extractOutliers ops topk (t.zeroed ops backend topTokens) args.outlierFrac t.packedValues args.colImportance
    t.hidden).1.map fun (positions, values) => (positions, fp16StorageRoundtrip values)
  if (t.pillarPositions topTokens).isEmpty then extracted
  else match extracted with
    | none => some (t.pillarPositions topTokens, t.pillarValues topTokens)
    | some (positions, values) => some (t.pillarPositions topTokens ++ positions, t.pillarValues topTokens ++ values)

/-- The decoded vectors before un-rotation and scaling, where `stages` is what the stages sum to: the entries are written to the two
sidecars, read back and put in. -/
def decodedVectors (compress : List ℕ → List ℕ) (decompress : List ℕ → Except PyErr (List ℕ)) (entries : Option (List ℕ × List ℕ))
    (stages : List ℕ) : Except PyErr (List ℕ) :=
  match entries with
  | none => .ok stages
  | some (positions, values) =>
    if positions.isEmpty then .ok stages
    else
      (writeOutliers compress positions values .float16).bind fun w =>
        (readOutliers decompress
          (fun path => if path = "outliers.idx" then some w.positions else if path = "outliers.val" then some w.values else none)
          "outliers.idx" "outliers.val" positions.length w.positionsDtype w.valuesDtype).map fun (positions, values) =>
            scatter stages (positions.zip values)

end Bits

end Orka
