import Orka.Kmeans
import Orka.Lib.Journal
import Orka.Lib.Claiming

/-!
# Semantic hubs

`find_semantic_hubs`, the summary of `orka sem-analyze` and the concept map of `orka sem-map` in `semantic.py`, with exact
arithmetic. The square root is a parameter.
-/

namespace Orka

open Flat

section Semantic

variable {α : Type} [Field α] [LinearOrder α] {d : ℕ}

/-- A row of `normalize(t_emb, p=2, dim=1)`. -/
def normalizeRow (sqrt : α → α) (v : Fin d → α) : Fin d → α := fun e => v e / max (sqrt (rowDot v v)) (1 / 10 ^ 12)

/-- What `find_semantic_hubs` records of a hub. -/
structure SemanticHub (α : Type) where
  masterTid : ℕ
  memberCount : ℕ
  memberTids : List ℕ
  avgSimilarity : α
  deriving DecidableEq, Repr

/-- `hubs` and `processed`. -/
structure HubScan (α : Type) where
  hubs : List (SemanticHub α)
  processed : List Bool

/-- `scan_ranges`: the first 2500 tokens and the last 2500. -/
def scanRanges (n : ℕ) : List (List ℕ) := [List.range (min 2500 n), List.range' (n - 2500) (n - (n - 2500))]

/-- `torch.where(sims > threshold)[0]`. -/
def matchesOf (threshold : α) (sims : List α) : List ℕ := (List.range sims.length).filter fun j => threshold < cell sims j

/-- The hub of a token. -/
def hubOf (threshold : α) (i : ℕ) (sims : List α) : SemanticHub α :=
  let tids := matchesOf threshold sims
  ⟨i, tids.length, tids, (tids.map (cell sims)).sum / (tids.length : α)⟩

/-- The scan of the token `i`, with its row of the tile. -/
def scanToken (threshold : α) (state : HubScan α) (row : ℕ × List α) : HubScan α :=
  if state.processed.getD row.1 false then state
  else if 1 < (matchesOf threshold row.2).length then
    { hubs := state.hubs ++ [hubOf threshold row.1 row.2]
      processed := (matchesOf threshold row.2).foldl (fun processed j => processed.set j true) state.processed }
  else state

/-- The similarities of a token to every other: a row of `t_emb[block] @ t_emb.T`. -/
def simsOf (tEmb : List (Fin d → α)) (i : ℕ) : List α := tEmb.map fun other => rowDot (cell tEmb i) other

/-- The scan of a block, whose tile is computed before. -/
def scanBlock (tEmb : List (Fin d → α)) (threshold : α) (state : HubScan α) (block : List ℕ) : HubScan α :=
  (block.zip (block.map (simsOf tEmb))).foldl (scanToken threshold) state

/-- `find_semantic_hubs(embeddings, threshold)` with `ORKA_SEMANTIC_HUB_CHUNK` at `chunk`. -/
def findSemanticHubs (sqrt : α → α) (chunk : ℕ) (embeddings : List (Fin d → α)) (threshold : α) : List (SemanticHub α) :=
  let tEmb := embeddings.map (normalizeRow sqrt)
  let scanned := (scanRanges tEmb.length).foldl (fun state idx => (chunked chunk idx).foldl (scanBlock tEmb threshold) state)
    ⟨[], List.replicate tEmb.length false⟩
  scanned.hubs.mergeSort fun a b => b.memberCount ≤ a.memberCount

/-! ## The concept map -/

/-- The vocabulary, the hubs and their summary in an analysis. -/
structure SemAnalysis (α : Type) where
  vocabSize : ℕ
  semanticHubs : List (SemanticHub α)
  totalHubs : ℕ
  redundantTokens : ℕ

/-- The analysis `cmd_sem_analyze` saves. -/
def semAnalyze (sqrt : α → α) (chunk : ℕ) (embeddings : List (Fin d → α)) (threshold : α) : SemAnalysis α :=
  let hubs := findSemanticHubs sqrt chunk embeddings threshold
  ⟨embeddings.length, hubs, hubs.length, (hubs.map fun h => h.memberCount - 1).sum⟩

/-- An entry of `link_table`. -/
structure ConceptLink (α : Type) where
  parent : ℕ
  kind : String
  confidence : α
  deriving DecidableEq, Repr

/-- The links a hub writes. -/
def linksOf (hub : SemanticHub α) : List (String × ConceptLink α) :=
  (hub.memberTids.filter fun member => member ≠ hub.masterTid).map fun member =>
    (toString member, ⟨hub.masterTid, "geometric_synonym", hub.avgSimilarity⟩)

/-- The map `cmd_sem_map` saves; its links are what was written to `link_table`. -/
structure ConceptMap (α : Type) where
  vocabSize : ℕ
  masterConceptCount : ℤ
  links : List (String × ConceptLink α)

/-- `cmd_sem_map` on a saved analysis. -/
def semMap (analysis : SemAnalysis α) : ConceptMap α :=
  let links := analysis.semanticHubs.flatMap linksOf
  ⟨analysis.vocabSize, analysis.vocabSize - (Journal.keys links).length, links⟩

end Semantic

end Orka
