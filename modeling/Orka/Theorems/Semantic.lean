import Orka.Semantic
import Orka.Lemmas.Kmeans

/-!
# Hubs and the concept map

A scan of the tokens makes masters as the claiming of `Orka.Lib.Claiming` does, whatever the chunk. A token that one hub has claimed
is still a member of a later hub it is similar to, so hubs are disjoint only when the similar tokens fall apart into neighbourhoods.
-/

namespace Orka

open Flat Claiming

section Semantic

variable {α : Type} [Field α] [LinearOrder α] {d : ℕ}

/-- The tokens whose similarity to `i` is above the threshold. -/
def similarTo (sqrt : α → α) (embeddings : List (Fin d → α)) (threshold : α) (i : ℕ) : List ℕ :=
  matchesOf threshold (simsOf (embeddings.map (normalizeRow sqrt)) i)

/-- The tokens in the order they are scanned. -/
def scanOrder (n : ℕ) : List ℕ := (scanRanges n).flatten

/-- The scan goes up. -/
theorem ascending_scanOrder (n : ℕ) : Ascending (scanOrder n) := by
  have h : scanOrder n = List.range (min 2500 n) ++ List.range' (n - 2500) (n - (n - 2500)) := by
    simp [scanOrder, scanRanges]
  rw [h]
  refine Ascending.append List.pairwise_lt_range List.pairwise_lt_range' fun m _ i hi hlt => ?_
  rw [List.mem_range] at hi ⊢
  exact hlt.trans hi

theorem nodup_matchesOf (threshold : α) (sims : List α) : (matchesOf threshold sims).Nodup := List.nodup_range.filter _

theorem lt_of_mem_matchesOf {threshold : α} {sims : List α} {j : ℕ} (h : j ∈ matchesOf threshold sims) : j < sims.length :=
  List.mem_range.1 (List.mem_of_mem_filter h)

omit [LinearOrder α] in
theorem length_simsOf (tEmb : List (Fin d → α)) (i : ℕ) : (simsOf tEmb i).length = tEmb.length := List.length_map _

/-! ## The scan -/

theorem length_foldl_set (tids : List ℕ) (processed : List Bool) :
    (tids.foldl (fun processed j => processed.set j true) processed).length = processed.length := by
  induction tids generalizing processed with
  | nil => rfl
  | cons t tids ih => rw [List.foldl_cons, ih, List.length_set]

/-- After marking, a token is marked when it was or is among those marked. -/
theorem getD_foldl_set (tids : List ℕ) (processed : List Bool) (h : ∀ t ∈ tids, t < processed.length) (j : ℕ) :
    (tids.foldl (fun processed j => processed.set j true) processed).getD j false = true ↔
      j ∈ tids ∨ processed.getD j false = true := by
  induction tids generalizing processed with
  | nil => simp
  | cons t tids ih =>
    have ht := h t List.mem_cons_self
    rw [List.foldl_cons, ih _ (by simpa using fun u hu => h u (List.mem_cons_of_mem _ hu)), List.mem_cons]
    by_cases hj : j = t
    · subst hj
      simp [List.getD_eq_getElem?_getD, ht]
    · simp [List.getD_eq_getElem?_getD, List.getElem?_set_ne (Ne.symm hj), hj]

/-- A state of the scan that has made the masters `ms`. -/
structure Scanned (tEmb : List (Fin d → α)) (threshold : α) (ms : List ℕ) (state : HubScan α) : Prop where
  hubs : state.hubs = ms.map fun m => hubOf threshold m (simsOf tEmb m)
  length : state.processed.length = tEmb.length
  processed : ∀ j, state.processed.getD j false = true ↔ Claimed (fun m => matchesOf threshold (simsOf tEmb m)) ms j

variable {tEmb : List (Fin d → α)} {threshold : α}

/-- Before the scan there is no hub. -/
theorem scanned_start : Scanned tEmb threshold [] ⟨[], List.replicate tEmb.length false⟩ where
  hubs := rfl
  length := List.length_replicate
  processed := fun j => by simp [Claimed, List.getD_eq_getElem?_getD, List.getElem?_replicate]; split <;> simp

/-- The scan of a token visits it. -/
theorem Scanned.scanToken {ms : List ℕ} {state : HubScan α} (h : Scanned tEmb threshold ms state) (i : ℕ) :
    Scanned tEmb threshold (visit (fun m => matchesOf threshold (simsOf tEmb m)) ms i)
      (scanToken threshold state (i, simsOf tEmb i)) := by
  unfold Orka.scanToken visit
  by_cases hp : state.processed.getD i false = true
  · rw [if_pos hp, if_neg fun hn => hn.1 ((h.processed i).1 hp)]
    exact h
  · rw [if_neg hp]
    by_cases hlarge : 1 < (matchesOf threshold (simsOf tEmb i)).length
    · rw [if_pos hlarge, if_pos ⟨mt (h.processed i).2 hp, hlarge⟩]
      have hlt : ∀ t ∈ matchesOf threshold (simsOf tEmb i), t < state.processed.length := fun t ht => by
        rw [h.length, ← length_simsOf tEmb i]
        exact lt_of_mem_matchesOf ht
      refine ⟨by simp [h.hubs], ?_, fun j => ?_⟩
      · exact (length_foldl_set _ _).trans h.length
      · rw [getD_foldl_set _ _ hlt, h.processed]
        simp [Claimed, or_comm, or_and_right, exists_or]
    · rw [if_neg hlarge, if_neg fun hn => hlarge hn.2]
      exact h

/-- A block is scanned token by token. -/
theorem scanBlock_eq (state : HubScan α) (block : List ℕ) :
    scanBlock tEmb threshold state block = block.foldl (fun state i => scanToken threshold state (i, simsOf tEmb i)) state := by
  have hzip : block.zip (block.map (simsOf tEmb)) = block.map fun i => (i, simsOf tEmb i) := by
    induction block with
    | nil => rfl
    | cons i block ih => rw [List.map_cons, List.zip_cons_cons, ih, List.map_cons]
  rw [scanBlock, hzip, List.foldl_map]

/-- **The scan**: the hubs are those of the masters, whatever the blocks. -/
theorem findSemanticHubs_eq (sqrt : α → α) {chunk : ℕ} (hchunk : 0 < chunk) (embeddings : List (Fin d → α)) (threshold : α) :
    findSemanticHubs sqrt chunk embeddings threshold =
      ((masters (similarTo sqrt embeddings threshold) (scanOrder embeddings.length)).map fun m =>
        hubOf threshold m (simsOf (embeddings.map (normalizeRow sqrt)) m)).mergeSort fun a b => b.memberCount ≤ a.memberCount := by
  have hrange (state : HubScan α) (idx : List ℕ) :
      (chunked chunk idx).foldl (scanBlock (embeddings.map (normalizeRow sqrt)) threshold) state =
        idx.foldl (fun state i => scanToken threshold state (i, simsOf (embeddings.map (normalizeRow sqrt)) i)) state := by
    conv_rhs => rw [← flatten_chunked hchunk idx, List.foldl_flatten]
    exact List.foldl_ext _ _ _ fun state block _ => scanBlock_eq state block
  have hscan (order ms : List ℕ) (state : HubScan α) (h : Scanned (embeddings.map (normalizeRow sqrt)) threshold ms state) :
      Scanned (embeddings.map (normalizeRow sqrt)) threshold (order.foldl (visit (similarTo sqrt embeddings threshold)) ms)
        (order.foldl (fun state i => scanToken threshold state (i, simsOf (embeddings.map (normalizeRow sqrt)) i)) state) := by
    induction order generalizing ms state with
    | nil => exact h
    | cons i order ih => exact ih _ _ (h.scanToken i)
  unfold findSemanticHubs
  simp only [hrange, ← List.foldl_flatten, List.length_map]
  rw [(hscan _ [] _ (embeddings.length_map (normalizeRow sqrt) ▸ scanned_start)).hubs]
  rfl

/-! ## The hubs and their links -/

/-- What is to hold of the hubs of a matrix and of the concept map of its analysis. -/
structure HubsConsistent (sqrt : α → α) (chunk : ℕ) (embeddings : List (Fin d → α)) (threshold : α) : Prop where
  disjoint : (findSemanticHubs sqrt chunk embeddings threshold).Pairwise fun a b => List.Disjoint a.memberTids b.memberTids
  anyChunk : ∀ other, 0 < other →
    findSemanticHubs sqrt other embeddings threshold = findSemanticHubs sqrt chunk embeddings threshold
  linked : ∀ hub ∈ findSemanticHubs sqrt chunk embeddings threshold, ∀ member ∈ hub.memberTids, member ≠ hub.masterTid →
    (Journal.get (semMap (semAnalyze sqrt chunk embeddings threshold)).links (toString member)).map ConceptLink.parent =
      some hub.masterTid
  unlinked : ∀ hub ∈ findSemanticHubs sqrt chunk embeddings threshold,
    Journal.get (semMap (semAnalyze sqrt chunk embeddings threshold)).links (toString hub.masterTid) = none
  count : (Journal.keys (semMap (semAnalyze sqrt chunk embeddings threshold)).links).length =
    (semAnalyze sqrt chunk embeddings threshold).redundantTokens

omit [Field α] [LinearOrder α] in
theorem mem_linksOf {hub : SemanticHub α} {w : String × ConceptLink α} :
    w ∈ linksOf hub ↔ ∃ member ∈ hub.memberTids, member ≠ hub.masterTid ∧
      (toString member, ⟨hub.masterTid, "geometric_synonym", hub.avgSimilarity⟩) = w := by
  simp [linksOf, and_assoc]

omit [Field α] [LinearOrder α] in
/-- The links are filed under the other members. -/
theorem keys_linksOf (hub : SemanticHub α) :
    (linksOf hub).map Prod.fst = (hub.memberTids.filter fun member => member ≠ hub.masterTid).map toString := by
  rw [linksOf, List.map_map]
  rfl

omit [Field α] [LinearOrder α] in
/-- Hubs apart link as many tokens as they have members that are not their masters. -/
theorem length_keys_links {hubs : List (SemanticHub α)} (hnodup : ∀ hub ∈ hubs, hub.memberTids.Nodup)
    (hapart : hubs.Pairwise fun a b => List.Disjoint a.memberTids b.memberTids) :
    (Journal.keys (hubs.flatMap linksOf)).length =
      (hubs.map fun hub => (hub.memberTids.filter fun member => member ≠ hub.masterTid).length).sum := by
  have hkeys : (hubs.flatMap linksOf).map Prod.fst =
      (hubs.flatMap fun hub => hub.memberTids.filter fun member => member ≠ hub.masterTid).map toString := by
    rw [List.map_flatMap, List.map_flatMap]
    exact List.flatMap_congr fun hub _ => keys_linksOf hub
  have hdistinct : (hubs.flatMap fun hub => hub.memberTids.filter fun member => member ≠ hub.masterTid).Nodup := by
    refine List.nodup_flatMap.2 ⟨fun hub h => (hnodup hub h).filter _, hapart.imp fun {a b} h => ?_⟩
    exact fun t ha hb => h (List.mem_of_mem_filter ha) (List.mem_of_mem_filter hb)
  rw [Journal.keys, hkeys, (hdistinct.map Journal.toString_injective).dedup, List.length_map, List.length_flatMap]

/-- Leaving one token out of a list without repeats. -/
theorem length_filter_ne {l : List ℕ} (h : l.Nodup) (m : ℕ) :
    (l.filter fun t => t ≠ m).length = if m ∈ l then l.length - 1 else l.length := by
  have herase : (l.filter fun t => t ≠ m) = l.erase m := by
    rw [h.erase_eq_filter]
    refine List.filter_congr fun t _ => ?_
    rw [Bool.eq_iff_iff, decide_eq_true_iff, bne_iff_ne]
  rw [herase, List.length_erase]

section Hubs

variable (sqrt : α → α) {chunk : ℕ} (hchunk : 0 < chunk) (embeddings : List (Fin d → α)) (threshold : α)
include hchunk

/-- The hubs are those of the masters. -/
theorem mem_findSemanticHubs {hub : SemanticHub α} (h : hub ∈ findSemanticHubs sqrt chunk embeddings threshold) :
    hub.masterTid ∈ masters (similarTo sqrt embeddings threshold) (scanOrder embeddings.length) ∧
      hub.memberTids = similarTo sqrt embeddings threshold hub.masterTid ∧ hub.memberCount = hub.memberTids.length := by
  rw [findSemanticHubs_eq sqrt hchunk, List.mem_mergeSort] at h
  obtain ⟨m, hm, rfl⟩ := List.mem_map.1 h
  exact ⟨hm, rfl, rfl⟩

/-- Every master has its hub. -/
theorem exists_hub {m : ℕ} (h : m ∈ masters (similarTo sqrt embeddings threshold) (scanOrder embeddings.length)) :
    ∃ hub ∈ findSemanticHubs sqrt chunk embeddings threshold, hub.masterTid = m := by
  rw [findSemanticHubs_eq sqrt hchunk]
  exact ⟨_, List.mem_mergeSort.2 (List.mem_map_of_mem h), rfl⟩

/-- The hubs are disjoint exactly when the members the masters claim are. -/
theorem hubs_disjoint_iff :
    ((findSemanticHubs sqrt chunk embeddings threshold).Pairwise fun a b => List.Disjoint a.memberTids b.memberTids) ↔
      (masters (similarTo sqrt embeddings threshold) (scanOrder embeddings.length)).Pairwise fun m i =>
        List.Disjoint (similarTo sqrt embeddings threshold m) (similarTo sqrt embeddings threshold i) := by
  rw [findSemanticHubs_eq sqrt hchunk, (List.mergeSort_perm _ _).pairwise_iff List.disjoint_symm, List.pairwise_map]
  rfl

/-- Hubs apart save as many tokens as they say exactly when every master is a member. -/
theorem count_iff (hapart : (findSemanticHubs sqrt chunk embeddings threshold).Pairwise fun a b =>
      List.Disjoint a.memberTids b.memberTids) :
    (Journal.keys (semMap (semAnalyze sqrt chunk embeddings threshold)).links).length =
        (semAnalyze sqrt chunk embeddings threshold).redundantTokens ↔
      ∀ hub ∈ findSemanticHubs sqrt chunk embeddings threshold, hub.masterTid ∈ hub.memberTids := by
  have hform := fun hub (h : hub ∈ findSemanticHubs sqrt chunk embeddings threshold) =>
      mem_findSemanticHubs sqrt hchunk embeddings threshold h
  have hnodup : ∀ hub ∈ findSemanticHubs sqrt chunk embeddings threshold, hub.memberTids.Nodup := fun hub h => by
    rw [(hform hub h).2.1]
    exact nodup_matchesOf _ _
  have hlarge : ∀ hub ∈ findSemanticHubs sqrt chunk embeddings threshold, 1 < hub.memberTids.length := fun hub h => by
    rw [(hform hub h).2.1]
    exact one_lt_of_mem_masters (hform hub h).1
  have hle : ∀ hub ∈ findSemanticHubs sqrt chunk embeddings threshold,
      hub.memberCount - 1 ≤ (hub.memberTids.filter fun member => member ≠ hub.masterTid).length := fun hub h => by
    rw [length_filter_ne (hnodup hub h), (hform hub h).2.2]
    split <;> omega
  show (Journal.keys ((findSemanticHubs sqrt chunk embeddings threshold).flatMap linksOf)).length =
    ((findSemanticHubs sqrt chunk embeddings threshold).map fun hub => hub.memberCount - 1).sum ↔ _
  rw [length_keys_links hnodup hapart]
  constructor
  · intro hsum hub h
    by_contra hown
    -- a master that is no member is one link more
    refine absurd hsum (List.sum_lt_sum _ _ hle ⟨hub, h, ?_⟩).ne'
    have := hlarge hub h
    rw [length_filter_ne (hnodup hub h), if_neg hown, (hform hub h).2.2]
    omega
  · intro hown
    refine congrArg List.sum (List.map_congr_left fun hub h => ?_)
    rw [length_filter_ne (hnodup hub h), if_pos (hown hub h), (hform hub h).2.2]

/-- **When the hubs are consistent**: pairwise disjoint, and the map of their analysis links each member to its one master, which is
not linked, with as many links as the analysis counts redundant tokens, exactly when the scanned tokens that are similar to several
are covered by disjoint neighbourhoods of scanned tokens, each around a token no later than those it covers. -/
theorem semanticHubs_consistent_iff :
    HubsConsistent sqrt chunk embeddings threshold ↔
      ∃ centres, Cover (similarTo sqrt embeddings threshold) (scanOrder embeddings.length) centres := by
  rw [← masters_apart_iff (ascending_scanOrder _), ← hubs_disjoint_iff sqrt hchunk]
  constructor
  · intro h
    have hown := (count_iff sqrt hchunk embeddings threshold h.disjoint).1 h.count
    refine ⟨fun m hm => ?_, h.disjoint⟩
    obtain ⟨hub, hhub, rfl⟩ := exists_hub sqrt hchunk embeddings threshold hm
    rw [← (mem_findSemanticHubs sqrt hchunk embeddings threshold hhub).2.1]
    exact hown hub hhub
  · rintro ⟨hown, hapart⟩
    have hform := fun hub (h : hub ∈ findSemanticHubs sqrt chunk embeddings threshold) =>
      mem_findSemanticHubs sqrt hchunk embeddings threshold h
    have hmaster : ∀ hub ∈ findSemanticHubs sqrt chunk embeddings threshold, hub.masterTid ∈ hub.memberTids := fun hub h => by
      rw [(hform hub h).2.1]
      exact hown _ (hform hub h).1
    -- two hubs that share a member are one hub
    have hone : ∀ a ∈ findSemanticHubs sqrt chunk embeddings threshold, ∀ b ∈ findSemanticHubs sqrt chunk embeddings threshold,
        ∀ t ∈ a.memberTids, t ∈ b.memberTids → a.masterTid = b.masterTid := by
      intro a ha b hb t hta htb
      have hsymm : Std.Symm fun a b : SemanticHub α => List.Disjoint a.memberTids b.memberTids := ⟨fun _ _ => List.disjoint_symm⟩
      by_contra hne
      exact hapart.forall ha hb (fun he => hne (congrArg _ he)) hta htb
    refine ⟨hapart, fun other hother => ?_, fun hub hhub member hmember hne => ?_, fun hub hhub => ?_,
      (count_iff sqrt hchunk embeddings threshold hapart).2 hmaster⟩
    · rw [findSemanticHubs_eq sqrt hother, findSemanticHubs_eq sqrt hchunk]
    · have hget : (Journal.get ((findSemanticHubs sqrt chunk embeddings threshold).flatMap linksOf) (toString member)) ≠ none := by
        rw [ne_eq, Journal.get_eq_none, not_not, List.mem_map]
        exact ⟨_, List.mem_flatMap.2 ⟨hub, hhub, mem_linksOf.2 ⟨member, hmember, hne, rfl⟩⟩, rfl⟩
      obtain ⟨link, hlink⟩ := Option.ne_none_iff_exists'.1 hget
      obtain ⟨other, hother, hw⟩ := List.mem_flatMap.1 (Journal.mem_of_get hlink)
      obtain ⟨t, ht, -, he⟩ := mem_linksOf.1 hw
      obtain ⟨htm, rfl⟩ := Prod.mk.inj he
      rw [Journal.toString_injective htm] at ht
      show Option.map _ (Journal.get ((findSemanticHubs sqrt chunk embeddings threshold).flatMap linksOf) _) = _
      rw [hlink, Option.map_some, hone other hother hub hhub member ht hmember]
    · show Journal.get ((findSemanticHubs sqrt chunk embeddings threshold).flatMap linksOf) _ = none
      rw [Journal.get_eq_none, List.mem_map]
      rintro ⟨w, hw, hkey⟩
      obtain ⟨other, hother, hw⟩ := List.mem_flatMap.1 hw
      obtain ⟨t, ht, hne, rfl⟩ := mem_linksOf.1 hw
      obtain rfl := Journal.toString_injective hkey
      exact hne (hone hub hhub other hother _ (hmaster hub hhub) ht)

end Hubs

end Semantic

/-! ## A token between two hubs -/

/-- Three rows of norm one; the last is close to both others, which are not close to each other. -/
def betweenRows : List (Fin 2 → ℚ) := [![1, 0], ![7 / 25, 24 / 25], ![4 / 5, 3 / 5]]

/-- The token is claimed by the first hub and is a member of the second, so it is one link and two redundant tokens. -/
theorem betweenRows_hubs_overlap : ¬ HubsConsistent (fun x => x) 1 betweenRows (7 / 10) := by
  have hmasters : masters (similarTo (fun x => x) betweenRows (7 / 10)) (scanOrder 3) = [0, 1] := by decide +kernel
  have hshared : 2 ∈ similarTo (fun x => x) betweenRows (7 / 10) 0 ∧ 2 ∈ similarTo (fun x => x) betweenRows (7 / 10) 1 := by
    decide +kernel
  intro h
  have hapart := (hubs_disjoint_iff (fun x => x) one_pos betweenRows (7 / 10)).1 h.disjoint
  rw [show betweenRows.length = 3 from rfl, hmasters] at hapart
  exact (List.pairwise_cons.1 hapart).1 1 (by simp) hshared.1 hshared.2

/-! ## Two pairs of tokens -/

/-- Four rows of norm one: the first two are close to each other, and so are the last two. -/
def pairedRows : List (Fin 2 → ℚ) := [![1, 0], ![4 / 5, 3 / 5], ![0, 1], ![-3 / 5, 4 / 5]]

/-- The neighbourhoods of the first and the third row cover them, so the hubs are consistent. -/
theorem semanticHubs_consistent_iff_pairedRows : HubsConsistent (fun x => x) 1 pairedRows (7 / 10) := by
  have horder : scanOrder pairedRows.length = [0, 1, 2, 3, 0, 1, 2, 3] := by decide +kernel
  have hnear : (List.range 4).map (similarTo (fun x => x) pairedRows (7 / 10)) = [[0, 1], [0, 1], [2, 3], [2, 3]] := by decide +kernel
  obtain ⟨h0, h1, h2, h3⟩ : similarTo (fun x => x) pairedRows (7 / 10) 0 = [0, 1] ∧
      similarTo (fun x => x) pairedRows (7 / 10) 1 = [0, 1] ∧ similarTo (fun x => x) pairedRows (7 / 10) 2 = [2, 3] ∧
        similarTo (fun x => x) pairedRows (7 / 10) 3 = [2, 3] := by
    simpa [List.range_succ] using hnear
  refine (semanticHubs_consistent_iff (fun x => x) one_pos pairedRows (7 / 10)).2 ⟨{0, 2}, ?_⟩
  rw [horder]
  exact {
    scanned := by simp
    own := by simp [h0, h2]
    large := by simp [h0, h2]
    apart := by simp [h0, h2]
    covers := by simp [h0, h1, h2, h3] }

end Orka
