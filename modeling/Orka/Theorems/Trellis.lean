import Orka.Trellis

/-!
# The best path of a row

A list of levels that follows the trellis is a path of subsets with a level of each; for a path of subsets the nearest members are
the best levels, and the search finds the best path of subsets.
-/

set_option linter.unusedSectionVars false

namespace Orka

open Flat Menu Viterbi

variable {α : Type} [Field α] [LinearOrder α] [IsStrictOrderedRing α]

/-- A list of levels that follows the trellis from a state: each level lies in the subset of a branch from the state before it. -/
def TrellisPath (nlev : ℕ) : ℕ → List ℕ → Prop
  | _, [] => True
  | s, i :: rest => ∃ b < 2, i < nlev ∧ i % 4 = subsetOf s b ∧ TrellisPath nlev (nextOf s b) rest

/-- The total squared error of a row and its reconstruction. -/
def squaredError (row recon : List α) : α := (List.zipWith (fun w v => (w - v) ^ 2) row recon).sum

namespace TrellisAux

variable {lv : TcqLevels α} {row : List α}

/-! ## Members of a subset -/

/-- The levels of a rate of one or more. -/
structure Graded (lv : TcqLevels α) (nlev : ℕ) : Prop where
  four_le : 4 ≤ nlev
  length_levels : lv.levels.length = nlev
  subset_eq : lv.subset = tabulate nlev fun i => i % 4

/-- The members of a subset are the levels of its remainder. -/
theorem mem_subsetMembers {nlev : ℕ} (h : Graded lv nlev) {s i : ℕ} : i ∈ subsetMembers lv.subset s ↔ i < nlev ∧ i % 4 = s := by
  rw [subsetMembers, h.subset_eq, length_tabulate, List.mem_filter, List.mem_range, decide_eq_true_iff]
  exact and_congr_right fun hi => by rw [cell_tabulate _ hi]

/-- No subset is empty. -/
theorem subsetMembers_ne_nil {nlev : ℕ} (h : Graded lv nlev) {s : ℕ} (hs : s < 4) : subsetMembers lv.subset s ≠ [] := by
  have hmem : s ∈ subsetMembers lv.subset s := (mem_subsetMembers h).2 ⟨hs.trans_le h.four_le, Nat.mod_eq_of_lt hs⟩
  exact List.ne_nil_of_mem hmem

/-- The nearest member is a member. -/
theorem nearestMember_mem {members : List ℕ} (hne : members ≠ []) (levels : List α) (w : α) : nearestMember levels members w ∈ members :=
  cell_mem (argmin_lt (List.length_pos_iff.2 hne) _)

/-- A subset costs no more than any of its members. -/
theorem memberCost_le {members : List ℕ} {i : ℕ} (hi : i ∈ members) (levels : List α) (w : α) :
    memberCost levels members w ≤ (w - cell levels i) ^ 2 := by
  obtain ⟨k, hk, rfl⟩ := List.getElem_of_mem hi
  have hle := argmin_le hk fun k => (w - cell levels (cell members k)) ^ 2
  rwa [cell_eq_getElem hk] at hle

/-! ## Paths of levels and paths of subsets -/

/-- Every state has its two branches. -/
theorem branch_mem {s b : ℕ} (hs : s < 4) (hb : b < 2) : (⟨s, nextOf s b, subsetOf s b⟩ : Branch) ∈ trellisBranches :=
  List.mem_flatMap.2 ⟨s, List.mem_range.2 hs, List.mem_map.2 ⟨b, List.mem_range.2 hb, rfl⟩⟩

/-- A branch leaves a state by one of its two bits. -/
theorem of_branch_mem {b : Branch} (h : b ∈ trellisBranches) :
    ∃ k < 2, b.src < 4 ∧ b.dst = nextOf b.src k ∧ b.label = subsetOf b.src k := by
  obtain ⟨s, hs, hb⟩ := List.mem_flatMap.1 h
  obtain ⟨k, hk, rfl⟩ := List.mem_map.1 hb
  exact ⟨k, List.mem_range.1 hk, List.mem_range.1 hs, rfl, rfl⟩

/-- Branches run between states and carry subsets. -/
theorem branch_bounds : ∀ b ∈ trellisBranches, (b.src < 4 ∧ b.dst < 4) ∧ b.label < 4 := by decide

/-- The subsets of a path of levels lead somewhere. -/
theorem follows_of_trellisPath {nlev s : ℕ} {js : List ℕ} (hs : s < 4) (h : TrellisPath nlev s js) :
    ∃ d, Follows trellisBranches s (js.map (· % 4)) d := by
  induction js generalizing s with
  | nil => exact ⟨s, rfl⟩
  | cons i rest ih =>
    obtain ⟨b, hb, -, hsubset, hrest⟩ := h
    have hmem := branch_mem hs hb
    obtain ⟨d, hd⟩ := ih (branch_bounds _ hmem).1.2 hrest
    exact ⟨d, _, hmem, rfl, hsubset.symm, hd⟩

/-- Along a path of subsets the nearest members are a path of levels. -/
theorem trellisPath_nearest {nlev s d : ℕ} (h : Graded lv nlev) {ls : List ℕ} (hlen : ls.length = row.length)
    (hpath : Follows trellisBranches s ls d) :
    TrellisPath nlev s (List.zipWith (fun ss w => nearestMember lv.levels (subsetMembers lv.subset ss) w) ls row) := by
  induction ls generalizing s row with
  | nil => exact trivial
  | cons l ls ih =>
    cases row with
    | nil => cases hlen
    | cons w row =>
      obtain ⟨b, hb, rfl, rfl, hrest⟩ := hpath
      obtain ⟨k, hk, -, hdst, hlabel⟩ := of_branch_mem hb
      have hmem := nearestMember_mem (subsetMembers_ne_nil h (branch_bounds b hb).2) lv.levels w
      obtain ⟨hlt, hmod⟩ := (mem_subsetMembers h).1 hmem
      exact ⟨k, hk, hlt, hmod.trans hlabel, hdst ▸ ih (Nat.succ.inj hlen) hrest⟩

/-- What a row's path of subsets costs. -/
def rowCosts (lv : TcqLevels α) (row : List α) : List (ℕ → α) :=
  row.map fun w ss => memberCost lv.levels (subsetMembers lv.subset ss) w

/-- A path's cost is the error of the nearest members along it. -/
theorem pathCost_nearest {ls : List ℕ} (hlen : ls.length = row.length) :
    pathCost (rowCosts lv row) ls = squaredError row
      (tcqDecode lv.levels (List.zipWith (fun ss w => nearestMember lv.levels (subsetMembers lv.subset ss) w) ls row)) := by
  induction ls generalizing row with
  | nil =>
    obtain rfl := List.length_eq_zero_iff.1 hlen.symm
    rfl
  | cons l ls ih =>
    cases row with
    | nil => cases hlen
    | cons w row =>
      have hrest := ih (Nat.succ.inj hlen)
      simp only [pathCost, rowCosts, squaredError, tcqDecode, List.map_cons, List.zipWith_cons_cons, List.sum_cons] at hrest ⊢
      rw [hrest]
      rfl

/-- A path's cost is at most the error of any levels along it. -/
theorem pathCost_le {nlev s : ℕ} (h : Graded lv nlev) {js : List ℕ} (hlen : js.length = row.length) (hpath : TrellisPath nlev s js) :
    pathCost (rowCosts lv row) (js.map (· % 4)) ≤ squaredError row (tcqDecode lv.levels js) := by
  induction js generalizing s row with
  | nil =>
    obtain rfl := List.length_eq_zero_iff.1 hlen.symm
    exact le_refl _
  | cons i js ih =>
    cases row with
    | nil => cases hlen
    | cons w row =>
      obtain ⟨b, -, hi, -, hrest⟩ := hpath
      have hle := ih (Nat.succ.inj hlen) hrest
      have hfirst := memberCost_le ((mem_subsetMembers h).2 ⟨hi, rfl⟩) lv.levels w
      simp only [pathCost, rowCosts, squaredError, tcqDecode, List.map_cons, List.zipWith_cons_cons, List.sum_cons] at hle ⊢
      exact add_le_add hfirst hle

/-! ## A row -/

/-- No path of the trellis decodes to a smaller error than the one encoded. -/
theorem encodeTrellisRow_optimal {nlev : ℕ} (h : Graded lv nlev) (row : List α)
    (hsome : ∃ js, TrellisPath nlev 0 js ∧ js.length = row.length ∧ squaredError row (tcqDecode lv.levels js) < trellisInf) :
    (encodeTrellisRow lv row).length = row.length ∧ TrellisPath nlev 0 (encodeTrellisRow lv row) ∧
      ∀ js, TrellisPath nlev 0 js → js.length = row.length →
        squaredError row (tcqDecode lv.levels (encodeTrellisRow lv row)) ≤ squaredError row (tcqDecode lv.levels js) := by
  have hcosts : (rowCosts lv row).length = row.length := List.length_map _
  have hpos : ∀ c ∈ rowCosts lv row, ∀ b ∈ trellisBranches, 0 ≤ c b.label := by
    intro c hc b _
    obtain ⟨w, -, rfl⟩ := List.mem_map.1 hc
    exact sq_nonneg _
  have hpaths : ∀ js, TrellisPath nlev 0 js → js.length = row.length → ∃ d, (js.map (· % 4)).length = (rowCosts lv row).length ∧
      Follows trellisBranches 0 (js.map (· % 4)) d ∧
      pathCost (rowCosts lv row) (js.map (· % 4)) ≤ squaredError row (tcqDecode lv.levels js) := by
    intro js hjs hlen
    obtain ⟨d, hd⟩ := follows_of_trellisPath (by norm_num) hjs
    exact ⟨d, by rw [List.length_map, hlen, hcosts], hd, pathCost_le h hlen hjs⟩
  obtain ⟨js, hjs, hlen, hlt⟩ := hsome
  obtain ⟨d, hlen', hd, hle⟩ := hpaths js hjs hlen
  have hends : ∀ b ∈ trellisBranches, b.src < 4 ∧ b.dst < 4 := fun b hb => (branch_bounds b hb).1
  obtain ⟨⟨e, he⟩, hlength, hleast⟩ := search_optimal hends (by norm_num)
    (by unfold trellisInf; positivity) (rowCosts lv row) hpos ⟨_, d, hlen', hd, hle.trans_lt hlt⟩
  rw [hcosts] at hlength
  refine ⟨?_, trellisPath_nearest h hlength he, fun js hjs hlen => ?_⟩
  · change (List.zipWith _ _ row).length = _
    rw [List.length_zipWith]
    exact (congrArg (min · row.length) hlength).trans (min_self _)
  · obtain ⟨d, hlen', hd, hle⟩ := hpaths js hjs hlen
    exact (pathCost_nearest hlength).symm.le.trans ((hleast _ d hlen' hd).trans hle)

/-- From one bit on there are graded levels. -/
theorem tcqLevels_ok (std : List (List α) → α) (W : List (List α)) {R : ℤ} (hR : 1 ≤ R) :
    ∃ lv, tcqLevels std W R = .ok lv ∧ Graded lv (2 ^ (R + 1).toNat) := by
  refine ⟨_, if_neg (by omega), ?_, by simp, rfl⟩
  calc 4 = 2 ^ 2 := rfl
    _ ≤ 2 ^ (R + 1).toNat := Nat.pow_le_pow_right (by norm_num) (by omega)

end TrellisAux

open TrellisAux

/-- At a rate of one or more every row is encoded as a path of the trellis from state 0, and no path has a smaller squared error,
unless all of them reach the number that stands for no path. -/
theorem tcqEncode_optimal (std : List (List α) → α) (W : List (List α)) {R : ℤ} (hR : 1 ≤ R) :
    ∃ out levels sigma, tcqEncode std W R = .ok (out, levels, sigma) ∧ out.length = W.length ∧ levels.length = 2 ^ (R + 1).toNat ∧
      ∀ p ∈ W.zip out,
        (∃ js, TrellisPath levels.length 0 js ∧ js.length = p.1.length ∧ squaredError p.1 (tcqDecode levels js) < trellisInf) →
          p.2.length = p.1.length ∧ TrellisPath levels.length 0 p.2 ∧ ∀ js, TrellisPath levels.length 0 js →
            js.length = p.1.length → squaredError p.1 (tcqDecode levels p.2) ≤ squaredError p.1 (tcqDecode levels js) := by
  obtain ⟨lv, hlv, hgraded⟩ := tcqLevels_ok std W hR
  refine ⟨W.map (encodeTrellisRow lv), lv.levels, lv.sigma, ?_, by simp, hgraded.length_levels, fun p hp hsome => ?_⟩
  · unfold tcqEncode
    rw [hlv]
    refine if_neg fun hnil => ?_
    obtain ⟨s, hs, hnil⟩ := List.mem_map.1 hnil
    exact subsetMembers_ne_nil hgraded (List.mem_range.1 hs) hnil
  · rw [hgraded.length_levels] at hsome ⊢
    nth_rewrite 1 [← List.map_id W] at hp
    rw [List.zip_map', List.mem_map] at hp
    obtain ⟨row, -, rfl⟩ := hp
    exact encodeTrellisRow_optimal hgraded row hsome

/-- One row of three values. -/
theorem tcqEncode_optimal_row :
    ∃ out levels sigma, tcqEncode (fun _ => (1 : ℚ)) [[1, 0, -1]] 1 = .ok (out, levels, sigma) ∧ out.length = 1 ∧ levels.length = 4 ∧
      ∀ p ∈ [[1, 0, -1]].zip out,
        (∃ js, TrellisPath levels.length 0 js ∧ js.length = p.1.length ∧ squaredError p.1 (tcqDecode levels js) < trellisInf) →
          p.2.length = p.1.length ∧ TrellisPath levels.length 0 p.2 ∧ ∀ js, TrellisPath levels.length 0 js →
            js.length = p.1.length → squaredError p.1 (tcqDecode levels p.2) ≤ squaredError p.1 (tcqDecode levels js) :=
  tcqEncode_optimal _ _ (by norm_num)

end Orka
