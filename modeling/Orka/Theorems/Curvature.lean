import Orka.Curvature

/-!
# What water-filling gives

The spec nearest to a rate grows with the rate, so the mean rate grows with the level of the water. Two searches for one level
compare branch by branch. The level returned is the middle of the last interval, above the level the search has found to be within
the budget.
-/

set_option linter.unusedSectionVars false

namespace Orka

open Flat Menu Steps Halving

variable {α : Type} [Field α] [LinearOrder α] [IsStrictOrderedRing α]
variable {log2 : α → α} {cfg : WaterfillConfig α} {stats : CurvatureStats α} {grid : List (Rated α)} {floor : α}

namespace CurvatureAux

/-! ## The spec of a rate -/

/-- The rated grid is there, in order of rate, each rate that of its spec. -/
theorem ratedGrid_spec (h : ratedGrid log2 cfg = .ok grid) :
    grid ≠ [] ∧ grid.Pairwise (fun g g' => g.2 ≤ g'.2) ∧ ∀ g ∈ grid, specBitsPerWeight log2 g.1 cfg.groupSize = .ok g.2 := by
  obtain ⟨rated, hrated, h⟩ := bind_eq_ok.1 h
  split at h
  · cases h
  · next hne =>
    obtain rfl := Except.ok.inj h
    refine ⟨?_, List.pairwise_insertionSort _ _, fun g hg => ?_⟩
    · rw [ne_eq, ← List.length_eq_zero_iff, List.length_insertionSort, List.length_eq_zero_iff]
      exact hne
    · obtain ⟨spec, -, hspec⟩ := (mem_of_mapM_eq_ok hrated).1 ((List.mem_insertionSort _).1 hg)
      obtain ⟨bits, hbits, rfl⟩ := map_eq_ok.1 hspec
      exact hbits

/-- The rate at a place of the grid. -/
def rateAt (grid : List (Rated α)) (i : ℕ) : α := (grid.getD i ([], 0)).2

/-- Later specs have at least the rate. -/
theorem rateAt_mono (hsorted : grid.Pairwise fun g g' => g.2 ≤ g'.2) {i j : ℕ} (hij : i ≤ j) (hj : j < grid.length) :
    rateAt grid i ≤ rateAt grid j := by
  rcases hij.eq_or_lt with rfl | hij
  · exact le_refl _
  · rw [rateAt, rateAt, List.getD_eq_getElem _ _ (hij.trans hj), List.getD_eq_getElem _ _ hj]
    exact List.pairwise_iff_getElem.1 hsorted i j _ _ hij

/-- The place of the spec nearest to a rate. -/
def nearestPlace (grid : List (Rated α)) (want : α) : ℕ := argmin grid.length fun i => |rateAt grid i - want|

theorem nearestPlace_lt (hne : grid ≠ []) (want : α) : nearestPlace grid want < grid.length :=
  argmin_lt (List.length_pos_iff.2 hne) _

theorem nearestSpec_rate (grid : List (Rated α)) (want : α) : (nearestSpec grid want).2 = rateAt grid (nearestPlace grid want) := rfl

/-- The nearest spec is on the grid. -/
theorem nearestSpec_mem (hne : grid ≠ []) (want : α) : nearestSpec grid want ∈ grid := by
  have hlt := nearestPlace_lt hne want
  have hget : nearestSpec grid want = grid[nearestPlace grid want] := List.getD_eq_getElem _ _ hlt
  rw [hget]
  exact List.getElem_mem hlt

/-- The nearest spec to a higher rate has no lower one: where the two are nearest, in this order, they would have to lie on the
wrong sides of their middle. -/
theorem nearestSpec_mono (hne : grid ≠ []) (hsorted : grid.Pairwise fun g g' => g.2 ≤ g'.2) {w w' : α} (hw : w ≤ w') :
    (nearestSpec grid w).2 ≤ (nearestSpec grid w').2 := by
  rw [nearestSpec_rate, nearestSpec_rate]
  by_contra hlt
  have hlt := not_le.1 hlt
  have hplace : nearestPlace grid w' < nearestPlace grid w := by
    by_contra hge
    exact absurd (rateAt_mono hsorted (not_lt.1 hge) (nearestPlace_lt hne w')) (not_le.2 hlt)
  have hfirst := lt_of_lt_argmin (fun i => |rateAt grid i - w|) hplace
  have hbest := argmin_le (nearestPlace_lt hne w) fun i => |rateAt grid i - w'|
  have h1 := sq_lt_sq.2 hfirst
  have h2 := sq_le_sq.2 hbest
  change (rateAt grid (nearestPlace grid w) - w) ^ 2 < _ at h1
  change (rateAt grid (nearestPlace grid w') - w') ^ 2 ≤ _ at h2
  nlinarith

/-! ## The spec picked -/

/-- The spec that `pick` gives when it gives one. -/
def picked (grid : List (Rated α)) (floor want : α) : Rated α :=
  match pick grid floor want with
  | .ok g => g
  | .error _ => ([], 0)

/-- Whether `pick` gives a spec does not depend on the rate. -/
theorem pick_eq_picked (hne : grid ≠ []) (h : ∃ w g, pick grid floor w = .ok g) (want : α) :
    pick grid floor want = .ok (picked grid floor want) := by
  have hsome : ∃ g, pick grid floor want = .ok g := by
    obtain ⟨w, g, hg⟩ := h
    unfold pick at hg ⊢
    simp only at hg ⊢
    by_cases hbest : (nearestSpec grid want).2 < floor
    · rw [if_pos hbest]
      cases hfind : grid.find? fun g => floor ≤ g.2 with
      | some g' => exact ⟨g', rfl⟩
      | none =>
        have hall := List.find?_eq_none.1 hfind
        have hlow : (nearestSpec grid w).2 < floor := by
          have := hall _ (nearestSpec_mem hne w)
          simpa using this
        rw [if_pos hlow, hfind] at hg
        cases hg
    · rw [if_neg hbest]
      exact ⟨_, rfl⟩
  obtain ⟨g, hg⟩ := hsome
  rw [picked, hg]

/-- What `pick` chooses is on the grid. -/
theorem pick_mem (hne : grid ≠ []) {w : α} {g : Rated α} (h : pick grid floor w = .ok g) : g ∈ grid := by
  unfold pick at h
  simp only at h
  split at h
  · split at h
    · next g' hfind =>
      obtain rfl := Except.ok.inj h
      exact List.mem_of_find?_eq_some hfind
    · cases h
  · obtain rfl := Except.ok.inj h
    exact nearestSpec_mem hne w

/-- Of the specs that reach the floor the first one has the least rate. -/
theorem find_floor_le (hsorted : grid.Pairwise fun g g' => g.2 ≤ g'.2) {g g' : Rated α}
    (h : grid.find? (fun g => floor ≤ g.2) = some g) (hmem : g' ∈ grid) (hle : floor ≤ g'.2) : g.2 ≤ g'.2 := by
  induction hsorted with
  | nil => cases hmem
  | @cons a rest hall _ ih =>
    rw [List.find?_cons] at h
    by_cases ha : floor ≤ a.2
    · rw [decide_eq_true ha] at h
      obtain rfl := Option.some.inj h
      rcases List.mem_cons.1 hmem with rfl | hmem
      · exact le_refl _
      · exact hall _ hmem
    · rw [decide_eq_false ha] at h
      rcases List.mem_cons.1 hmem with rfl | hmem
      · exact absurd hle ha
      · exact ih h hmem

/-- The spec picked for a higher rate has no lower one. -/
theorem pick_mono (hne : grid ≠ []) (hsorted : grid.Pairwise fun g g' => g.2 ≤ g'.2) {w w' : α} {g g' : Rated α} (hw : w ≤ w')
    (h : pick grid floor w = .ok g) (h' : pick grid floor w' = .ok g') : g.2 ≤ g'.2 := by
  have hmono := nearestSpec_mono hne hsorted hw
  unfold pick at h h'
  simp only at h h'
  by_cases hlow : (nearestSpec grid w).2 < floor
  · rw [if_pos hlow] at h
    cases hfind : grid.find? fun g => floor ≤ g.2 with
    | none =>
      rw [hfind] at h
      cases h
    | some f =>
      rw [hfind] at h
      obtain rfl := Except.ok.inj h
      by_cases hlow' : (nearestSpec grid w').2 < floor
      · rw [if_pos hlow', hfind] at h'
        obtain rfl := Except.ok.inj h'
        exact le_refl _
      · rw [if_neg hlow'] at h'
        obtain rfl := Except.ok.inj h'
        exact find_floor_le hsorted hfind (nearestSpec_mem hne w') (not_lt.1 hlow')
  · have hlow' : ¬ (nearestSpec grid w').2 < floor := fun hlt => hlow (hmono.trans_lt hlt)
    rw [if_neg hlow] at h
    rw [if_neg hlow'] at h'
    obtain rfl := Except.ok.inj h
    obtain rfl := Except.ok.inj h'
    exact hmono

/-! ## The search -/

/-- What an accepted call has found on its way: the grid, the floor and the last interval of the search. -/
structure Filled (log2 : α → α) (cfg : WaterfillConfig α) (stats : CurvatureStats α) (target : α) (grid : List (Rated α))
    (floor lo hi : α) :
    Prop where
  grid_ok : ratedGrid log2 cfg = .ok grid
  stats_ne : stats.entries ≠ []
  floor_ok : floorBpw cfg grid target = .ok floor
  ends_ok : searchOffset log2 cfg grid floor stats target = .ok (lo, hi)
  pick_ok : ∀ w, pick grid floor w = .ok (picked grid floor w)

/-- The stages of each name at an offset. -/
def stagesAt (log2 : α → α) (grid : List (Rated α)) (floor : α) (stats : CurvatureStats α) (offset : α) : List (String × List ℤ) :=
  stats.entries.map fun e => (e.1, (picked grid floor (curvatureScore log2 e.2 + offset)).1)

/-- An entry stands beside its own stages. -/
theorem zip_stagesAt {offset : α} {p : (String × TensorStats α) × String × List ℤ}
    (hp : p ∈ stats.entries.zip (stagesAt log2 grid floor stats offset)) :
    p.2 = (p.1.1, (picked grid floor (curvatureScore log2 p.1.2 + offset)).1) := by
  rw [stagesAt] at hp
  nth_rewrite 1 [← List.map_id stats.entries] at hp
  rw [List.zip_map', List.mem_map] at hp
  obtain ⟨e, -, rfl⟩ := hp
  rfl

/-- A run of `waterfill_stages` is a filled grid at the middle of its last bracket. -/
theorem waterfillStages_inv {target : α} {m : List (String × List ℤ)} (h : waterfillStages log2 cfg stats target = .ok m) :
    ∃ grid floor lo hi, Filled log2 cfg stats target grid floor lo hi ∧ m = stagesAt log2 grid floor stats ((lo + hi) / 2) := by
  unfold waterfillStages at h
  split at h
  · cases h
  obtain ⟨grid, hgrid, h⟩ := bind_eq_ok.1 h
  split at h
  · cases h
  next hstats =>
  obtain ⟨floor, hfloor, h⟩ := bind_eq_ok.1 h
  obtain ⟨⟨lo, hi⟩, hends, h⟩ := bind_eq_ok.1 h
  have hne := (ratedGrid_spec hgrid).1
  have hpick : ∀ w, pick grid floor w = .ok (picked grid floor w) := by
    obtain ⟨e, he⟩ := List.exists_mem_of_ne_nil _ hstats
    obtain ⟨y, hy⟩ := exists_mapM_eq_ok.1 ⟨m, h⟩ e he
    obtain ⟨g, hg, -⟩ := map_eq_ok.1 hy
    exact pick_eq_picked hne ⟨_, g, hg⟩
  refine ⟨grid, floor, lo, hi, ⟨hgrid, hstats, hfloor, hends, hpick⟩, ?_⟩
  refine Except.ok.inj (h.symm.trans (mapM_ok fun e _ => ?_))
  rw [hpick]
  rfl

theorem picked_mem {target lo hi : α} (h : Filled log2 cfg stats target grid floor lo hi) (w : α) : picked grid floor w ∈ grid :=
  pick_mem (ratedGrid_spec h.grid_ok).1 (h.pick_ok w)

/-- The spec picked has the rate the grid gives it. -/
theorem picked_rate {target lo hi : α} (h : Filled log2 cfg stats target grid floor lo hi) (w : α) :
    specBitsPerWeight log2 (picked grid floor w).1 cfg.groupSize = .ok (picked grid floor w).2 :=
  (ratedGrid_spec h.grid_ok).2.2 _ (picked_mem h w)

/-- A larger wanted rate picks at least the rate. -/
theorem picked_mono {target lo hi : α} (h : Filled log2 cfg stats target grid floor lo hi) {w w' : α} (hw : w ≤ w') :
    (picked grid floor w).2 ≤ (picked grid floor w').2 :=
  pick_mono (ratedGrid_spec h.grid_ok).1 (ratedGrid_spec h.grid_ok).2.1 hw (h.pick_ok w) (h.pick_ok w')

/-- The floor is a matter of the grid alone. -/
theorem floorBpw_unique {t t' f f' : α} (h : floorBpw cfg grid t = .ok f) (h' : floorBpw cfg grid t' = .ok f') : f = f' := by
  unfold floorBpw at h h'
  split at h
  · next hnone =>
    simp only [hnone] at h'
    exact Except.ok.inj (h.symm.trans h')
  · next db hsome =>
    simp only [hsome] at h'
    split at h
    · cases h
    next hslope =>
    rw [if_neg hslope] at h'
    split at h
    · cases h
    next g rest hreach =>
    simp only [hreach] at h'
    split at h
    · cases h
    split at h'
    · cases h'
    exact (Except.ok.inj h).symm.trans (Except.ok.inj h')

/-- The bits of all weights at an offset. -/
def bitsAt (log2 : α → α) (grid : List (Rated α)) (floor : α) (stats : CurvatureStats α) (offset : α) : α :=
  (stats.entries.map fun e => (picked grid floor (curvatureScore log2 e.2 + offset)).2 * (e.2.numel : α)).sum

/-- The number of weights. -/
def weights (stats : CurvatureStats α) : ℕ := (stats.entries.map fun e => e.2.numel).sum

/-- The mean rate is the bits at the offset over the weights. -/
theorem meanBpw_eq {target lo hi : α} (h : Filled log2 cfg stats target grid floor lo hi) (hw : weights stats ≠ 0) (offset : α) :
    meanBpw log2 grid floor stats offset = .ok (bitsAt log2 grid floor stats offset / (weights stats : α)) := by
  have hbits : (stats.entries.mapM fun e => (pick grid floor (curvatureScore log2 e.2 + offset)).map fun g => g.2 * (e.2.numel : α)) =
      .ok (stats.entries.map fun e => (picked grid floor (curvatureScore log2 e.2 + offset)).2 * (e.2.numel : α)) := by
    refine mapM_ok fun e _ => ?_
    rw [h.pick_ok]
    rfl
  unfold meanBpw
  rw [hbits]
  exact if_neg hw

/-- A larger offset takes at least the bits. -/
theorem bitsAt_mono {target lo hi : α} (h : Filled log2 cfg stats target grid floor lo hi) {o o' : α} (ho : o ≤ o') :
    bitsAt log2 grid floor stats o ≤ bitsAt log2 grid floor stats o' := by
  refine List.sum_le_sum fun e _ => ?_
  exact mul_le_mul_of_nonneg_right (picked_mono h (by linarith)) (Nat.cast_nonneg _)

/-! ## The bits of the map -/

/-- A name of the map finds its own entry. -/
theorem get?_of_mem (stats : CurvatureStats α) {e : String × TensorStats α} (he : e ∈ stats.entries) : stats.get? e.1 = some e.2 := by
  have hfind : stats.entries.find? (fun x => x.1 = e.1) = some e := by
    cases hf : stats.entries.find? fun x => x.1 = e.1 with
    | none => simpa using List.find?_eq_none.1 hf e he
    | some x =>
      have hname : x.1 = e.1 := by simpa using List.find?_some hf
      rw [List.inj_on_of_nodup_map stats.nodup (List.mem_of_find?_eq_some hf) he hname]
  rw [CurvatureStats.get?, hfind]
  rfl

/-- What the stages achieve is the mean rate at their offset. -/
theorem achievedBpw_stagesAt {target lo hi : α} (h : Filled log2 cfg stats target grid floor lo hi) (hw : weights stats ≠ 0) (offset : α) :
    achievedBpw log2 (stagesAt log2 grid floor stats offset) stats cfg.groupSize =
      .ok (bitsAt log2 grid floor stats offset / (weights stats : α)) := by
  have hknown : (stagesAt log2 grid floor stats offset).filterMap (fun e => (stats.get? e.1).map fun s => (e.2, s.numel)) =
      stats.entries.map fun e => ((picked grid floor (curvatureScore log2 e.2 + offset)).1, e.2.numel) := by
    rw [stagesAt, List.filterMap_map, ← List.filterMap_eq_map]
    refine List.filterMap_congr fun e he => ?_
    simp [get?_of_mem stats he]
  unfold achievedBpw
  simp only [hknown, List.map_map]
  have hbits : ((stats.entries.map fun e => ((picked grid floor (curvatureScore log2 e.2 + offset)).1, e.2.numel)).mapM fun e =>
      (specBitsPerWeight log2 e.1 cfg.groupSize).map fun bits => bits * (e.2 : α)) =
      .ok (stats.entries.map fun e => (picked grid floor (curvatureScore log2 e.2 + offset)).2 * (e.2.numel : α)) := by
    rw [List.mapM_map]
    refine mapM_ok fun e _ => ?_
    simp only [Function.comp]
    rw [picked_rate h]
    rfl
  rw [hbits]
  exact if_neg hw

/-- A larger product of curvature and variance scores at least as high. -/
theorem curvatureScore_mono (hlog : ∀ x y, 0 < x → x ≤ y → log2 x ≤ log2 y) {s s' : TensorStats α}
    (hle : s.fisher * s.var ≤ s'.fisher * s'.var) : curvatureScore log2 s ≤ curvatureScore log2 s' := by
  have hpos : (0 : α) < max (s.fisher * s.var) (1 / 10 ^ 45) := lt_max_of_lt_right (by positivity)
  exact mul_le_mul_of_nonneg_left (hlog _ _ hpos (max_le_max_right _ hle)) (by norm_num)

/-- A larger target ends at no smaller an offset. -/
theorem searchOffset_le {t t' lo hi lo' hi' : α} (hle : t ≤ t') (h : searchOffset log2 cfg grid floor stats t = .ok (lo, hi))
    (h' : searchOffset log2 cfg grid floor stats t' = .ok (lo', hi')) : (lo + hi) / 2 ≤ (lo' + hi') / 2 := by
  refine bisect_middle_le (by norm_num) (fun x b hb hyes => ?_) h h'
  obtain ⟨mean, hmean, rfl⟩ := map_eq_ok.1 hb
  obtain ⟨mean', hmean', hmore⟩ := map_eq_ok.1 hyes
  obtain rfl := Except.ok.inj (hmean.symm.trans hmean')
  exact decide_eq_true (hle.trans_lt (of_decide_eq_true hmore))

end CurvatureAux

open CurvatureAux

/-- One list of stages has no higher rate than another. -/
def RateLe (log2 : α → α) (groupSize : ℤ) (s s' : List ℤ) : Prop :=
  ∃ r r', specBitsPerWeight log2 s groupSize = .ok r ∧ specBitsPerWeight log2 s' groupSize = .ok r' ∧ r ≤ r'

/-- A higher budget lowers no tensor's rate, and within one map a tensor of larger curvature has no lower rate. -/
theorem waterfillStages_monotone (hlog : ∀ x y, 0 < x → x ≤ y → log2 x ≤ log2 y) (cfg : WaterfillConfig α) (stats : CurvatureStats α)
    {t t' : α} (hle : t ≤ t') {m m' : List (String × List ℤ)} (h : waterfillStages log2 cfg stats t = .ok m)
    (h' : waterfillStages log2 cfg stats t' = .ok m') :
    (m.map Prod.fst = stats.entries.map Prod.fst ∧
      List.Forall₂ (fun a a' => a.1 = a'.1 ∧ RateLe log2 cfg.groupSize a.2 a'.2) m m') ∧
    ∀ p ∈ stats.entries.zip m, ∀ p' ∈ stats.entries.zip m, p.1.2.fisher * p.1.2.var ≤ p'.1.2.fisher * p'.1.2.var →
      RateLe log2 cfg.groupSize p.2.2 p'.2.2 := by
  obtain ⟨grid, floor, lo, hi, hfilled, rfl⟩ := waterfillStages_inv h
  obtain ⟨grid', floor', lo', hi', hfilled', rfl⟩ := waterfillStages_inv h'
  obtain rfl := Except.ok.inj (hfilled.grid_ok.symm.trans hfilled'.grid_ok)
  obtain rfl := floorBpw_unique hfilled.floor_ok hfilled'.floor_ok
  refine ⟨⟨by simp [stagesAt], ?_⟩, fun p hp p' hp' hcurv => ?_⟩
  · have hoff := searchOffset_le hle hfilled.ends_ok hfilled'.ends_ok
    rw [stagesAt, stagesAt, List.forall₂_map_left_iff, List.forall₂_map_right_iff, List.forall₂_same]
    exact fun e _ => ⟨rfl, _, _, picked_rate hfilled _, picked_rate hfilled _, picked_mono hfilled (by linarith)⟩
  · rw [zip_stagesAt hp, zip_stagesAt hp']
    exact ⟨_, _, picked_rate hfilled _, picked_rate hfilled _, picked_mono hfilled (by linarith [curvatureScore_mono hlog hcurv])⟩

/-- The logarithm of a power of two, over the rationals. -/
def log2Floor (x : ℚ) : ℚ := (Int.log 2 x : ℚ)

theorem log2Floor_mono (x y : ℚ) (hx : 0 < x) (hxy : x ≤ y) : log2Floor x ≤ log2Floor y :=
  Int.cast_le.2 (Int.log_mono_right hx hxy)

/-- Two tensors, one of them of four times the curvature. -/
def twoTensors : CurvatureStats ℚ := ⟨[("a", ⟨4, 1, 10⟩), ("b", ⟨1, 1, 10⟩)], by decide⟩

/-- Rates of one, two and three bits without a floor. -/
def threeRates : WaterfillConfig ℚ := { groupSize := 4, specGrid := [[16], [256], [256, 16]], minSqnrDb := none }

/-- Two tensors whose curvatures differ, at one target and at a larger one. -/
theorem waterfillStages_monotone_twoTensors :
    (([("a", [256]), ("b", [16])] : List (String × List ℤ)).map Prod.fst = twoTensors.entries.map Prod.fst ∧
      List.Forall₂ (fun a a' => a.1 = a'.1 ∧ RateLe log2Floor 4 a.2 a'.2) [("a", [256]), ("b", [16])]
        [("a", [256, 16]), ("b", [256])]) ∧
    ∀ p ∈ twoTensors.entries.zip [("a", [256]), ("b", [16])], ∀ p' ∈ twoTensors.entries.zip [("a", [256]), ("b", [16])],
      p.1.2.fisher * p.1.2.var ≤ p'.1.2.fisher * p'.1.2.var → RateLe log2Floor 4 p.2.2 p'.2.2 :=
  waterfillStages_monotone log2Floor_mono threeRates twoTensors (by norm_num : (1 : ℚ) ≤ 3 / 2) (by decide +kernel)
    (by decide +kernel)

/-- At an offset the mean rate is within the target. -/
def WithinBudget (log2 : α → α) (cfg : WaterfillConfig α) (stats : CurvatureStats α) (target offset : α) : Prop :=
  ∃ grid floor mean, ratedGrid log2 cfg = .ok grid ∧ floorBpw cfg grid target = .ok floor ∧
    meanBpw log2 grid floor stats offset = .ok mean ∧ mean ≤ target

namespace CurvatureAux

variable {target lo hi : α}

/-- The budget is kept exactly when the mean rate is within the target. -/
theorem withinBudget_iff (h : Filled log2 cfg stats target grid floor lo hi) (hw : weights stats ≠ 0) (offset : α) :
    WithinBudget log2 cfg stats target offset ↔ bitsAt log2 grid floor stats offset / (weights stats : α) ≤ target := by
  constructor
  · rintro ⟨grid', floor', mean, hgrid, hfloor, hmean, hle⟩
    obtain rfl := Except.ok.inj (h.grid_ok.symm.trans hgrid)
    obtain rfl := Except.ok.inj (h.floor_ok.symm.trans hfloor)
    obtain rfl := Except.ok.inj ((meanBpw_eq h hw offset).symm.trans hmean)
    exact hle
  · exact fun hle => ⟨grid, floor, _, h.grid_ok, h.floor_ok, meanBpw_eq h hw offset, hle⟩

/-- Below an offset within the target every offset is. -/
theorem WithinBudget.anti (h : Filled log2 cfg stats target grid floor lo hi) (hw : weights stats ≠ 0) {o o' : α} (ho : o ≤ o')
    (hin : WithinBudget log2 cfg stats target o') : WithinBudget log2 cfg stats target o := by
  rw [withinBudget_iff h hw] at hin ⊢
  exact (div_le_div_of_nonneg_right (bitsAt_mono h ho) (Nat.cast_nonneg _)).trans hin

/-- The loop's comparison decides whether the budget is kept. -/
theorem exceeds_iff (h : Filled log2 cfg stats target grid floor lo hi) (hw : weights stats ≠ 0) {offset : α} {b : Bool}
    (hb : ((meanBpw log2 grid floor stats offset).map fun mean => decide (target < mean)) = .ok b) :
    WithinBudget log2 cfg stats target offset ↔ b = false := by
  rw [meanBpw_eq h hw] at hb
  obtain rfl := Except.ok.inj hb
  rw [withinBudget_iff h hw, decide_eq_false_iff_not, not_lt]

/-- Where the search ends: the lower end is within the target, and no grid point from the upper end on is. -/
theorem searchOffset_ends (h : Filled log2 cfg stats target grid floor lo hi) (hw : weights stats ≠ 0)
    (hlow : WithinBudget log2 cfg stats target (-128)) :
    ∃ k : ℕ, k < 2 ^ cfg.iterations.toNat ∧ lo = -128 + 256 * k / 2 ^ cfg.iterations.toNat ∧
      (lo + hi) / 2 = -128 + 256 * k / 2 ^ cfg.iterations.toNat + 128 / 2 ^ cfg.iterations.toNat ∧
      WithinBudget log2 cfg stats target lo ∧ (k + 1 ≠ 2 ^ cfg.iterations.toNat →
        ¬ WithinBudget log2 cfg stats target (-128 + 256 * ((k + 1 : ℕ) : α) / 2 ^ cfg.iterations.toNat)) := by
  obtain ⟨k, hk, hl, hu, hin, hout⟩ := bisect_grid h.ends_ok
  have hspan : (128 : α) - -128 = 256 := by norm_num
  rw [hspan] at hl hu
  refine ⟨k, hk, hl, ?_, ?_, fun hne => ?_⟩
  · rw [hl, hu]
    ring
  · by_cases hzero : k = 0
    · rw [hl, hzero]
      simpa using hlow
    · exact (exceeds_iff h hw (hin hzero)).2 rfl
  · have hno := exceeds_iff h hw (hout hne)
    rw [hu] at hno
    push_cast
    exact fun hyes => absurd (hno.1 hyes) (by decide)

end CurvatureAux

/-- The map is within the target exactly if the mean rate, as it is searched, does not step over the target in the lower half of a
cell of the last halving. -/
theorem waterfill_within_iff (cfg : WaterfillConfig α) (stats : CurvatureStats α) (target : α) {m : List (String × List ℤ)}
    (hsize : ∀ e ∈ stats.entries, 0 < e.2.numel) (h : waterfillStages log2 cfg stats target = .ok m)
    (hlow : WithinBudget log2 cfg stats target (-128)) :
    (∃ a, achievedBpw log2 m stats cfg.groupSize = .ok a ∧ a ≤ target) ↔
      ∀ k : ℕ, k < 2 ^ cfg.iterations.toNat →
        WithinBudget log2 cfg stats target (-128 + 256 * k / 2 ^ cfg.iterations.toNat) →
        WithinBudget log2 cfg stats target (-128 + 256 * k / 2 ^ cfg.iterations.toNat + 128 / 2 ^ cfg.iterations.toNat) := by
  obtain ⟨grid, floor, lo, hi, hfilled, rfl⟩ := waterfillStages_inv h
  have hw : weights stats ≠ 0 := by
    obtain ⟨e, he⟩ := List.exists_mem_of_ne_nil _ hfilled.stats_ne
    have hle := List.single_le_sum (fun _ _ => Nat.zero_le _) _ (List.mem_map_of_mem (f := fun e => e.2.numel) he)
    have := hsize e he
    unfold weights
    omega
  have hbought : (∃ a, achievedBpw log2 (stagesAt log2 grid floor stats ((lo + hi) / 2)) stats cfg.groupSize = .ok a ∧ a ≤ target) ↔
      WithinBudget log2 cfg stats target ((lo + hi) / 2) := by
    rw [achievedBpw_stagesAt hfilled hw, withinBudget_iff hfilled hw]
    simp
  obtain ⟨k, hk, hlo, hmid, hin, hout⟩ := searchOffset_ends hfilled hw hlow
  have hcell : (0 : α) < 2 ^ cfg.iterations.toNat := by positivity
  rw [hbought, hmid]
  constructor
  · intro hwithin j hj hjin
    have hjk : j ≤ k := by
      by_contra hlt
      have hnext : k + 1 ≤ j := by omega
      refine hout (by omega) (WithinBudget.anti hfilled hw ?_ hjin)
      have hcast : ((k + 1 : ℕ) : α) ≤ j := by exact_mod_cast hnext
      gcongr
    refine WithinBudget.anti hfilled hw ?_ hwithin
    have hcast : (j : α) ≤ k := by exact_mod_cast hjk
    gcongr
  · intro hall
    exact hall k hk (hlo ▸ hin)

/-- One tensor at five columns a group: rates of 2.4, 3.2, 4 and more bits, and a floor of 3.2. -/
def fivesConfig : WaterfillConfig ℚ := { groupSize := 5 }

def oneTensor : CurvatureStats ℚ := ⟨[("t", ⟨1, 1, 1000⟩)], by decide⟩

/-- One tensor at offset `-128` keeps a budget of four bits. -/
theorem withinBudget_oneTensor : WithinBudget log2Floor fivesConfig oneTensor 4 (-128) := by
  refine ⟨[([4096], 12 / 5), ([256, 256], 16 / 5), ([1024, 1024], 4), ([4096, 4096], 24 / 5), ([4096, 4096, 256], 32 / 5),
    ([4096, 4096, 4096], 36 / 5)], 16 / 5, 16 / 5, by decide +kernel, by decide +kernel, by decide +kernel, by norm_num⟩

/-- Two tensors, one of them sixteen times as sensitive. -/
def unevenTensors : CurvatureStats ℚ := ⟨[("t", ⟨1, 1, 1000⟩), ("u", ⟨16, 1, 3000⟩)], by decide⟩

/-- Their map at a target of 4.5 costs 4.4, so the mean rate does not step over the target in the lower half of a cell. -/
theorem waterfill_within_iff_unevenTensors :
    (∃ a, achievedBpw log2Floor [("t", [256, 256]), ("u", [4096, 4096])] unevenTensors 5 = .ok a ∧ a ≤ 9 / 2) ∧
      ∀ k : ℕ, k < 2 ^ 64 → WithinBudget log2Floor fivesConfig unevenTensors (9 / 2) (-128 + 256 * k / 2 ^ 64) →
        WithinBudget log2Floor fivesConfig unevenTensors (9 / 2) (-128 + 256 * k / 2 ^ 64 + 128 / 2 ^ 64) := by
  have hkept : ∃ a, achievedBpw log2Floor [("t", [256, 256]), ("u", [4096, 4096])] unevenTensors 5 = .ok a ∧ a ≤ 9 / 2 :=
    ⟨22 / 5, by decide +kernel, by norm_num⟩
  have hlow : WithinBudget log2Floor fivesConfig unevenTensors (9 / 2) (-128) :=
    ⟨[([4096], 12 / 5), ([256, 256], 16 / 5), ([1024, 1024], 4), ([4096, 4096], 24 / 5), ([4096, 4096, 256], 32 / 5),
      ([4096, 4096, 4096], 36 / 5)], 16 / 5, 16 / 5, by decide +kernel, by decide +kernel, by decide +kernel, by norm_num⟩
  exact ⟨hkept, (waterfill_within_iff fivesConfig unevenTensors (9 / 2) (by decide) (by decide +kernel) hlow).1 hkept⟩

/-- A target of 4 is accepted, the floor is 3.2 and the lower end of the search costs 3.2; the map costs 4.8. -/
theorem waterfill_not_within :
    WithinBudget log2Floor fivesConfig oneTensor 4 (-128) ∧
      waterfillStages log2Floor fivesConfig oneTensor 4 = .ok [("t", [4096, 4096])] ∧
      achievedBpw log2Floor [("t", [4096, 4096])] oneTensor 5 = .ok (24 / 5) :=
  ⟨withinBudget_oneTensor, by decide +kernel, by decide +kernel⟩

end Orka
