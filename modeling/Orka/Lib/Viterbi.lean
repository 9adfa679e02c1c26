import Orka.Lib.Menu

/-!
# Viterbi search

Paths through a trellis of finitely many states, where every step takes a branch and pays what the branch's label costs at that
step. The search keeps the cheapest way into each state, with a large number for a state that no way leads to, and reads the
cheapest path back from its end.
-/

set_option linter.unusedSectionVars false

namespace Viterbi

open Flat Menu

/-- A branch: where it starts, where it ends and its label. -/
structure Branch where
  src : ℕ
  dst : ℕ
  label : ℕ
  deriving DecidableEq

/-- What one step of the search finds: for each state the cost of getting there, and the branch taken last. -/
structure Column (α : Type) where
  cost : List α
  src : List ℕ
  label : List ℕ

variable {α : Type} [Field α] [LinearOrder α]

section Search

variable (size : ℕ) (branches : List Branch) (inf : α)

/-- A branch that gets to its end at a lower cost replaces what was found. -/
def relax (pc : List α) (cost : ℕ → α) (col : Column α) (b : Branch) : Column α :=
  let cand := cell pc b.src + cost b.label
  if cand < cell col.cost b.dst then ⟨col.cost.set b.dst cand, col.src.set b.dst b.src, col.label.set b.dst b.label⟩ else col

/-- A column before any branch is tried. -/
def unreached : Column α := ⟨List.replicate size inf, List.replicate size 0, List.replicate size 0⟩

/-- One step of the search from the costs before it. -/
def column (pc : List α) (cost : ℕ → α) : Column α := branches.foldl (relax pc cost) (unreached size inf)

/-- The columns and the costs after the last of them; `cs` gives at each step the cost of a label. -/
def forward (cs : List (ℕ → α)) : List (Column α) × List α :=
  cs.foldl (fun acc c =>
    let col := column size branches inf acc.2 c
    (acc.1 ++ [col], col.cost)) ([], (List.replicate size inf).set 0 0)

/-- The labels on the way to a state, read from the last column back. -/
def traceback (cols : List (Column α)) (st : ℕ) : List ℕ :=
  (cols.foldr (fun col acc => (cell col.src acc.1, cell col.label acc.1 :: acc.2)) (st, [])).2

/-- The labels of the cheapest path. -/
def search (cs : List (ℕ → α)) : List ℕ :=
  let ends := forward size branches inf cs
  traceback ends.1 (argmin size (cell ends.2))

end Search

/-! ## Paths -/

/-- A path with these labels leads from one state to another. -/
def Follows (branches : List Branch) : ℕ → List ℕ → ℕ → Prop
  | s, [], d => s = d
  | s, l :: ls, d => ∃ b ∈ branches, b.src = s ∧ b.label = l ∧ Follows branches b.dst ls d

/-- What a list of labels costs. -/
def pathCost (cs : List (ℕ → α)) (ls : List ℕ) : α := (List.zipWith (fun c l => c l) cs ls).sum

variable {branches : List Branch}

/-- A path with one more label is a path and a branch after it. -/
theorem follows_snoc {s d l : ℕ} {ls : List ℕ} :
    Follows branches s (ls ++ [l]) d ↔ ∃ b ∈ branches, Follows branches s ls b.src ∧ b.label = l ∧ b.dst = d := by
  induction ls generalizing s with
  | nil =>
    constructor
    · rintro ⟨b, hb, rfl, rfl, rfl⟩
      exact ⟨b, hb, rfl, rfl, rfl⟩
    · rintro ⟨b, hb, rfl, rfl, rfl⟩
      exact ⟨b, hb, rfl, rfl, rfl⟩
  | cons l' ls ih =>
    constructor
    · rintro ⟨b', hb', hsrc, hlabel, hrest⟩
      obtain ⟨b, hb, hfrom, hl, hd⟩ := ih.1 hrest
      exact ⟨b, hb, ⟨b', hb', hsrc, hlabel, hfrom⟩, hl, hd⟩
    · rintro ⟨b, hb, ⟨b', hb', hsrc, hlabel, hfrom⟩, hl, hd⟩
      exact ⟨b', hb', hsrc, hlabel, ih.2 ⟨b, hb, hfrom, hl, hd⟩⟩

/-- A path ends at a state. -/
theorem Follows.end_lt {size s d : ℕ} {ls : List ℕ} (hdst : ∀ b ∈ branches, b.dst < size) (hs : s < size)
    (h : Follows branches s ls d) : d < size := by
  induction ls generalizing s with
  | nil => exact h ▸ hs
  | cons l ls ih =>
    obtain ⟨b, hb, -, -, hrest⟩ := h
    exact ih (hdst b hb) hrest

/-- One more label adds its cost. -/
theorem pathCost_snoc {cs : List (ℕ → α)} {c : ℕ → α} {ls : List ℕ} {l : ℕ} (h : ls.length = cs.length) :
    pathCost (cs ++ [c]) (ls ++ [l]) = pathCost cs ls + c l := by
  rw [pathCost, List.zipWith_append h.symm, List.sum_append]
  simp [pathCost]

/-! ## One step -/

section Step

variable [IsStrictOrderedRing α] {size : ℕ} {inf : α} {pc : List α} {cost : ℕ → α}

/-- What a column says after some of the branches have been tried: no cost is above that of a branch tried, and a cost below the
large number is that of the branch it names. -/
structure Relaxed (size : ℕ) (inf : α) (pc : List α) (cost : ℕ → α) (done : List Branch) (col : Column α) : Prop where
  length_cost : col.cost.length = size
  length_src : col.src.length = size
  length_label : col.label.length = size
  le_inf : ∀ d < size, cell col.cost d ≤ inf
  le_cand : ∀ b ∈ done, cell col.cost b.dst ≤ cell pc b.src + cost b.label
  back : ∀ d < size, cell col.cost d = inf ∨
    ∃ b ∈ done, b.dst = d ∧ cell col.src d = b.src ∧ cell col.label d = b.label ∧ cell col.cost d = cell pc b.src + cost b.label

/-- Before any branch every state is unreached. -/
theorem relaxed_nil : Relaxed size inf pc cost [] (unreached size inf) where
  length_cost := List.length_replicate
  length_src := List.length_replicate
  length_label := List.length_replicate
  le_inf _ hd := (cell_replicate hd inf).le
  le_cand _ hb := absurd hb (List.not_mem_nil)
  back _ hd := Or.inl (cell_replicate hd inf)

/-- Relaxing one more branch keeps the best of those seen. -/
theorem Relaxed.relax {done : List Branch} {col : Column α} {b : Branch} (h : Relaxed size inf pc cost done col) (hb : b.dst < size) :
    Relaxed size inf pc cost (done ++ [b]) (relax pc cost col b) := by
  unfold Viterbi.relax
  simp only
  split
  · next hlt =>
    have hcost := fun j => cell_set (h.length_cost ▸ hb) (cell pc b.src + cost b.label) j
    have hsrc := fun j => cell_set (h.length_src ▸ hb) b.src j
    have hlabel := fun j => cell_set (h.length_label ▸ hb) b.label j
    refine ⟨by simp [h.length_cost], by simp [h.length_src], by simp [h.length_label], fun d hd => ?_, fun b' hb' => ?_, fun d hd => ?_⟩
    · rw [hcost]
      split
      · exact hlt.le.trans (h.le_inf _ hb)
      · exact h.le_inf d hd
    · rw [hcost]
      rcases List.mem_append.1 hb' with hb' | hb'
      · split
        · next heq => exact hlt.le.trans (heq ▸ h.le_cand b' hb')
        · exact h.le_cand b' hb'
      · obtain rfl := List.mem_singleton.1 hb'
        rw [if_pos rfl]
    · rw [hcost, hsrc, hlabel]
      by_cases hdb : d = b.dst
      · rw [if_pos hdb, if_pos hdb, if_pos hdb]
        exact Or.inr ⟨b, by simp, hdb.symm, rfl, rfl, rfl⟩
      · rw [if_neg hdb, if_neg hdb, if_neg hdb]
        exact (h.back d hd).imp_right fun ⟨b', hb', hrest⟩ => ⟨b', List.mem_append_left _ hb', hrest⟩
  · next hge =>
    refine ⟨h.length_cost, h.length_src, h.length_label, h.le_inf, fun b' hb' => ?_, fun d hd => ?_⟩
    · rcases List.mem_append.1 hb' with hb' | hb'
      · exact h.le_cand b' hb'
      · obtain rfl := List.mem_singleton.1 hb'
        exact not_lt.1 hge
    · exact (h.back d hd).imp_right fun ⟨b', hb', hrest⟩ => ⟨b', List.mem_append_left _ hb', hrest⟩

/-- Relaxing the rest of the branches keeps the best of all. -/
theorem relaxed_foldl {done rest : List Branch} {col : Column α} (h : Relaxed size inf pc cost done col)
    (hrest : ∀ b ∈ rest, b.dst < size) : Relaxed size inf pc cost (done ++ rest) (rest.foldl (relax pc cost) col) := by
  induction rest generalizing done col with
  | nil => simpa using h
  | cons b rest ih =>
    have hnext := ih (h.relax (hrest b List.mem_cons_self)) fun b' hb' => hrest b' (List.mem_cons_of_mem _ hb')
    rwa [List.append_assoc] at hnext

/-- A column holds the best branch into every state. -/
theorem relaxed_column (hdst : ∀ b ∈ branches, b.dst < size) :
    Relaxed size inf pc cost branches (column size branches inf pc cost) := relaxed_foldl relaxed_nil hdst

end Step

/-! ## A whole search -/

section Run

variable [IsStrictOrderedRing α] {size : ℕ} {inf : α}

/-- The labels read back are put in front of those already read. -/
theorem foldr_traceback (cols : List (Column α)) (st : ℕ) (out : List ℕ) :
    (cols.foldr (fun col acc => (cell col.src acc.1, cell col.label acc.1 :: acc.2)) (st, out)) =
      ((cols.foldr (fun col acc => (cell col.src acc.1, cell col.label acc.1 :: acc.2)) (st, ([] : List ℕ))).1,
        traceback cols st ++ out) := by
  induction cols with
  | nil => rfl
  | cons col cols ih =>
    rw [List.foldr_cons, ih, traceback]
    rfl

/-- The last column gives the last label. -/
theorem traceback_snoc (cols : List (Column α)) (col : Column α) (st : ℕ) :
    traceback (cols ++ [col]) st = traceback cols (cell col.src st) ++ [cell col.label st] := by
  rw [traceback, List.foldr_append, List.foldr_cons, List.foldr_nil, foldr_traceback]

/-- One more cost gives one more column. -/
theorem forward_snoc (cs : List (ℕ → α)) (c : ℕ → α) :
    forward size branches inf (cs ++ [c]) =
      ((forward size branches inf cs).1 ++ [column size branches inf (forward size branches inf cs).2 c],
        (column size branches inf (forward size branches inf cs).2 c).cost) := by
  rw [forward, List.foldl_append]
  rfl

/-- What the search knows after some steps: no path into a state costs less than the state's cost, and a cost below the large
number is that of the path read back from the state. -/
structure Survivors (size : ℕ) (branches : List Branch) (inf : α) (cs : List (ℕ → α)) (found : List (Column α) × List α) : Prop where
  le_inf : ∀ s < size, cell found.2 s ≤ inf
  le_path : ∀ s < size, ∀ ls : List ℕ, ls.length = cs.length → Follows branches 0 ls s → cell found.2 s ≤ pathCost cs ls
  attained : ∀ s < size, cell found.2 s < inf → Follows branches 0 (traceback found.1 s) s ∧
    (traceback found.1 s).length = cs.length ∧ pathCost cs (traceback found.1 s) = cell found.2 s

/-- At the start only the first state is reached, at no cost. -/
theorem survivors_start (hsize : 0 < size) (hinf : 0 ≤ inf) : Survivors size branches inf [] (forward size branches inf []) := by
  have hcell : ∀ s < size, cell (forward size branches inf []).2 s = if s = 0 then 0 else inf := by
    intro s hs
    have hset := cell_set (by rwa [List.length_replicate] : 0 < (List.replicate size inf).length) 0 s
    rwa [cell_replicate hs] at hset
  refine ⟨fun s hs => ?_, fun s hs ls hlen hpath => ?_, fun s hs hlt => ?_⟩
  · rw [hcell s hs]
    split
    · exact hinf
    · exact le_refl _
  · obtain rfl := List.length_eq_zero_iff.1 hlen
    obtain rfl : 0 = s := hpath
    rw [hcell 0 hs, if_pos rfl]
    rfl
  · rw [hcell s hs] at hlt ⊢
    split at hlt
    · next hzero => exact ⟨hzero.symm, rfl, by rw [if_pos hzero]; rfl⟩
    · exact absurd hlt (lt_irrefl _)

/-- One column keeps the survivors: each reached state holds a cheapest path. -/
theorem Survivors.step {cs : List (ℕ → α)} {c : ℕ → α} (hends : ∀ b ∈ branches, b.src < size ∧ b.dst < size)
    (hc : ∀ b ∈ branches, 0 ≤ c b.label) (h : Survivors size branches inf cs (forward size branches inf cs)) :
    Survivors size branches inf (cs ++ [c]) (forward size branches inf (cs ++ [c])) := by
  have hcol : Relaxed size inf (forward size branches inf cs).2 c branches (column size branches inf (forward size branches inf cs).2 c) :=
    relaxed_column fun b hb => (hends b hb).2
  rw [forward_snoc]
  refine ⟨hcol.le_inf, fun d hd ls hlen hpath => ?_, fun d hd hlt => ?_⟩
  · obtain ⟨init, l, rfl⟩ : ∃ init l, ls = init ++ [l] := by
      refine (List.eq_nil_or_concat' ls).resolve_left fun hnil => ?_
      rw [hnil] at hlen
      simp at hlen
    have hinit : init.length = cs.length := by simpa using hlen
    obtain ⟨b, hb, hfrom, rfl, rfl⟩ := follows_snoc.1 hpath
    rw [pathCost_snoc hinit]
    exact (hcol.le_cand b hb).trans (add_le_add_left (h.le_path _ (hends b hb).1 init hinit hfrom) _)
  · rcases hcol.back d hd with hfull | ⟨b, hb, hdst, hsrc, hlabel, hcost⟩
    · exact absurd hfull hlt.ne
    · have hbefore : cell (forward size branches inf cs).2 b.src < inf := by
        have hpos := hc b hb
        simp only [hcost] at hlt
        linarith
      obtain ⟨hfollows, hlen, hpaid⟩ := h.attained _ (hends b hb).1 hbefore
      simp only [traceback_snoc, hsrc, hlabel]
      refine ⟨follows_snoc.2 ⟨b, hb, hfollows, rfl, hdst⟩, by simp [hlen], ?_⟩
      rw [pathCost_snoc hlen, hpaid, hcost]

/-- After any number of columns each reached state holds a cheapest path. -/
theorem survivors_run (hends : ∀ b ∈ branches, b.src < size ∧ b.dst < size) (hsize : 0 < size) (hinf : 0 ≤ inf) (cs : List (ℕ → α))
    (hc : ∀ c ∈ cs, ∀ b ∈ branches, 0 ≤ c b.label) : Survivors size branches inf cs (forward size branches inf cs) := by
  induction cs using List.reverseRecOn with
  | nil => exact survivors_start hsize hinf
  | append_singleton cs c ih =>
    exact (ih fun c' hc' => hc c' (List.mem_append_left _ hc')).step hends (hc c (by simp))

/-- Where some path costs less than the large number, the search gives a path, and none costs less. -/
theorem search_optimal (hends : ∀ b ∈ branches, b.src < size ∧ b.dst < size) (hsize : 0 < size) (hinf : 0 ≤ inf) (cs : List (ℕ → α))
    (hc : ∀ c ∈ cs, ∀ b ∈ branches, 0 ≤ c b.label)
    (hsome : ∃ ls d, ls.length = cs.length ∧ Follows branches 0 ls d ∧ pathCost cs ls < inf) :
    (∃ d, Follows branches 0 (search size branches inf cs) d) ∧ (search size branches inf cs).length = cs.length ∧
      ∀ ls d, ls.length = cs.length → Follows branches 0 ls d → pathCost cs (search size branches inf cs) ≤ pathCost cs ls := by
  have hrun := survivors_run hends hsize hinf cs hc
  have hdst := fun b hb => (hends b hb).2
  have hbest := argmin_lt hsize (cell (forward size branches inf cs).2)
  have hleast : ∀ ls d, ls.length = cs.length → Follows branches 0 ls d →
      cell (forward size branches inf cs).2 (argmin size (cell (forward size branches inf cs).2)) ≤ pathCost cs ls := by
    intro ls d hlen hpath
    have hd := hpath.end_lt hdst hsize
    exact (argmin_le hd _).trans (hrun.le_path d hd ls hlen hpath)
  obtain ⟨ls, d, hlen, hpath, hlt⟩ := hsome
  obtain ⟨hfollows, hlength, hpaid⟩ := hrun.attained _ hbest ((hleast ls d hlen hpath).trans_lt hlt)
  exact ⟨⟨_, hfollows⟩, hlength, fun ls' d' hlen' hpath' => hpaid.trans_le (hleast ls' d' hlen' hpath')⟩

end Run

end Viterbi
