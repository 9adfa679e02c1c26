import Orka.Lib.Flat
import Orka.Lib.Steps

/-!
# Loops over buffers

A C function on flat buffers: reads and writes that leave the program when they fall outside, counting loops, and what a loop leaves
that changes one cell a round. A function that returns a code early leaves in the same way.
-/

namespace Buffer

open Flat Steps

/-- How a function ends before its last statement. -/
inductive Exit where
  | outOfBounds
  | returned (code : ℤ)
  deriving DecidableEq, Repr

section Access

variable {β : Type}

/-- `buf[off]`. -/
def peek (buf : List β) (off : ℤ) : Except Exit β :=
  match buf[off.toNat]? with
  | some v => if 0 ≤ off then .ok v else .error .outOfBounds
  | none => .error .outOfBounds

/-- `buf[off] = v`. -/
def poke (buf : List β) (off : ℤ) (v : β) : Except Exit (List β) :=
  if 0 ≤ off ∧ off < buf.length then .ok (buf.set off.toNat v) else .error .outOfBounds

/-- Inside the buffer a read gives the entry. -/
theorem peek_getElem {buf : List β} {i : ℕ} (h : i < buf.length) : peek buf i = .ok buf[i] := by
  rw [peek, Int.toNat_natCast, List.getElem?_eq_getElem h]
  exact if_pos (Int.natCast_nonneg i)

theorem peek_ok [Zero β] {buf : List β} {i : ℕ} (h : i < buf.length) : peek buf i = .ok (cell buf i) := by
  rw [peek_getElem h, cell_eq_getElem h]

theorem poke_ok {buf : List β} {i : ℕ} (h : i < buf.length) (v : β) : poke buf i v = .ok (buf.set i v) := by
  rw [poke, if_pos (by omega), Int.toNat_natCast]

end Access

/-! ## Counting loops -/

section Loop

variable {σ ε : Type}

/-- `for (i = 0; i < n; ++i) step`. -/
def loop (n : ℤ) (step : ℤ → σ → Except ε σ) (s : σ) : Except ε σ := (List.range n.toNat).foldlM (fun s (i : ℕ) => step i s) s

variable {step step' : ℤ → σ → Except ε σ} {s : σ}

/-- A loop to zero or below does nothing. -/
theorem loop_of_nonpos {n : ℤ} (h : n ≤ 0) : loop n step s = .ok s := by
  rw [loop, Int.toNat_of_nonpos h]
  rfl

/-- A loop's last turn comes after the others. -/
theorem loop_succ (n : ℕ) : loop (n + 1 : ℕ) step s = (loop n step s).bind (step n) := by
  rw [loop, loop, Int.toNat_natCast, Int.toNat_natCast, List.range_succ, List.foldlM_append]
  refine congrArg (Except.bind _) (funext fun t => ?_)
  rw [foldlM_cons_eq]
  cases step n t <;> rfl

/-- A loop whose rounds change nothing. -/
theorem loop_skip {n : ℕ} (h : ∀ i < n, step (i : ℤ) s = .ok s) : loop n step s = .ok s := by
  induction n with
  | zero => rfl
  | succ n ih => rw [loop_succ, ih fun i hi => h i (by omega), ok_bind, h n (Nat.lt_succ_self n)]

/-- A loop that reads one list from its start on. -/
theorem loop_eq_foldlM {ι : Type} {f : σ → ι → Except ε σ} {xs : List ι}
    (h : ∀ i (hi : i < xs.length) t, step (i : ℤ) t = f t xs[i]) : loop xs.length step s = xs.foldlM f s := by
  induction xs using List.reverseRecOn with
  | nil => rfl
  | append_singleton xs x ih =>
    have hlast : xs.length < (xs ++ [x]).length := by simp
    have hrest : ∀ i (hi : i < xs.length) t, step (i : ℤ) t = f t xs[i] := fun i hi t => by
      rw [h i (hi.trans hlast) t, List.getElem_append_left hi]
    rw [List.length_append, List.length_singleton, loop_succ, ih hrest, List.foldlM_append]
    refine congrArg (Except.bind _) (funext fun t => ?_)
    rw [h _ hlast t, List.getElem_concat_length rfl, foldlM_cons_eq]
    cases f t x <;> rfl

end Loop

/-! ## Loops that change one cell a round -/

section Sweep

variable {α ε : Type} [Zero α]

/-- A buffer whose `n` cells from `base` on are changed, each by its own function. -/
def overlay (base n : ℕ) (g : ℕ → α → α) (buf : List α) : List α :=
  tabulate buf.length fun p => if base ≤ p ∧ p < base + n then g (p - base) (cell buf p) else cell buf p

@[simp] theorem length_overlay (base n : ℕ) (g : ℕ → α → α) (buf : List α) : (overlay base n g buf).length = buf.length :=
  length_tabulate _ _

theorem cell_overlay {base n : ℕ} {g : ℕ → α → α} {buf : List α} {p : ℕ} (h : p < buf.length) :
    cell (overlay base n g buf) p = if base ≤ p ∧ p < base + n then g (p - base) (cell buf p) else cell buf p :=
  cell_tabulate _ h

theorem overlay_zero (base : ℕ) (g : ℕ → α → α) (buf : List α) : overlay base 0 g buf = buf := by
  refine ext_cell (length_overlay ..) fun p hp => ?_
  rw [cell_overlay (by simpa using hp), if_neg (by omega)]

/-- A loop over consecutive cells. -/
theorem sweep {step : ℤ → List α → Except ε (List α)} {g : ℕ → α → α} {buf : List α} {base n : ℕ} (hroom : base + n ≤ buf.length)
    (hstep : ∀ i < n, ∀ b : List α, b.length = buf.length → step i b = .ok (b.set (base + i) (g i (cell b (base + i))))) :
    loop n step buf = .ok (overlay base n g buf) := by
  induction n with
  | zero => rw [overlay_zero]; rfl
  | succ n ih =>
    rw [loop_succ, ih (by omega) fun i hi => hstep i (by omega), ok_bind, hstep n (Nat.lt_succ_self n) _ (length_overlay ..)]
    refine congrArg Except.ok (ext_cell (by simp) fun p hp => ?_)
    have hp : p < buf.length := by simpa using hp
    rw [cell_set (by rw [length_overlay]; omega), cell_overlay hp, cell_overlay hp, cell_overlay (by omega : base + n < buf.length)]
    by_cases h : p = base + n
    · subst h
      rw [if_pos rfl, if_neg (by omega), if_pos (by omega), Nat.add_sub_cancel_left]
    · rw [if_neg h]
      exact if_congr (by omega) rfl rfl

/-- A loop over rows of `c` cells each. -/
theorem sweep_rows {step : ℤ → List α → Except ε (List α)} {g : ℕ → α → α} {buf : List α} {c m : ℕ} (hc : 0 < c)
    (hroom : m * c ≤ buf.length)
    (hstep : ∀ v < m, ∀ b : List α, b.length = buf.length → step v b = .ok (overlay (v * c) c (fun j => g (v * c + j)) b)) :
    loop m step buf = .ok (overlay 0 (m * c) g buf) := by
  induction m with
  | zero => rw [Nat.zero_mul, overlay_zero]; rfl
  | succ m ih =>
    have hsucc : (m + 1) * c = m * c + c := Nat.succ_mul m c
    rw [loop_succ, ih (by omega) fun v hv => hstep v (by omega), ok_bind, hstep m (Nat.lt_succ_self m) _ (length_overlay ..)]
    refine congrArg Except.ok (ext_cell (by simp) fun p hp => ?_)
    have hp : p < buf.length := by simpa using hp
    rw [cell_overlay (by simpa using hp), cell_overlay hp, cell_overlay hp]
    by_cases h : m * c ≤ p ∧ p < m * c + c
    · rw [if_pos h, if_neg (by omega), if_pos (by omega), Nat.add_sub_cancel' h.1, Nat.sub_zero]
    · rw [if_neg h]
      exact if_congr (by omega) rfl rfl

/-- An overlay whose changes are given in two ways. -/
theorem overlay_congr {base n : ℕ} {g g' : ℕ → α → α} {buf : List α} (h : ∀ j < n, g j = g' j) :
    overlay base n g buf = overlay base n g' buf := by
  refine tabulate_congr fun p _ => ?_
  by_cases hp : base ≤ p ∧ p < base + n
  · rw [if_pos hp, if_pos hp, h _ (by omega)]
  · rw [if_neg hp, if_neg hp]

end Sweep

section Writes

variable {α ε : Type}

/-- A loop that writes one value a round, at a place that may lie past the end of what is written. -/
theorem loop_scatter {step : ℤ → List α → Except ε (List α)} {pos : ℕ → ℕ} {val : ℕ → α} {buf : List α} {m n : ℕ}
    (hstep : ∀ b < m, ∀ s : List α, s.length = buf.length →
      step b s = .ok (if pos b < n then s.set (pos b) (val b) else s)) :
    loop m step buf = .ok (scatter buf (((List.range m).map fun b => (pos b, val b)).filter fun w => w.1 < n)) := by
  induction m with
  | zero => rfl
  | succ m ih =>
    rw [loop_succ, ih fun b hb => hstep b (by omega), ok_bind, hstep m (Nat.lt_succ_self m) _ (length_scatter ..), List.range_succ,
      List.map_append, List.filter_append, List.map_singleton]
    by_cases h : pos m < n
    · rw [if_pos h, List.filter_singleton, decide_eq_true h, scatter, scatter, List.foldl_append]
      rfl
    · rw [if_neg h, List.filter_singleton, decide_eq_false h, cond_false, List.append_nil]

end Writes

end Buffer
