import Orka.Lib.Rans
import Orka.Ans

/-!
# The tables of the rANS coder

The frequency table divides the slots among the symbols that occur, whatever the rounding did, and the table of slots is its
inverse.
-/

namespace Orka.AnsAux

open Flat Steps

/-! ## numpy on integers -/

/-- `argmax` names a place of the list, and a greatest value. -/
theorem argmax_spec {xs : List ℤ} (h : xs ≠ []) : argmax xs < xs.length ∧ ∀ y ∈ xs, y ≤ cell xs (argmax xs) := by
  obtain ⟨m, hm, hle⟩ : ∃ m ∈ xs, ∀ y ∈ xs, y ≤ m := by
    exact ⟨xs.max h, List.max_mem h, fun y hy => List.le_max_of_mem hy⟩
  have hlt : argmax xs < xs.length := List.findIdx_lt_length_of_exists ⟨m, hm, by simpa using hle⟩
  refine ⟨hlt, ?_⟩
  have := List.findIdx_getElem (w := hlt)
  simp only [List.all_eq_true, decide_eq_true_eq] at this
  rw [cell_eq_getElem hlt]
  exact this

@[simp] theorem length_addAt (xs : List ℤ) (j : ℕ) (d : ℤ) : (addAt xs j d).length = xs.length := List.length_set

/-- Adding at one place changes that place alone. -/
theorem cell_addAt {xs : List ℤ} {j : ℕ} (hj : j < xs.length) (d : ℤ) (i : ℕ) :
    cell (addAt xs j d) i = cell xs i + if i = j then d else 0 := by
  unfold addAt
  by_cases h : i = j
  · subst h
    simp [cell, hj]
  · simp [cell, h, List.getElem?_set_ne (Ne.symm h)]

/-- Adding at one place adds to the sum. -/
theorem sum_addAt {xs : List ℤ} {j : ℕ} (hj : j < xs.length) (d : ℤ) : (addAt xs j d).sum = xs.sum + d := by
  induction xs generalizing j with
  | nil => simp at hj
  | cons x xs ih =>
    cases j with
    | zero =>
      simp only [addAt, cell_cons_zero, List.set_cons_zero, List.sum_cons]
      ring
    | succ j =>
      have := ih (j := j) (by simpa using hj)
      simp only [addAt, cell_cons_succ, List.set_cons_succ, List.sum_cons] at this ⊢
      rw [this]
      ring

/-- The symbols below which all of an array lie. -/
theorem mem_lt_bound {symbols : List ℕ} {s : ℕ} (h : s ∈ symbols) : s < symbols.foldr max 0 + 1 := by
  induction symbols with
  | nil => cases h
  | cons x xs ih =>
    rw [List.foldr_cons]
    rcases List.mem_cons.1 h with rfl | h
    · exact Nat.lt_succ_of_le (le_max_left _ _)
    · exact lt_of_lt_of_le (ih h) (Nat.succ_le_succ (le_max_right _ _))

/-- One more than the greatest symbol bounds the table. -/
theorem foldr_succ_le (symbols : List ℕ) : symbols.foldr (fun s m => max (s + 1) m) 0 ≤ symbols.foldr max 0 + 1 := by
  induction symbols with
  | nil => simp
  | cons x xs ih =>
    rw [List.foldr_cons, List.foldr_cons]
    omega

/-- The histogram of an array over the symbols up to its largest. -/
theorem bincount_eq (symbols : List ℕ) :
    bincount symbols (symbols.foldr max 0 + 1) = tabulate (symbols.foldr max 0 + 1) fun s => (symbols.count s : ℤ) := by
  rw [bincount, max_eq_left (foldr_succ_le symbols)]

/-! ## The frequency table -/

/-- Weights that are positive at the symbols of an array and zero at the others. -/
structure Covers (symbols : List ℕ) (freq : List ℤ) : Prop where
  length : freq.length = symbols.foldr max 0 + 1
  used : ∀ s ∈ symbols, 1 ≤ cell freq s
  absent : ∀ s, s ∉ symbols → cell freq s = 0

variable {symbols : List ℕ} {freq : List ℤ}

/-- No frequency of a covering table is negative. -/
theorem Covers.nonneg (h : Covers symbols freq) (s : ℕ) : 0 ≤ cell freq s := by
  by_cases hs : s ∈ symbols
  · exact zero_le_one.trans (h.used s hs)
  · exact (h.absent s hs).ge

/-- A table whose value at a symbol is positive exactly if the symbol occurs. -/
theorem covers_tabulate {g : ℕ → ℤ} (hu : ∀ s ∈ symbols, 1 ≤ g s) (ha : ∀ s, s ∉ symbols → g s = 0) :
    Covers symbols (tabulate (symbols.foldr max 0 + 1) g) := by
  refine ⟨length_tabulate _ _, fun s hs => ?_, fun s hs => ?_⟩
  · rw [cell_tabulate _ (mem_lt_bound hs)]
    exact hu s hs
  · by_cases hlt : s < symbols.foldr max 0 + 1
    · rw [cell_tabulate _ hlt]
      exact ha s hs
    · exact cell_of_le (by rw [length_tabulate]; omega)

/-- The largest weight stands at a symbol that occurs. -/
theorem Covers.argmax_mem (h : Covers symbols freq) (hne : symbols ≠ []) : argmax freq ∈ symbols := by
  obtain ⟨s, hs⟩ := List.exists_mem_of_ne_nil _ hne
  have hlt : s < freq.length := by
    rw [h.length]
    exact mem_lt_bound hs
  have hmax := (argmax_spec (List.ne_nil_of_length_pos (by omega))).2 _ (cell_mem hlt)
  by_contra hc
  have := h.absent _ hc
  have := h.used s hs
  omega

/-- Adding to a weight that stays positive. -/
theorem Covers.addAt (h : Covers symbols freq) {j : ℕ} (hj : j ∈ symbols) {d : ℤ} (hd : 1 ≤ cell freq j + d) :
    Covers symbols (addAt freq j d) := by
  have hlt : j < freq.length := by
    rw [h.length]
    exact mem_lt_bound hj
  refine ⟨by rw [length_addAt, h.length], fun s hs => ?_, fun s hs => ?_⟩
  · rw [cell_addAt hlt]
    by_cases e : s = j
    · subst e
      rwa [if_pos rfl]
    · rw [if_neg e, add_zero]
      exact h.used s hs
  · rw [cell_addAt hlt, if_neg (fun e => hs (by rwa [e])), add_zero]
    exact h.absent s hs

/-- The weights that give every symbol one slot. -/
def oneEach (symbols : List ℕ) : List ℤ := tabulate (symbols.foldr max 0 + 1) fun s => if s ∈ symbols then 1 else 0

theorem covers_oneEach (symbols : List ℕ) : Covers symbols (oneEach symbols) :=
  covers_tabulate (fun s hs => by rw [if_pos hs]) fun s hs => by rw [if_neg hs]

/-- One slot each is as many slots as there are different symbols. -/
theorem sum_oneEach_le (symbols : List ℕ) : (oneEach symbols).sum ≤ symbols.dedup.length := by
  have e : (oneEach symbols).sum = ((List.range (symbols.foldr max 0 + 1)).filter (· ∈ symbols)).length := by
    unfold oneEach tabulate
    generalize List.range _ = l
    induction l with
    | nil => rfl
    | cons s l ih =>
      rw [List.map_cons, List.sum_cons, ih, List.filter_cons]
      by_cases h : s ∈ symbols
      · simp [h, add_comm]
      · simp [h]
  rw [e]
  have hsub : ((List.range (symbols.foldr max 0 + 1)).filter (· ∈ symbols)).Subperm symbols.dedup := by
    apply List.subperm_of_subset (List.nodup_range.filter _)
    intro s hs
    simpa using (List.mem_filter.1 hs).2
  exact_mod_cast hsub.length_le

/-- Where the fallback of `build_freq_table` writes ones. -/
theorem fallback_eq {hist : List ℤ} (hc : Covers symbols hist) (hlen : freq.length = symbols.foldr max 0 + 1)
    (ha : ∀ s, s ∉ symbols → cell freq s = 0) :
    List.zipWith (fun h v : ℤ => if 0 < h then 1 else v) hist freq = oneEach symbols := by
  have hlen' := hc.length
  apply ext_cell (by simp [oneEach, hlen, hlen'])
  intro s hs
  have hs : s < symbols.foldr max 0 + 1 := by simpa [hlen, hlen'] using hs
  rw [cell_zipWith (by omega) (by omega), oneEach, cell_tabulate _ hs]
  by_cases hm : s ∈ symbols
  · rw [if_pos hm, if_pos (zero_lt_one.trans_le (hc.used s hm))]
  · rw [if_neg hm, hc.absent s hm, if_neg (lt_irrefl 0), ha s hm]

/-- **`build_freq_table` divides all slots among the symbols that occur**, however the scaled counts were rounded. -/
theorem buildFreqTable_spec (round : ℤ → ℤ → ℤ) {precision : ℕ} (hne : symbols ≠ []) (hp : 1 ≤ precision)
    (hp' : precision ≤ 16) (hd : symbols.dedup.length ≤ 2 ^ precision) :
    ∃ freq, buildFreqTable round symbols precision = .ok (freq, 0 :: cumsumInt freq, symbols.foldr max 0 + 1) ∧
      Covers symbols freq ∧ freq.sum = 2 ^ precision := by
  have hlen : symbols.length ≠ 0 := mt List.length_eq_zero_iff.1 hne
  simp only [buildFreqTable, if_neg (show ¬ (precision < 1 ∨ 16 < precision) by omega), if_pos hlen]
  generalize hh : bincount symbols (symbols.foldr max 0 + 1) = hist
  generalize hs : hist.map (fun h : ℤ => if 0 < h then max 1 (round h hist.sum) else 0) = scaled
  have hist_cov : Covers symbols hist := by
    rw [← hh, bincount_eq]
    refine covers_tabulate (fun s hs => ?_) fun s hs => ?_
    · exact_mod_cast List.count_pos_iff.2 hs
    · simp [List.count_eq_zero_of_not_mem hs]
  have cov : Covers symbols scaled := by
    have e : scaled = tabulate (symbols.foldr max 0 + 1)
        fun s => if 0 < (symbols.count s : ℤ) then max 1 (round (symbols.count s) hist.sum) else 0 := by
      rw [← hs, ← hh, bincount_eq, tabulate, List.map_map]
      rfl
    rw [e]
    refine covers_tabulate (fun s hs => ?_) fun s hs => ?_
    · rw [if_pos (by exact_mod_cast List.count_pos_iff.2 hs)]
      exact le_max_left _ _
    · simp [List.count_eq_zero_of_not_mem hs]
  refine ⟨_, rfl, ?_⟩
  have hj := cov.argmax_mem hne
  have hjlt : argmax scaled < scaled.length := by
    rw [cov.length]
    exact mem_lt_bound hj
  split
  · have hsum := sum_addAt hjlt (2 ^ precision - scaled.sum)
    split
    · -- the steal took the largest weight below one: every symbol gets one slot, the most frequent one the rest
      have hlen' : (addAt scaled (argmax scaled) (2 ^ precision - scaled.sum)).length = symbols.foldr max 0 + 1 := by
        rw [length_addAt, cov.length]
      have hzip := fallback_eq hist_cov hlen' fun s hs => by
        rw [cell_addAt hjlt, cov.absent s hs, if_neg (fun e => hs (by rwa [e])), add_zero]
      rw [hzip]
      have hle := sum_oneEach_le symbols
      have hm := hist_cov.argmax_mem hne
      have hmlt : argmax hist < (oneEach symbols).length := by
        rw [(covers_oneEach symbols).length]
        exact mem_lt_bound hm
      refine ⟨(covers_oneEach symbols).addAt hm ?_, by rw [sum_addAt hmlt]; ring⟩
      have h1 := (covers_oneEach symbols).used _ hm
      have h2 : (symbols.dedup.length : ℤ) ≤ 2 ^ precision := by exact_mod_cast hd
      omega
    · rename_i hge
      refine ⟨cov.addAt hj ?_, by rw [hsum]; ring⟩
      rw [cell_addAt hjlt, if_pos rfl] at hge
      omega
  · rename_i h0
    exact ⟨cov, by omega⟩

/-! ## Cumulative frequencies -/

/-- The number of slots before those of a symbol. -/
def slotStart (freq : List ℤ) (s : ℕ) : ℤ := (freq.take s).sum

@[simp] theorem slotStart_zero (freq : List ℤ) : slotStart freq 0 = 0 := rfl

theorem slotStart_succ {s : ℕ} (h : s < freq.length) : slotStart freq (s + 1) = slotStart freq s + cell freq s := by
  rw [slotStart, slotStart, List.take_succ_eq_append_getElem h, List.sum_append, List.sum_singleton, cell_eq_getElem h]

@[simp] theorem slotStart_length (freq : List ℤ) : slotStart freq freq.length = freq.sum := by
  rw [slotStart, List.take_length]

/-- Entry `s` of `cum` is where the slots of symbol `s` start. -/
theorem cell_cum {s : ℕ} (h : s ≤ freq.length) : cell (0 :: cumsumInt freq) s = slotStart freq s := by
  cases s with
  | zero => rfl
  | succ s =>
    rw [cell_cons_succ, cumsumInt, cell_tabulate _ h]
    rfl

/-- Later symbols have later slots. -/
theorem slotStart_mono (h : ∀ s, 0 ≤ cell freq s) {s t : ℕ} (hst : s ≤ t) (ht : t ≤ freq.length) :
    slotStart freq s ≤ slotStart freq t := by
  induction t, hst using Nat.le_induction with
  | base => exact le_refl _
  | succ t _ ih =>
    rw [slotStart_succ ht]
    have := h t
    have := ih (by omega)
    omega

theorem slotStart_nonneg (h : ∀ s, 0 ≤ cell freq s) {s : ℕ} (hs : s ≤ freq.length) : 0 ≤ slotStart freq s :=
  slotStart_mono h (Nat.zero_le s) hs

/-- No slot starts past the sum. -/
theorem slotStart_le (h : ∀ s, 0 ≤ cell freq s) {s : ℕ} (hs : s ≤ freq.length) : slotStart freq s ≤ freq.sum := by
  rw [← slotStart_length]
  exact slotStart_mono h hs (le_refl _)

/-! ## The table of slots -/

theorem sliceBound_natCast {n i : ℕ} (h : i ≤ n) : sliceBound n i = i := by
  rw [sliceBound, if_neg (by omega), Int.toNat_natCast, min_eq_left h]

/-- One value written over a slice. -/
theorem setSlice_one {α : Type} {out : List α} {a b : ℕ} (hb : b ≤ out.length) (hab : a ≤ b) (v : α) :
    setSlice out a b [v] = .ok (out.take a ++ List.replicate (b - a) v ++ out.drop b) := by
  simp only [setSlice]
  rw [min_eq_left hb, Nat.add_sub_cancel' hab]
  by_cases h : [v].length = b - a
  · rw [if_pos h, ← h]
    rfl
  · rw [if_neg h]

/-- A cell of an array after one value has been written over a slice. -/
theorem cell_setSlice_one {out : List ℤ} {a b i : ℕ} (hb : b ≤ out.length) (hab : a ≤ b) (v : ℤ) :
    cell (out.take a ++ List.replicate (b - a) v ++ out.drop b) i = if a ≤ i ∧ i < b then v else cell out i := by
  have ha : (out.take a).length = a := by
    rw [List.length_take]
    omega
  rcases Nat.lt_or_ge i a with h | h
  · rw [if_neg (by omega), List.append_assoc, cell_append_left (by omega), cell_take h]
  · rcases Nat.lt_or_ge i b with h' | h'
    · rw [if_pos ⟨h, h'⟩, cell_append_left (by rw [List.length_append, ha, List.length_replicate]; omega),
        cell_append_right (by omega), ha]
      simp only [cell, List.getD_eq_getElem?_getD]
      rw [List.getElem?_replicate_of_lt (by omega), Option.getD_some]
    · have hl : (out.take a ++ List.replicate (b - a) v).length = b := by
        rw [List.length_append, ha, List.length_replicate]
        omega
      rw [if_neg (by omega), cell_append_right (by omega), hl, cell_drop, Nat.add_sub_cancel' h']

/-- What the table of slots holds once the runs of the first `k` symbols are written. -/
structure Filled (freq : List ℤ) (m k : ℕ) (lut : List ℤ) : Prop where
  length : lut.length = m
  slot : ∀ s < k, ∀ i : ℕ, slotStart freq s ≤ i → (i : ℤ) < slotStart freq (s + 1) → cell lut i = s

/-- Writing one more run keeps those before it. -/
theorem Filled.write (h : ∀ s, 0 ≤ cell freq s) {m k : ℕ} {lut : List ℤ} (hsum : freq.sum = m) (hf : Filled freq m k lut)
    (hk : k < freq.length) : ∃ lut', setSlice lut (sliceBound m (slotStart freq k)) (sliceBound m (slotStart freq (k + 1)))
      [(k : ℤ)] = .ok lut' ∧ Filled freq m (k + 1) lut' := by
  obtain ⟨a, ha⟩ := Int.eq_ofNat_of_zero_le (slotStart_nonneg h (s := k) (by omega))
  obtain ⟨b, hb⟩ := Int.eq_ofNat_of_zero_le (slotStart_nonneg h (s := k + 1) (by omega))
  have hbm := slotStart_le h (s := k + 1) (by omega)
  have hab := slotStart_mono h (s := k) (t := k + 1) (by omega) (by omega)
  have hbl : b ≤ lut.length := by
    rw [hf.length]
    omega
  rw [ha, hb, sliceBound_natCast (by omega), sliceBound_natCast (by omega), setSlice_one hbl (by omega)]
  refine ⟨_, rfl, ?_, ?_⟩
  · have := hf.length
    simp only [List.length_append, List.length_take, List.length_replicate, List.length_drop]
    omega
  · intro s hs i hlo hhi
    rw [cell_setSlice_one hbl (by omega)]
    rcases Nat.lt_succ_iff_lt_or_eq.1 hs with hs | rfl
    · have := slotStart_mono h (s := s + 1) (t := k) hs (by omega)
      rw [if_neg (by omega)]
      exact hf.slot s hs i hlo hhi
    · rw [if_pos (by omega)]

/-- The cumulative sums are the starts of the following slots. -/
theorem cumsumInt_zipIdx (freq : List ℤ) :
    (cumsumInt freq).zipIdx = (List.range freq.length).map fun s => (slotStart freq (s + 1), s) := by
  apply List.ext_getElem (by simp [cumsumInt])
  intro i h1 h2
  simp [cumsumInt, slotStart, tabulate]

/-- **`slot_to_symbol` is the inverse of the cumulative table.** -/
theorem slotToSymbol_spec (h : ∀ s, 0 ≤ cell freq s) {precision : ℕ} (hsum : freq.sum = 2 ^ precision) :
    ∃ lut, slotToSymbol freq precision = .ok lut ∧ Filled freq (2 ^ precision) freq.length lut := by
  -- after `k` rounds the next run starts at symbol `k` and the runs before it are written
  have run : ∀ k ≤ freq.length, ∃ lut, ((List.range k).map fun s => (slotStart freq (s + 1), s)).foldlM
      (fun (st : ℤ × List ℤ) (cs : ℤ × ℕ) => (setSlice st.2 (sliceBound (2 ^ precision) st.1)
        (sliceBound (2 ^ precision) cs.1) [(cs.2 : ℤ)]).map fun lut => (cs.1, lut))
      (0, List.replicate (2 ^ precision) 0) = .ok (slotStart freq k, lut) ∧ Filled freq (2 ^ precision) k lut := by
    intro k
    induction k with
    | zero =>
      intro _
      exact ⟨_, rfl, List.length_replicate, fun s hs => absurd hs (Nat.not_lt_zero s)⟩
    | succ k ih =>
      intro hk
      obtain ⟨lut, hrun, hf⟩ := ih (by omega)
      obtain ⟨lut', hw, hf'⟩ := hf.write h (by rw [hsum]; norm_cast) (by omega)
      refine ⟨lut', ?_, hf'⟩
      rw [List.range_succ, List.map_append, List.foldlM_append, hrun]
      simp only [List.map_cons, List.map_nil, List.foldlM_cons, List.foldlM_nil]
      show Except.bind (Except.map _ (setSlice lut _ _ _)) _ = _
      rw [hw]
      rfl
  obtain ⟨lut, hrun, hf⟩ := run freq.length (le_refl _)
  refine ⟨lut, ?_, hf⟩
  rw [slotToSymbol, cumsumInt_zipIdx, hrun]
  rfl

/-! ## One symbol -/

open Rans

/-- The coder of the source: digits of 16 bits, a state from `RANS_L` on. -/
def ransCoder (precision : ℕ) (h : precision ≤ 16) : Coder where
  M := 2 ^ precision
  B := 2 ^ renormBits
  K := 2 ^ (16 - precision)
  M_pos := by positivity
  K_pos := by positivity
  M_le_B := pow_le_pow_right₀ (by norm_num) h

variable {precision : ℕ} {h16 : precision ≤ 16}

variable (precision h16) in
/-- The coder's lower bound is `RANS_L`. -/
theorem ransCoder_lower : (ransCoder precision h16).lower = ransL := by
  simp only [Coder.lower, ransCoder, ransL]
  rw [← pow_add, Nat.sub_add_cancel h16]

/-- Half of `RANS_L` over the table's size is a power of two. -/
theorem ransL_div (h16 : precision ≤ 16) : ransL / 2 ^ precision = 2 ^ (16 - precision) := by
  rw [ransL, ← Nat.sub_add_cancel h16, pow_add, Nat.add_sub_cancel]
  exact Int.mul_ediv_cancel _ (by positivity)

/-- The tables as the coder reads them at one symbol. -/
structure Tabled (freq cum lut : List ℤ) (s : ℕ) (sh : Share (ransCoder precision h16)) : Prop where
  freq : itemAt freq s = .ok sh.f
  cum : itemAt cum s = .ok sh.c
  slot : ∀ i, sh.c ≤ i → i < sh.c + sh.f → itemAt lut i = .ok s

/-- Inside the list an item is its cell. -/
theorem itemAt_natCast {xs : List ℤ} {i : ℕ} (h : i < xs.length) : itemAt xs (i : ℤ) = .ok (cell xs i) := by
  rw [itemAt, axisIndex_natCast h]
  rfl

/-- The tables give every symbol of a positive weight its share. -/
theorem tabled_of_filled (hn : ∀ s, 0 ≤ cell freq s) (hsum : freq.sum = 2 ^ precision) {lut : List ℤ}
    (hf : Filled freq (2 ^ precision) freq.length lut) {s : ℕ} (hs : 1 ≤ cell freq s) :
    ∃ sh : Share (ransCoder precision h16), Tabled freq (0 :: cumsumInt freq) lut s sh := by
  have hlt : s < freq.length := by
    by_contra hge
    rw [cell_of_le (not_lt.1 hge)] at hs
    exact absurd hs (by norm_num)
  have hsucc := slotStart_succ hlt
  have hle := slotStart_le hn (s := s + 1) hlt
  have h0 := slotStart_nonneg hn (s := s) hlt.le
  refine ⟨⟨cell freq s, slotStart freq s, zero_lt_one.trans_le hs, h0, ?_⟩, itemAt_natCast hlt, ?_, ?_⟩
  · rw [← hsucc]
    exact hle.trans_eq hsum
  · rw [itemAt_natCast (by simpa [cumsumInt] using Nat.lt_succ_of_lt hlt), cell_cum hlt.le]
  · intro i hlo hhi
    simp only at hlo hhi
    obtain ⟨i, rfl⟩ := Int.eq_ofNat_of_zero_le (h0.trans hlo)
    have hil : i < lut.length := by
      have : (i : ℤ) < ((2 ^ precision : ℕ) : ℤ) := by
        push_cast
        omega
      rw [hf.length]
      exact_mod_cast this
    show itemAt lut (i : ℤ) = _
    rw [itemAt_natCast hil, hf.slot s hlt i hlo (by rw [hsucc]; exact hhi)]

/-- The words that leave the state before a symbol: one at most. -/
def digitOut (sh : Share (ransCoder precision h16)) (x : ℤ) : List ℤ := if sh.bound ≤ x then [lowBits renormBits x] else []

/-- The renormalisation of the encoder ends after one word at most. -/
theorem emitWords_eq (sh : Share (ransCoder precision h16)) {st : Encoder} (hx : (ransCoder precision h16).Normal st.x)
    {fuel : ℕ} (hfuel : 2 ≤ fuel) : emitWords fuel sh.bound st = .ok ⟨sh.shed st.x, st.out ++ digitOut sh st.x⟩ := by
  obtain ⟨fuel, rfl⟩ := Nat.exists_eq_add_of_le' hfuel
  have hlt := (sh.shed_bounds hx).2
  by_cases h : sh.bound ≤ st.x
  · have hs : sh.shed st.x = st.x / 2 ^ renormBits := by
      rw [Share.shed, if_neg (not_lt.2 h)]
      rfl
    rw [hs] at hlt
    rw [emitWords, if_pos h, emitWords, if_neg (not_le.2 hlt), hs, digitOut, if_pos h]
  · rw [emitWords, if_neg h, Share.shed, if_pos (not_le.1 h), digitOut, if_neg h, List.append_nil]

/-- **One symbol of the encoder**: a digit is shed and the symbol is pushed. -/
theorem encodeSymbol_eq {cum lut : List ℤ} {s : ℕ} {sh : Share (ransCoder precision h16)} (ht : Tabled freq cum lut s sh)
    {st : Encoder} (hx : (ransCoder precision h16).Normal st.x) {fuel : ℕ} (hfuel : 2 ≤ fuel) :
    encodeSymbol fuel freq cum precision st s = .ok ⟨sh.push (sh.shed st.x), st.out ++ digitOut sh st.x⟩ := by
  have hb : ransL / 2 ^ precision * 2 ^ renormBits * sh.f = sh.bound := by
    rw [ransL_div h16]
    rfl
  simp only [encodeSymbol, ht.freq, ht.cum, ok_bind, ok_map, hb, emitWords_eq sh hx hfuel]
  rw [if_neg sh.f_pos.ne', Int.fdiv_eq_ediv_of_nonneg _ sh.f_pos.le, Int.fmod_eq_emod_of_nonneg _ sh.f_pos.le]
  rfl

/-- What the decoder has left to read is what the encoder had written. -/
structure Mirrors (words : List ℤ) (e : Encoder) (d : Decoder) : Prop where
  x : d.x = e.x
  pos : d.pos = e.out.length - 1
  left : e.out <+: words
  reads : ∀ q ∈ d.reads, 0 ≤ q

/-- The renormalisation of the decoder takes back the word the encoder moved out, if it moved one. -/
theorem fillWords_eq {words : List ℤ} (sh : Share (ransCoder precision h16)) {e : Encoder} {d : Decoder}
    (hx : (ransCoder precision h16).Normal e.x) (hm : Mirrors words ⟨sh.shed e.x, e.out ++ digitOut sh e.x⟩ d) {fuel : ℕ}
    (hfuel : 2 ≤ fuel) : ∃ d', fillWords fuel words d = .ok d' ∧ Mirrors words e d' ∧ d'.out = d.out := by
  obtain ⟨fuel, rfl⟩ := Nat.exists_eq_add_of_le' hfuel
  have hl := ransCoder_lower precision h16
  by_cases hlt : sh.shed e.x < ransL
  · have hb : sh.bound ≤ e.x := (sh.shed_lt_lower_iff hx).1 (by rwa [hl])
    have hdig : digitOut sh e.x = [lowBits renormBits e.x] := if_pos hb
    have hpos : d.pos = e.out.length := by
      rw [hm.pos, hdig]
      simp
    have hleft : e.out ++ [lowBits renormBits e.x] <+: words := by
      have := hm.left
      rwa [hdig] at this
    obtain ⟨rest, hrest⟩ := hleft
    have hw : itemAt words d.pos = .ok (lowBits renormBits e.x) := by
      rw [hpos, itemAt_natCast (by rw [← hrest]; simp), ← hrest, List.append_assoc, cell_append_right (le_refl _), Nat.sub_self]
      rfl
    have hback : d.x * 2 ^ renormBits + lowBits renormBits e.x = e.x := by
      rw [hm.x]
      exact sh.refill hx (by rwa [hl])
    have hnl : ¬ e.x < ransL := by
      rw [← hl]
      exact not_lt.2 hx.1
    have hread : readWord words d = .ok { d with x := e.x, pos := d.pos - 1, reads := d.reads ++ [d.pos] } := by
      simp only [readWord, hw, ok_map, hback]
    refine ⟨{ d with x := e.x, pos := d.pos - 1, reads := d.reads ++ [d.pos] }, ?_, ⟨rfl, ?_, ?_, ?_⟩, rfl⟩
    · rw [fillWords, if_pos (by rw [hm.x]; exact hlt), hread, ok_bind, fillWords, if_neg hnl]
    · show d.pos - 1 = _
      rw [hpos]
    · exact (List.prefix_append _ _).trans ⟨rest, hrest⟩
    · intro q hq
      rcases List.mem_append.1 hq with hq | hq
      · exact hm.reads q hq
      · rw [List.mem_singleton.1 hq, hpos]
        exact Int.natCast_nonneg _
  · have hkeep := sh.keep hx (by rwa [hl])
    have hb : ¬ sh.bound ≤ e.x := by
      rw [← sh.shed_lt_lower_iff hx, hl]
      exact hlt
    have hdig : digitOut sh e.x = [] := if_neg hb
    obtain ⟨h1, h2, h3, h4⟩ := hm
    rw [hdig, List.append_nil] at h2 h3
    refine ⟨d, ?_, ⟨h1.trans hkeep, h2, h3, h4⟩, rfl⟩
    rw [fillWords, if_neg (by rw [h1]; exact hlt)]

/-- **One symbol of the decoder** undoes one symbol of the encoder. -/
theorem decodeSymbol_undoes {words cum lut : List ℤ} {s : ℕ} {sh : Share (ransCoder precision h16)}
    (ht : Tabled freq cum lut s sh) {e e' : Encoder} {d : Decoder} (hx : (ransCoder precision h16).Normal e.x) {fuel : ℕ}
    (hfuel : 2 ≤ fuel) (he : encodeSymbol fuel freq cum precision e s = .ok e') (hm : Mirrors words e' d) :
    ∃ d', decodeSymbol fuel words freq cum lut precision d = .ok d' ∧ Mirrors words e d' ∧ d'.out = d.out ++ [(s : ℤ)] := by
  rw [encodeSymbol_eq ht hx hfuel] at he
  obtain rfl := Except.ok.inj he
  have hslot := sh.push_slot (sh.shed e.x)
  have hlut : itemAt lut (lowBits precision d.x) = .ok s := by
    rw [hm.x]
    exact ht.slot _ hslot.1 hslot.2
  have hpop : sh.f * (d.x / 2 ^ precision) + lowBits precision d.x - sh.c = sh.shed e.x := by
    rw [hm.x]
    exact sh.pop_push _
  obtain ⟨d', hd', hm', ho⟩ := fillWords_eq sh hx
    (d := { d with x := sh.shed e.x, out := d.out ++ [(s : ℤ)] }) ⟨rfl, hm.pos, hm.left, hm.reads⟩ hfuel
  refine ⟨d', ?_, hm', ho⟩
  simp only [decodeSymbol, hlut, ht.freq, ht.cum, ok_bind, hpop]
  exact hd'

/-! ## All symbols -/

/-- The last symbol is encoded last. -/
theorem encodeSymbols_snoc {fuel : ℕ} {cum : List ℤ} {l : List ℕ} {s : ℕ} {e : Encoder}
    (h : encodeSymbols fuel freq cum precision l = .ok e) :
    encodeSymbols fuel freq cum precision (l ++ [s]) = encodeSymbol fuel freq cum precision e s := by
  rw [encodeSymbols, List.foldlM_append]
  show Except.bind (encodeSymbols fuel freq cum precision l) _ = _
  rw [h, ok_bind, foldlM_cons_eq]
  cases encodeSymbol fuel freq cum precision e s <;> rfl

/-- The encoder runs through, and its state is in its interval after every symbol. -/
theorem encodeSymbols_ok {cum lut : List ℤ} (ht : ∀ s ∈ symbols, ∃ sh : Share (ransCoder precision h16), Tabled freq cum lut s sh)
    {fuel : ℕ} (hfuel : 2 ≤ fuel) {l : List ℕ} (hl : ∀ s ∈ l, s ∈ symbols) :
    ∃ e, encodeSymbols fuel freq cum precision l = .ok e ∧ (ransCoder precision h16).Normal e.x := by
  induction l using List.reverseRecOn with
  | nil =>
    refine ⟨_, rfl, ?_⟩
    rw [← ransCoder_lower precision h16]
    exact Coder.normal_lower _ (by norm_num [ransCoder, renormBits])
  | append_singleton l s ih =>
    obtain ⟨e, he, hx⟩ := ih fun t ht => hl t (List.mem_append_left _ ht)
    obtain ⟨sh, hsh⟩ := ht s (hl s (by simp))
    refine ⟨⟨sh.push (sh.shed e.x), e.out ++ digitOut sh e.x⟩, ?_, sh.normal_push_shed hx⟩
    rw [encodeSymbols_snoc he, encodeSymbol_eq hsh hx hfuel]

/-- The decoder starts with the state the encoder ended with. -/
theorem startDecoder_mirrors {e : Encoder} (hx : 0 ≤ e.x) (hx' : e.x < 2 ^ 32) :
    ∃ d, startDecoder (e.out ++ [lowBits renormBits e.x, lowBits renormBits (e.x / 2 ^ renormBits)]) = .ok d ∧
      Mirrors (e.out ++ [lowBits renormBits e.x, lowBits renormBits (e.x / 2 ^ renormBits)]) e d ∧ d.out = [] := by
  set lo := lowBits renormBits e.x with hlo
  set hi := lowBits renormBits (e.x / 2 ^ renormBits) with hhi
  have hlen : (e.out ++ [lo, hi]).length = e.out.length + 2 := by simp
  have h1 : itemAt (e.out ++ [lo, hi]) ((e.out.length + 1 : ℕ) : ℤ) = .ok hi := by
    rw [itemAt_natCast (by omega), cell_append_right (by omega), Nat.add_sub_cancel_left]
    rfl
  have h0 : itemAt (e.out ++ [lo, hi]) (e.out.length : ℤ) = .ok lo := by
    rw [itemAt_natCast (by omega), cell_append_right (le_refl _), Nat.sub_self]
    rfl
  have hp : ((e.out ++ [lo, hi]).length : ℤ) - 1 = ((e.out.length + 1 : ℕ) : ℤ) := by
    rw [hlen]
    push_cast
    ring
  have hp' : ((e.out.length + 1 : ℕ) : ℤ) - 1 = (e.out.length : ℤ) := by
    push_cast
    ring
  have hback : hi * 2 ^ renormBits + lo = e.x := by
    simp only [hlo, hhi, lowBits, renormBits]
    omega
  refine ⟨⟨e.x, e.out.length - 1, [], [(e.out.length + 1 : ℕ), e.out.length]⟩, ?_, ⟨rfl, rfl, List.prefix_append _ _, ?_⟩, rfl⟩
  · simp only [startDecoder, hp, h1, hp', h0, ok_bind, ok_map, hback]
    congr 2
    push_cast
    ring
  · intro q hq
    simp only [List.mem_cons, List.not_mem_nil, or_false] at hq
    omega

end Orka.AnsAux
