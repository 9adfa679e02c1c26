import Orka.Lib.Flat

/-!
# The fast Walsh–Hadamard transform

One stage of the transform replaces, in every run of `2 * h` values, the two halves `a` and `b` by `a + b` and `a - b`. The
transform of order `m` runs the stages `1, 2, 4, …, 2 ^ (m - 1)`. It is linear, acts on the two halves of its input before its
last stage, and is its own inverse up to the factor `2 ^ m`.
-/

namespace Walsh

open Flat

section Transform

variable {α : Type} [CommRing α]

/-- Entrywise `a + c * b`. -/
def axpy (c : α) (as bs : List α) : List α := List.zipWith (fun a b => a + c * b) as bs

/-- The sum and the difference of the two halves of a run. -/
def combine (h : ℕ) (run : List α) : List α := axpy 1 (run.take h) (run.drop h) ++ axpy (-1) (run.take h) (run.drop h)

/-- One stage: every run of `2 * h` values is combined. -/
def butterfly (h : ℕ) (xs : List α) : List α := ((rowsOf (xs.length / (2 * h)) (2 * h) xs).map (combine h)).flatten

/-- The stages `1, 2, 4, …, 2 ^ (m - 1)`. -/
def transform : ℕ → List α → List α
  | 0, xs => xs
  | m + 1, xs => butterfly (2 ^ m) (transform m xs)

@[simp] theorem length_axpy (c : α) (as bs : List α) : (axpy c as bs).length = min as.length bs.length := by
  simp [axpy]

theorem cell_axpy {c : α} {as bs : List α} {i : ℕ} (ha : i < as.length) (hb : i < bs.length) :
    cell (axpy c as bs) i = cell as i + c * cell bs i := cell_zipWith ha hb

/-- The sum of a sum and a difference is twice the first term. -/
theorem axpy_sum {as bs : List α} (hl : as.length = bs.length) :
    axpy 1 (axpy 1 as bs) (axpy (-1) as bs) = as.map fun x => 2 * x := by
  apply ext_cell (by simp [hl])
  intro i hi
  simp only [length_axpy] at hi
  rw [cell_axpy (by simp; omega) (by simp; omega), cell_axpy (by omega) (by omega), cell_axpy (by omega) (by omega),
    cell_map (by omega)]
  ring

/-- The difference of a sum and a difference is twice the second term. -/
theorem axpy_difference {as bs : List α} (hl : as.length = bs.length) :
    axpy (-1) (axpy 1 as bs) (axpy (-1) as bs) = bs.map fun x => 2 * x := by
  apply ext_cell (by simp [hl])
  intro i hi
  simp only [length_axpy] at hi
  rw [cell_axpy (by simp; omega) (by simp; omega), cell_axpy (by omega) (by omega), cell_axpy (by omega) (by omega),
    cell_map (by omega)]
  ring

theorem length_combine {h : ℕ} {run : List α} (hl : run.length = 2 * h) : (combine h run).length = 2 * h := by
  simp only [combine, List.length_append, length_axpy, List.length_take, List.length_drop]
  omega

/-- The cells of a combined run. -/
theorem cell_combine {h j : ℕ} {run : List α} (hl : run.length = 2 * h) (hj : j < 2 * h) :
    cell (combine h run) j = if j < h then cell run j + cell run (j + h) else cell run (j - h) - cell run j := by
  have hlen (c : α) : (axpy c (run.take h) (run.drop h)).length = h := by
    simp only [length_axpy, List.length_take, List.length_drop]
    omega
  split
  · next hlt =>
    rw [combine, cell_append_left (by rw [hlen]; exact hlt), cell_axpy (by simp; omega) (by simp; omega), cell_take hlt,
      cell_drop, one_mul, Nat.add_comm h]
  · next hge =>
    rw [combine, cell_append_right (by rw [hlen]; omega), hlen, cell_axpy (by simp; omega) (by simp; omega),
      cell_take (by omega), cell_drop, neg_one_mul, ← sub_eq_add_neg, Nat.add_sub_cancel' (by omega)]

theorem length_butterfly {h : ℕ} {xs : List α} (hd : 2 * h ∣ xs.length) : (butterfly h xs).length = xs.length := by
  have hmul : xs.length / (2 * h) * (2 * h) = xs.length := Nat.div_mul_cancel hd
  rw [butterfly, length_flatten_of_width (c := 2 * h), List.length_map, length_rowsOf, hmul]
  intro row hrow
  obtain ⟨run, hrun, rfl⟩ := List.mem_map.1 hrow
  exact length_combine (length_of_mem_rowsOf (by omega) run hrun)

/-- The cells a stage leaves: place `i` of a first half takes the sum with its partner, of a second half the difference. -/
theorem cell_butterfly {h i : ℕ} {xs : List α} (h0 : 0 < h) (hd : 2 * h ∣ xs.length) (hi : i < xs.length) :
    cell (butterfly h xs) i =
      if i % (2 * h) < h then cell xs i + cell xs (i + h) else cell xs (i - h) - cell xs i := by
  have hmul : xs.length / (2 * h) * (2 * h) = xs.length := Nat.div_mul_cancel hd
  have hrow : i / (2 * h) * (2 * h) + i % (2 * h) = i := Nat.div_add_mod' i (2 * h)
  have hmod : i % (2 * h) < 2 * h := Nat.mod_lt i (by omega)
  have hnext : i / (2 * h) * (2 * h) + 2 * h ≤ xs.length := by
    rw [← hmul, ← Nat.succ_mul]
    exact Nat.mul_le_mul_right _ ((Nat.div_lt_iff_lt_mul (by omega)).2 (by rw [hmul]; exact hi))
  have hlen : ((xs.drop (i / (2 * h) * (2 * h))).take (2 * h)).length = 2 * h := by
    rw [List.length_take, List.length_drop]
    omega
  rw [butterfly, cell_flatten_map_rowsOf (by omega) (fun row hw => length_combine hw) (by omega) (by omega),
    cell_combine hlen hmod]
  split
  · next hlt => rw [cell_take hmod, cell_take (by omega), cell_drop, cell_drop, ← Nat.add_assoc, hrow]
  · next hge =>
    rw [cell_take (by omega), cell_take hmod, cell_drop, cell_drop, hrow]
    congr 2
    omega

/-- A stage is linear. -/
theorem butterfly_axpy {h : ℕ} (c : α) {as bs : List α} (h0 : 0 < h) (hl : as.length = bs.length)
    (hd : 2 * h ∣ as.length) : butterfly h (axpy c as bs) = axpy c (butterfly h as) (butterfly h bs) := by
  have hd' : 2 * h ∣ bs.length := hl ▸ hd
  have hlen : (axpy c as bs).length = as.length := by rw [length_axpy]; omega
  have hd'' : 2 * h ∣ (axpy c as bs).length := by rw [hlen]; exact hd
  apply ext_cell
  · rw [length_butterfly hd'', length_axpy, length_axpy, length_butterfly hd, length_butterfly hd']
  · intro i hi
    rw [length_butterfly hd'', hlen] at hi
    have hmul : as.length / (2 * h) * (2 * h) = as.length := Nat.div_mul_cancel hd
    have hrow : i / (2 * h) * (2 * h) + i % (2 * h) = i := Nat.div_add_mod' i (2 * h)
    have hnext : i / (2 * h) * (2 * h) + 2 * h ≤ as.length := by
      rw [← hmul, ← Nat.succ_mul]
      exact Nat.mul_le_mul_right _ ((Nat.div_lt_iff_lt_mul (by omega)).2 (by rw [hmul]; exact hi))
    rw [cell_butterfly h0 hd'' (by omega), @cell_axpy _ _ c (butterfly h as) (butterfly h bs) i
      (by rw [length_butterfly hd]; omega) (by rw [length_butterfly hd']; omega), cell_butterfly h0 hd hi,
      cell_butterfly h0 hd' (by omega)]
    split
    · next hlt =>
      rw [cell_axpy (by omega) (by omega), cell_axpy (by omega) (by omega)]
      ring
    · next hge =>
      rw [cell_axpy (by omega) (by omega), cell_axpy (by omega) (by omega)]
      ring

/-- A stage acts on the parts of a list that its runs do not straddle. -/
theorem butterfly_append {h : ℕ} {as bs : List α} (h0 : 0 < h) (ha : 2 * h ∣ as.length) :
    butterfly h (as ++ bs) = butterfly h as ++ butterfly h bs := by
  obtain ⟨q, hq⟩ := ha
  have hdiv : (as ++ bs).length / (2 * h) = q + bs.length / (2 * h) := by
    rw [List.length_append, hq, Nat.mul_add_div (by omega)]
  have hqa : as.length / (2 * h) = q := by rw [hq, Nat.mul_div_cancel_left _ (by omega)]
  rw [butterfly, butterfly, butterfly, hdiv, hqa, rowsOf_append (by rw [hq, Nat.mul_comm]), List.map_append, List.flatten_append]

/-- The transform keeps the length. -/
theorem length_transform {m : ℕ} {xs : List α} (hd : 2 ^ m ∣ xs.length) : (transform m xs).length = xs.length := by
  induction m with
  | zero => rfl
  | succ m ih =>
    have hm : 2 ^ m ∣ xs.length := dvd_trans (pow_dvd_pow 2 (Nat.le_succ m)) hd
    rw [transform, length_butterfly, ih hm]
    rw [ih hm, ← Nat.pow_succ']
    exact hd

/-- The transform is linear. -/
theorem transform_axpy {m : ℕ} (c : α) {as bs : List α} (hl : as.length = bs.length) (hd : 2 ^ m ∣ as.length) :
    transform m (axpy c as bs) = axpy c (transform m as) (transform m bs) := by
  induction m with
  | zero => rfl
  | succ m ih =>
    have hm : 2 ^ m ∣ as.length := dvd_trans (pow_dvd_pow 2 (Nat.le_succ m)) hd
    have hm' : 2 ^ m ∣ bs.length := hl ▸ hm
    rw [transform, ih hm, butterfly_axpy c (Nat.two_pow_pos m) (by rw [length_transform hm, length_transform hm', hl])]
    · rfl
    · rw [length_transform hm, ← Nat.pow_succ']
      exact hd

/-- The transform commutes with a common factor. -/
theorem transform_map_mul {m : ℕ} (c : α) {xs : List α} (hd : 2 ^ m ∣ xs.length) :
    transform m (xs.map fun x => c * x) = (transform m xs).map fun x => c * x := by
  have hax (ys : List α) : (ys.map fun x => c * x) = axpy (c - 1) ys ys := by
    apply ext_cell (by simp)
    intro i hi
    rw [List.length_map] at hi
    rw [cell_map hi, cell_axpy hi hi]
    ring
  rw [hax, hax, transform_axpy _ rfl hd]

/-- The transform goes through whole blocks. -/
theorem transform_append {m : ℕ} {as bs : List α} (ha : 2 ^ m ∣ as.length) (hb : 2 ^ m ∣ bs.length) :
    transform m (as ++ bs) = transform m as ++ transform m bs := by
  induction m with
  | zero => rfl
  | succ m ih =>
    have ha' : 2 ^ m ∣ as.length := dvd_trans (pow_dvd_pow 2 (Nat.le_succ m)) ha
    have hb' : 2 ^ m ∣ bs.length := dvd_trans (pow_dvd_pow 2 (Nat.le_succ m)) hb
    rw [transform, ih ha' hb', butterfly_append (Nat.two_pow_pos m)]
    · rfl
    · rw [length_transform ha', ← Nat.pow_succ']
      exact ha

/-- The last stage combines the transforms of the two halves. -/
theorem transform_halves {m : ℕ} {as bs : List α} (ha : as.length = 2 ^ m) (hb : bs.length = 2 ^ m) :
    transform (m + 1) (as ++ bs) = axpy 1 (transform m as) (transform m bs) ++ axpy (-1) (transform m as) (transform m bs) := by
  have hla : (transform m as).length = 2 ^ m := by rw [length_transform (by rw [ha]), ha]
  have hlb : (transform m bs).length = 2 ^ m := by rw [length_transform (by rw [hb]), hb]
  have hrun : (transform m as ++ transform m bs).length = 2 * 2 ^ m := by
    rw [List.length_append, hla, hlb]
    omega
  rw [transform, transform_append (by rw [ha]) (by rw [hb]), butterfly, hrun, Nat.div_self (by positivity)]
  simp only [rowsOf, List.range_one, List.map_cons, List.map_nil, List.flatten_cons, List.flatten_nil, List.append_nil,
    Nat.zero_mul, List.drop_zero]
  rw [List.take_of_length_le (by omega), combine, List.take_left' hla, List.drop_left' hla]

/-- **The transform of order `m` is its own inverse up to the factor `2 ^ m`.** -/
theorem transform_transform (m : ℕ) {xs : List α} (hl : xs.length = 2 ^ m) :
    transform m (transform m xs) = xs.map fun x => (2 : α) ^ m * x := by
  induction m generalizing xs with
  | zero => simp [transform]
  | succ m ih =>
    have hta : (xs.take (2 ^ m)).length = 2 ^ m := by
      rw [List.length_take, hl, Nat.pow_succ]
      omega
    have htb : (xs.drop (2 ^ m)).length = 2 ^ m := by
      rw [List.length_drop, hl, Nat.pow_succ]
      omega
    have hlen {ys : List α} (hy : ys.length = 2 ^ m) : (transform m ys).length = 2 ^ m := by
      rw [length_transform (by rw [hy]), hy]
    have hax (c : α) : (axpy c (transform m (xs.take (2 ^ m))) (transform m (xs.drop (2 ^ m)))).length = 2 ^ m := by
      rw [length_axpy, hlen hta, hlen htb, Nat.min_self]
    have hT (c : α) : transform m (axpy c (transform m (xs.take (2 ^ m))) (transform m (xs.drop (2 ^ m)))) =
        axpy c ((xs.take (2 ^ m)).map fun x => 2 ^ m * x) ((xs.drop (2 ^ m)).map fun x => 2 ^ m * x) := by
      rw [transform_axpy c (by rw [hlen hta, hlen htb]) (by rw [hlen hta]), ih hta, ih htb]
    conv_lhs => rw [← List.take_append_drop (2 ^ m) xs, transform_halves hta htb, transform_halves (hax 1) (hax (-1))]
    conv_rhs => rw [← List.take_append_drop (2 ^ m) xs, List.map_append]
    rw [hT, hT, axpy_sum (by rw [List.length_map, List.length_map, hta, htb]),
      axpy_difference (by rw [List.length_map, List.length_map, hta, htb]), List.map_map, List.map_map]
    simp only [Function.comp_def, pow_succ', mul_assoc]

end Transform

end Walsh
