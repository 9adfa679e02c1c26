import Orka.Lib.Flat

/-!
# Bit streams, most significant bit first

Numbers of one width written one after another as bits, and the bits packed eight to a byte, the last byte filled up with
zeros. Bits are the numbers 0 and 1, so the lemmas on cells of `Flat` apply to them.
-/

namespace BitStream

open Flat

/-- The `w` low bits of `n`, most significant first. -/
def toBits (w n : ℕ) : List ℕ := tabulate w fun j => n / 2 ^ (w - 1 - j) % 2

/-- The number a list of bits writes, most significant first. -/
def ofBits (bs : List ℕ) : ℕ := bs.foldl (fun a b => 2 * a + b) 0

/-- Every entry of the list is a bit. -/
def AreBits (bs : List ℕ) : Prop := ∀ b ∈ bs, b < 2

/-- Eight bits to a byte, zeros after the last one. -/
def packBytes (bs : List ℕ) : List ℕ := tabulate (ceilDiv bs.length 8) fun k => ofBits (tabulate 8 fun j => cell bs (8 * k + j))

/-- The bits of each byte, one byte after another. -/
def unpackBytes (bytes : List ℕ) : List ℕ := (bytes.map (toBits 8)).flatten

/-! ## One number -/

@[simp] theorem length_toBits (w n : ℕ) : (toBits w n).length = w := by
  simp [toBits]

theorem cell_toBits {w n j : ℕ} (h : j < w) : cell (toBits w n) j = n / 2 ^ (w - 1 - j) % 2 := cell_tabulate _ h

theorem areBits_toBits (w n : ℕ) : AreBits (toBits w n) := by
  intro b hb
  simp only [toBits, tabulate, List.mem_map] at hb
  obtain ⟨j, -, rfl⟩ := hb
  exact Nat.mod_lt _ (by decide)

theorem AreBits.tail {b : ℕ} {bs : List ℕ} (h : AreBits (b :: bs)) : AreBits bs :=
  fun x hx => h x (List.mem_cons_of_mem _ hx)

theorem AreBits.cell_lt {bs : List ℕ} (h : AreBits bs) (i : ℕ) : cell bs i < 2 := by
  by_cases hi : i < bs.length
  · exact h _ (cell_mem hi)
  · rw [cell_of_le (by omega)]
    decide

/-- Reading on from `a` shifts it left by the bits read. -/
theorem foldl_ofBits (bs : List ℕ) (a : ℕ) : bs.foldl (fun a b => 2 * a + b) a = a * 2 ^ bs.length + ofBits bs := by
  induction bs generalizing a with
  | nil => simp [ofBits]
  | cons b bs ih =>
    rw [List.foldl_cons, ih]
    have h0 : ofBits (b :: bs) = b * 2 ^ bs.length + ofBits bs := by
      rw [ofBits, List.foldl_cons, ih]
      ring
    rw [h0, List.length_cons, pow_succ]
    ring

/-- The first bit carries the highest weight. -/
theorem ofBits_cons (b : ℕ) (bs : List ℕ) : ofBits (b :: bs) = b * 2 ^ bs.length + ofBits bs := by
  rw [ofBits, List.foldl_cons, foldl_ofBits]
  ring

/-- `n` bits make a number below `2 ^ n`. -/
theorem ofBits_lt {bs : List ℕ} (h : AreBits bs) : ofBits bs < 2 ^ bs.length := by
  induction bs with
  | nil => simp [ofBits]
  | cons b bs ih =>
    have hb : b < 2 := h b (by simp)
    have := ih h.tail
    rw [ofBits_cons, List.length_cons, pow_succ]
    nlinarith

/-- Bit `j` of the number a list of bits writes is entry `j` of the list. -/
theorem ofBits_div_mod {bs : List ℕ} (h : AreBits bs) {j : ℕ} (hj : j < bs.length) :
    ofBits bs / 2 ^ (bs.length - 1 - j) % 2 = cell bs j := by
  induction bs generalizing j with
  | nil => simp at hj
  | cons b bs ih =>
    have hlt := ofBits_lt h.tail
    have hb : b < 2 := h b (by simp)
    rw [ofBits_cons]
    cases j with
    | zero =>
      rw [List.length_cons, Nat.add_sub_cancel, Nat.sub_zero, Nat.add_comm, Nat.add_mul_div_right _ _ (by positivity),
        Nat.div_eq_of_lt hlt, Nat.zero_add, cell_cons_zero, Nat.mod_eq_of_lt hb]
    | succ j =>
      have hj' : j < bs.length := by simpa using hj
      rw [cell_cons_succ, ← ih h.tail hj', List.length_cons]
      have e : bs.length + 1 - 1 - (j + 1) = bs.length - 1 - j := by omega
      have hp : b * 2 ^ bs.length = 2 ^ (bs.length - 1 - j) * (2 * (b * 2 ^ j)) := by
        have : (2 : ℕ) ^ bs.length = 2 ^ (bs.length - 1 - j) * 2 ^ (j + 1) := by
          rw [← pow_add]
          congr 1
          omega
        rw [this, pow_succ]
        ring
      rw [e, hp, Nat.mul_add_div (by positivity), Nat.mul_add_mod]

/-- One bit more is written in front. -/
theorem toBits_succ (w n : ℕ) : toBits (w + 1) n = (n / 2 ^ w % 2) :: toBits w n := by
  apply ext_cell (by simp)
  intro j hj
  rw [length_toBits] at hj
  rw [cell_toBits hj]
  cases j with
  | zero => rw [cell_cons_zero, Nat.add_sub_cancel, Nat.sub_zero]
  | succ j =>
    rw [cell_cons_succ, cell_toBits (by omega)]
    congr 3
    omega

/-- The `w` low bits of a number write its remainder modulo `2 ^ w`. -/
theorem ofBits_toBits (w n : ℕ) : ofBits (toBits w n) = n % 2 ^ w := by
  induction w with
  | zero => simp [toBits, tabulate, ofBits, Nat.mod_one]
  | succ w ih =>
    rw [toBits_succ, ofBits_cons, length_toBits, ih, pow_succ, Nat.mod_mul]
    ring

/-! ## Bytes -/

@[simp] theorem length_packBytes (bs : List ℕ) : (packBytes bs).length = ceilDiv bs.length 8 := by
  simp [packBytes]

theorem length_unpackBytes (bytes : List ℕ) : (unpackBytes bytes).length = bytes.length * 8 := by
  rw [unpackBytes, length_flatten_of_width (c := 8), List.length_map]
  simp

/-- Bit `i` of a byte stream is bit `i % 8` of byte `i / 8`. -/
theorem cell_unpackBytes {bytes : List ℕ} {i : ℕ} (h : i < bytes.length * 8) :
    cell (unpackBytes bytes) i = cell bytes (i / 8) / 2 ^ (7 - i % 8) % 2 := by
  have hr : i / 8 < bytes.length := (Nat.div_lt_iff_lt_mul (by decide)).2 h
  rw [unpackBytes, cell_flatten (c := 8) (by decide) (by simp)]
  have : (bytes.map (toBits 8)).getD (i / 8) [] = toBits 8 (cell bytes (i / 8)) := by
    simp [cell, hr]
  rw [this, cell_toBits (Nat.mod_lt i (by decide))]

theorem areBits_window {bs : List ℕ} (h : AreBits bs) (k : ℕ) : AreBits (tabulate 8 fun j => cell bs (8 * k + j)) := by
  intro b hb
  simp only [tabulate, List.mem_map] at hb
  obtain ⟨j, -, rfl⟩ := hb
  exact h.cell_lt _

/-- A packed byte is below 256. -/
theorem packBytes_lt {bs : List ℕ} (h : AreBits bs) : ∀ b ∈ packBytes bs, b < 256 := by
  intro b hb
  simp only [packBytes, tabulate, List.mem_map] at hb
  obtain ⟨k, -, rfl⟩ := hb
  have := ofBits_lt (areBits_window h k)
  simpa [tabulate] using this

/-- Unpacking what was packed: bit `i` is bit `i` of the list, zero in the filling of the last byte. -/
theorem cell_unpackBytes_packBytes {bs : List ℕ} (h : AreBits bs) (i : ℕ) :
    cell (unpackBytes (packBytes bs)) i = cell bs i := by
  by_cases hi : i < ceilDiv bs.length 8 * 8
  · have hr : i / 8 < ceilDiv bs.length 8 := (Nat.div_lt_iff_lt_mul (by decide)).2 hi
    rw [cell_unpackBytes (by simpa using hi), packBytes, cell_tabulate _ hr]
    have hm : i % 8 < 8 := Nat.mod_lt _ (by decide)
    have := ofBits_div_mod (areBits_window h (i / 8)) (j := i % 8) (by simpa using hm)
    rw [length_tabulate, cell_tabulate _ hm, Nat.div_add_mod] at this
    exact this
  · have : bs.length ≤ ceilDiv bs.length 8 * 8 := by
      rw [ceilDiv_mul (by decide)]
      omega
    rw [cell_of_le (by rw [length_unpackBytes, length_packBytes]; omega), cell_of_le (by omega)]

/-- The first bits of the unpacked stream are the bits packed. -/
theorem unpackBytes_packBytes {bs : List ℕ} (h : AreBits bs) : (unpackBytes (packBytes bs)).take bs.length = bs := by
  have hl : bs.length ≤ ceilDiv bs.length 8 * 8 := by
    rw [ceilDiv_mul (by decide)]
    omega
  apply ext_cell
  · rw [List.length_take, length_unpackBytes, length_packBytes]
    omega
  · intro i hi
    rw [List.length_take] at hi
    rw [cell_take (by omega), cell_unpackBytes_packBytes h]

/-- A stream that fills whole bytes can be packed in two parts. -/
theorem packBytes_append {as bs : List ℕ} (h : 8 ∣ as.length) : packBytes (as ++ bs) = packBytes as ++ packBytes bs := by
  obtain ⟨q, hq⟩ := h
  have hqa : ceilDiv as.length 8 = q := by rw [hq]; unfold ceilDiv; omega
  have hql : ceilDiv (as ++ bs).length 8 = q + ceilDiv bs.length 8 := by
    rw [List.length_append, hq]; unfold ceilDiv; omega
  apply ext_cell
  · rw [length_packBytes, hql, List.length_append, length_packBytes, length_packBytes, hqa]
  · intro k hk
    rw [length_packBytes, hql] at hk
    by_cases hkq : k < q
    · rw [cell_append_left (by simpa [hqa] using hkq), packBytes, packBytes, cell_tabulate _ (by omega),
        cell_tabulate _ (by omega)]
      congr 1
      apply tabulate_congr
      intro j hj
      exact cell_append_left (by omega)
    · rw [cell_append_right (by simpa [hqa] using hkq), length_packBytes, hqa, packBytes, packBytes,
        cell_tabulate _ (by omega), cell_tabulate _ (by omega)]
      congr 1
      apply tabulate_congr
      intro j hj
      rw [cell_append_right (by omega)]
      congr 1
      omega

/-- Bytes dropped from a stream drop eight bits each. -/
theorem unpackBytes_drop (bytes : List ℕ) (n : ℕ) : unpackBytes (bytes.drop n) = (unpackBytes bytes).drop (n * 8) := by
  induction n generalizing bytes with
  | zero => simp
  | succ n ih =>
    cases bytes with
    | nil => simp [unpackBytes]
    | cons b bytes =>
      rw [List.drop_succ_cons, ih]
      have : unpackBytes (b :: bytes) = toBits 8 b ++ unpackBytes bytes := rfl
      have hd : (toBits 8 b).drop ((n + 1) * 8) = [] := List.drop_eq_nil_of_le (by rw [length_toBits]; omega)
      have he : (n + 1) * 8 - 8 = n * 8 := by omega
      rw [this, List.drop_append, length_toBits, hd, he, List.nil_append]

/-- Bytes taken from a stream hold eight bits each. -/
theorem unpackBytes_take (bytes : List ℕ) (n : ℕ) : unpackBytes (bytes.take n) = (unpackBytes bytes).take (n * 8) := by
  induction n generalizing bytes with
  | zero => simp [unpackBytes]
  | succ n ih =>
    cases bytes with
    | nil => simp [unpackBytes]
    | cons b bytes =>
      have h (l : List ℕ) : unpackBytes (b :: l) = toBits 8 b ++ unpackBytes l := rfl
      have ht : (toBits 8 b).take ((n + 1) * 8) = toBits 8 b := List.take_of_length_le (by rw [length_toBits]; omega)
      have he : (n + 1) * 8 - 8 = n * 8 := by omega
      rw [List.take_succ_cons, h, h, ih, List.take_append, length_toBits, ht, he]

end BitStream
