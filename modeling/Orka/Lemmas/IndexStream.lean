import Orka.Format

/-!
# Index streams: what the chunk loops leave

Each loop of `Orka.Format` is followed chunk by chunk. Since a chunk is a multiple of eight indices, it starts on a byte, so
the bytes written so far are the bytes of the bits of the indices read so far, whatever the bit width.
-/

namespace Orka

open Flat BitStream

namespace IndexStreamAux

/-- The bit matrix of a segment is the bits of its numbers. -/
theorem bitmat_eq (bits : ℕ) (seg : List ℕ) : bitmat bits seg = (seg.map (toBits bits)).flatten := by
  unfold bitmat toBits
  simp only [Nat.shiftRight_eq_div_pow, Nat.and_one_is_mod]

theorem width_toBits (bits : ℕ) (seg : List ℕ) : ∀ row ∈ seg.map (toBits bits), row.length = bits := by
  intro row hrow
  obtain ⟨v, -, rfl⟩ := List.mem_map.1 hrow
  exact length_toBits bits v

@[simp] theorem length_bitmat (bits : ℕ) (seg : List ℕ) : (bitmat bits seg).length = seg.length * bits := by
  rw [bitmat_eq, length_flatten_of_width (width_toBits bits seg), List.length_map]

/-- What a segment writes are bits. -/
theorem areBits_bitmat (bits : ℕ) (seg : List ℕ) : AreBits (bitmat bits seg) := by
  intro b hb
  rw [bitmat_eq, List.mem_flatten] at hb
  obtain ⟨row, hrow, hb⟩ := hb
  obtain ⟨v, -, rfl⟩ := List.mem_map.1 hrow
  exact areBits_toBits bits v b hb

theorem bitmat_append (bits : ℕ) (as bs : List ℕ) : bitmat bits (as ++ bs) = bitmat bits as ++ bitmat bits bs := by
  simp [bitmat]

/-- The bits of a window of indices are the window of the bits. -/
theorem bitmat_slice (bits : ℕ) (xs : List ℕ) (i n : ℕ) :
    ((bitmat bits xs).drop (i * bits)).take (n * bits) = bitmat bits ((xs.drop i).take n) := by
  rw [bitmat_eq, bitmat_eq, drop_flatten (width_toBits bits xs),
    take_flatten (fun r hr => width_toBits bits xs r (List.mem_of_mem_drop hr)), List.map_take, List.map_drop]

/-- One index, read back from its bits with the unsigned weights of the source. -/
theorem weights_sum (row : List ℕ) :
    ((List.range row.length).map fun j => cell row j * (1 <<< (row.length - 1 - j))).sum = ofBits row := by
  induction row with
  | nil => rfl
  | cons b row ih =>
    rw [List.length_cons, List.range_succ_eq_map, List.map_cons, List.sum_cons, List.map_map, ofBits_cons, ← ih]
    congr 1
    · simp [Nat.shiftLeft_eq]
    · congr 1
      apply List.map_congr_left
      intro j _
      simp only [Function.comp, Nat.succ_eq_add_one, cell_cons_succ]
      congr 2
      omega

/-- A row of bits reads back as its index. -/
theorem rowValue_toBits {bits v : ℕ} (hb : bits ≤ 63) (hv : v < 2 ^ bits) : rowValue bits (toBits bits v) = v := by
  have hw := weights_sum (toBits bits v)
  rw [length_toBits, ofBits_toBits, Nat.mod_eq_of_lt hv] at hw
  have h63 : v < 2 ^ 63 := lt_of_lt_of_le hv (Nat.pow_le_pow_right (by decide) hb)
  unfold rowValue
  rw [hw, Nat.mod_eq_of_lt (by omega), toInt64_of_lt h63]

/-- A chunk of the packed stream: all the bits before it fill whole bytes. -/
theorem packBytes_take_succ {bits c k : ℕ} {xs : List ℕ} (h8 : 8 ∣ c) (hk : k * c < xs.length) :
    packBytes (bitmat bits (xs.take (k * c))) ++ packBytes (bitmat bits (slice xs (k * c) (k * c + c))) =
      packBytes (bitmat bits (xs.take ((k + 1) * c))) := by
  have hlen : (bitmat bits (xs.take (k * c))).length = k * c * bits := by
    rw [length_bitmat, List.length_take, Nat.min_eq_left hk.le]
  rw [← packBytes_append (by rw [hlen]; exact Dvd.dvd.mul_right (Dvd.dvd.mul_left h8 k) bits), ← bitmat_append]
  congr 2
  rw [slice, Nat.add_sub_cancel_left, Nat.add_mul, Nat.one_mul, List.take_add]

theorem length_packBytes_take_le (bits n : ℕ) (xs : List ℕ) :
    (packBytes (bitmat bits (xs.take n))).length ≤ (packBytes (bitmat bits xs)).length := by
  simp only [length_packBytes, length_bitmat, List.length_take, ceilDiv]
  have : min n xs.length * bits ≤ xs.length * bits := Nat.mul_le_mul_right bits (Nat.min_le_right _ _)
  omega

/-- The packing loop, from chunk `k` on: the bytes before `pos` are those of the indices already read, so whatever the buffer
held after them, the loop ends with the bytes of all the indices. -/
theorem packLoop_eq {bits c : ℕ} {xs : List ℕ} (hc : 0 < c) (h8 : 8 ∣ c) (m : ℕ) :
    ∀ (k : ℕ) (out : List ℕ), k + m = ceilDiv xs.length c → out.length = (packBytes (bitmat bits xs)).length →
      out.take (packBytes (bitmat bits (xs.take (k * c)))).length = packBytes (bitmat bits (xs.take (k * c))) →
      packLoop xs bits c ((List.range' k m).map (· * c)) out (packBytes (bitmat bits (xs.take (k * c)))).length =
        .ok (packBytes (bitmat bits xs)) := by
  induction m with
  | zero =>
    intro k out hk hlen hout
    have hall : xs.take (k * c) = xs := by
      rw [show k = ceilDiv xs.length c by omega]
      exact List.take_of_length_le (le_ceilDiv_mul hc)
    rw [hall, ← hlen, List.take_length] at hout
    simp [packLoop, hout]
  | succ m ih =>
    intro k out hk hlen hout
    have hkc : k * c < xs.length := mul_lt_of_lt_ceilDiv hc (by omega)
    have hnext := @packBytes_take_succ bits c k xs h8 hkc
    have hlnext := congrArg List.length hnext
    rw [List.length_append] at hlnext
    have hle := length_packBytes_take_le bits ((k + 1) * c) xs
    rw [List.range'_succ, List.map_cons, packLoop]
    rw [setSlice_ok (by rw [hlen, hlnext]; exact hle) (by omega) (by omega), hout, hlnext, hnext]
    have hl' : (packBytes (bitmat bits (xs.take ((k + 1) * c))) ++
        out.drop (packBytes (bitmat bits (xs.take ((k + 1) * c)))).length).length = (packBytes (bitmat bits xs)).length := by
      rw [List.length_append, List.length_drop]
      omega
    exact ih (k + 1) _ (by omega) hl' (List.take_left)

/-- What `_pack_indices` returns: the bytes of the bits of its indices. -/
theorem packIndices_eq {xs : List ℕ} {bits c : ℕ} (hc : 0 < c) (h8 : 8 ∣ c) :
    packIndices xs bits c = .ok (packBytes (bitmat bits xs)) := by
  unfold packIndices
  by_cases hn : xs.length = 0
  · have hx : xs = [] := List.eq_nil_of_length_eq_zero hn
    subst hx
    simp [bitmat, packBytes, ceilDiv, tabulate]
  · simp only [hn, if_false]
    rw [pyRange_ok hc]
    have hlen : (List.replicate ((xs.length * bits + 7) / 8) 0).length = (packBytes (bitmat bits xs)).length := by
      rw [List.length_replicate, length_packBytes, length_bitmat]
      rfl
    have hnil : packBytes (bitmat bits (xs.take (0 * c))) = [] := by simp [bitmat, packBytes, ceilDiv, tabulate]
    have hloop := packLoop_eq hc h8 (ceilDiv xs.length c) 0 _ (by omega) hlen (by rw [hnil]; rfl)
    rw [hnil, ← List.range_eq_range'] at hloop
    exact hloop

/-- One chunk of the unpacking loop reads the bits of the indices it is to return. -/
theorem bitsChunk_eq {xs : List ℕ} {bits i j : ℕ} (h8 : 8 ∣ i) (hij : i ≤ j) (hj : j ≤ xs.length) :
    (unpackBytes (slice (packBytes (bitmat bits xs)) (i * bits / 8) ((j * bits + 7) / 8))).take ((j - i) * bits) =
      bitmat bits ((xs.drop i).take (j - i)) := by
  obtain ⟨q, rfl⟩ := h8
  have hlo : 8 * q * bits / 8 = q * bits := by rw [Nat.mul_assoc, Nat.mul_div_cancel_left _ (by decide)]
  have hsub : (j - 8 * q) * bits = j * bits - 8 * q * bits := Nat.sub_mul _ _ _
  have hle : 8 * q * bits ≤ j * bits := Nat.mul_le_mul_right bits hij
  have hle' : j * bits ≤ xs.length * bits := Nat.mul_le_mul_right bits hj
  have h8q : q * bits * 8 = 8 * q * bits := by ring
  rw [slice, unpackBytes_take, unpackBytes_drop, hlo, List.take_take, Nat.min_eq_left (by omega), h8q]
  calc ((unpackBytes (packBytes (bitmat bits xs))).drop (8 * q * bits)).take ((j - 8 * q) * bits)
      = (((unpackBytes (packBytes (bitmat bits xs))).take (bitmat bits xs).length).drop (8 * q * bits)).take
          ((j - 8 * q) * bits) := by
        rw [List.drop_take, List.take_take, length_bitmat, Nat.min_eq_left (by omega)]
    _ = ((bitmat bits xs).drop (8 * q * bits)).take ((j - 8 * q) * bits) :=
        congrArg (fun l => (l.drop (8 * q * bits)).take ((j - 8 * q) * bits)) (unpackBytes_packBytes (areBits_bitmat bits xs))
    _ = bitmat bits ((xs.drop (8 * q)).take (j - 8 * q)) := bitmat_slice bits xs (8 * q) (j - 8 * q)

/-- The rows of a chunk give its indices back. -/
theorem rows_value {seg : List ℕ} {bits : ℕ} (hb : bits ≤ 63) (h : ∀ v ∈ seg, v < 2 ^ bits) :
    (rowsOf seg.length bits (bitmat bits seg)).map (rowValue bits) = ints seg := by
  have := rowsOf_flatten (width_toBits bits seg)
  rw [List.length_map, ← bitmat_eq] at this
  rw [this, List.map_map]
  apply List.map_congr_left
  intro v hv
  rw [Function.comp_apply, rowValue_toBits hb (h v hv)]
  rfl

/-- The unpacking loop, from chunk `k` on: the values before `k * c` are the indices already read back. -/
theorem unpackLoop_eq {bits c : ℕ} {xs : List ℕ} (hb : bits ≤ 63) (hx : ∀ x ∈ xs, x < 2 ^ bits) (hc : 0 < c) (h8 : 8 ∣ c)
    (m : ℕ) :
    ∀ (k : ℕ) (out : List ℤ), k + m = ceilDiv xs.length c → out.length = xs.length →
      out.take (k * c) = ints (xs.take (k * c)) →
      unpackLoop (packBytes (bitmat bits xs)) bits xs.length c ((List.range' k m).map (· * c)) out = .ok (ints xs) := by
  induction m with
  | zero =>
    intro k out hk hlen hout
    have hkc : xs.length ≤ k * c := by
      rw [show k = ceilDiv xs.length c by omega]
      exact le_ceilDiv_mul hc
    rw [List.take_of_length_le (by omega), List.take_of_length_le hkc] at hout
    simp [unpackLoop, hout]
  | succ m ih =>
    intro k out hk hlen hout
    have hkc : k * c < xs.length := mul_lt_of_lt_ceilDiv hc (by omega)
    have hseg : ((xs.drop (k * c)).take (min (k * c + c) xs.length - k * c)).length = min (k * c + c) xs.length - k * c := by
      rw [List.length_take, List.length_drop]
      omega
    have hval := @rows_value ((xs.drop (k * c)).take (min (k * c + c) xs.length - k * c)) bits hb
      fun v hv => hx v (List.mem_of_mem_drop (List.mem_of_mem_take hv))
    rw [hseg] at hval
    rw [List.range'_succ, List.map_cons, unpackLoop]
    rw [bitsChunk_eq (Dvd.dvd.mul_left h8 k) (by omega) (Nat.min_le_right _ _), reshape_ok (by rw [length_bitmat, hseg])]
    simp only [Except.bind]
    rw [hval, setSlice_ok (by omega) (by rw [length_ints, hseg]) (by omega)]
    have htake : xs.take (k * c) ++ (xs.drop (k * c)).take (min (k * c + c) xs.length - k * c) = xs.take ((k + 1) * c) := by
      rw [← List.take_add, Nat.add_mul, Nat.one_mul]
      apply List.take_eq_take_iff.2
      omega
    have hpre : out.take (k * c) ++ ints ((xs.drop (k * c)).take (min (k * c + c) xs.length - k * c)) =
        ints (xs.take ((k + 1) * c)) := by
      rw [hout, ints, ints, ← List.map_append, htake]
      rfl
    rw [hpre]
    have hli : (ints (xs.take ((k + 1) * c))).length = min (k * c + c) xs.length := by
      rw [length_ints, List.length_take, Nat.add_mul, Nat.one_mul]
    apply ih (k + 1) _ (by omega)
    · rw [List.length_append, hli, List.length_drop]
      omega
    · rw [List.take_append]
      by_cases hfull : (k + 1) * c ≤ xs.length
      · have : min (k * c + c) xs.length = (k + 1) * c := by
          rw [Nat.add_mul, Nat.one_mul] at hfull ⊢
          omega
        rw [List.take_of_length_le (by omega), hli, this, Nat.sub_self, List.take_zero, List.append_nil]
      · have : min (k * c + c) xs.length = xs.length := by
          rw [Nat.add_mul, Nat.one_mul] at hfull
          omega
        rw [List.take_of_length_le (by omega), this, List.drop_eq_nil_of_le (by omega), List.take_nil, List.append_nil]

/-- What `_unpack_indices` reads back from the bytes of `_pack_indices`. -/
theorem unpackIndices_eq {xs : List ℕ} {bits c : ℕ} (hb : bits ≤ 63) (hx : ∀ x ∈ xs, x < 2 ^ bits) (hc : 0 < c)
    (h8 : 8 ∣ c) : unpackIndices (packBytes (bitmat bits xs)) bits xs.length c = .ok (ints xs) := by
  unfold unpackIndices
  by_cases hn : xs.length = 0
  · have hx0 : xs = [] := List.eq_nil_of_length_eq_zero hn
    subst hx0
    rfl
  · rw [if_neg hn, pyRange_ok hc]
    have := unpackLoop_eq hb hx hc h8 (ceilDiv xs.length c) 0 (List.replicate xs.length 0) (by omega)
      (by simp) (by simp [ints])
    rw [← List.range_eq_range'] at this
    exact this

end IndexStreamAux

end Orka
