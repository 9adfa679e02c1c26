import Orka.Planes
import Orka.Lemmas.IndexStream

/-!
# Index planes

The low bytes and the packed high bits of a list of indices give the indices back, where the high bits divide a byte.
-/

namespace Orka

open Flat BitStream Steps Tile IndexStreamAux

namespace PlanesAux

/-- The high bits of the indices in one byte are the rows of its bits. -/
theorem slots_eq {hiBits byte : ℕ} (hw : hiBits = 2 ∨ hiBits = 4) (hb : byte < 256) :
    ((List.range (8 / hiBits)).map fun j => (byte >>> (8 - (j + 1) * hiBits)) &&& ((1 <<< hiBits) - 1)) =
      (rowsOf (8 / hiBits) hiBits (toBits 8 byte)).map ofBits := by
  have h2 : ∀ b < 256, ((List.range (8 / 2)).map fun j => (b >>> (8 - (j + 1) * 2)) &&& ((1 <<< 2) - 1)) =
      (rowsOf (8 / 2) 2 (toBits 8 b)).map ofBits := by decide +kernel
  have h4 : ∀ b < 256, ((List.range (8 / 4)).map fun j => (b >>> (8 - (j + 1) * 4)) &&& ((1 <<< 4) - 1)) =
      (rowsOf (8 / 4) 4 (toBits 8 b)).map ofBits := by decide +kernel
  rcases hw with rfl | rfl
  · exact h2 byte hb
  · exact h4 byte hb

/-- The rows of a byte stream, byte by byte. -/
theorem rowsOf_unpackBytes {q w : ℕ} (h8 : 8 = q * w) (bytes : List ℕ) :
    (bytes.map fun b => rowsOf q w (toBits 8 b)).flatten = rowsOf (bytes.length * q) w (unpackBytes bytes) := by
  induction bytes with
  | nil => simp [rowsOf]
  | cons b bytes ih =>
    rw [List.map_cons, List.flatten_cons, ih, List.length_cons, Nat.succ_mul, Nat.add_comm (bytes.length * q) q]
    show _ = rowsOf (q + bytes.length * q) w (toBits 8 b ++ unpackBytes bytes)
    rw [rowsOf_append (by rw [length_toBits, h8])]

/-- The first rows of a list are those of its first values. -/
theorem take_rowsOf {n m w : ℕ} {xs ys : List ℕ} (hn : n ≤ m) (hx : xs.length = n * w) :
    (rowsOf m w (xs ++ ys)).take n = rowsOf n w xs := by
  obtain ⟨d, rfl⟩ := Nat.exists_eq_add_of_le hn
  rw [rowsOf_append hx, List.take_left' (length_rowsOf n w xs)]

/-- **The high plane is read back.** -/
theorem unpackHigh_packBytes {hiBits : ℕ} (hw : hiBits = 2 ∨ hiBits = 4) {his : List ℕ} (h : ∀ v ∈ his, v < 2 ^ hiBits) :
    unpackHigh hiBits his.length (packBytes (bitmat hiBits his)) = his := by
  have h8 : 8 = 8 / hiBits * hiBits := by rcases hw with rfl | rfl <;> rfl
  have hq : 0 < 8 / hiBits := by rcases hw with rfl | rfl <;> decide
  have hlen : (bitmat hiBits his).length = his.length * hiBits := length_bitmat hiBits his
  have hslots : (packBytes (bitmat hiBits his)).map (fun byte => (List.range (8 / hiBits)).map fun j =>
      (byte >>> (8 - (j + 1) * hiBits)) &&& ((1 <<< hiBits) - 1)) =
      ((packBytes (bitmat hiBits his)).map fun b => rowsOf (8 / hiBits) hiBits (toBits 8 b)).map (List.map ofBits) := by
    rw [List.map_map]
    exact List.map_congr_left fun b hb => slots_eq hw (packBytes_lt (areBits_bitmat hiBits his) b hb)
  have hsplit : unpackBytes (packBytes (bitmat hiBits his)) =
      bitmat hiBits his ++ (unpackBytes (packBytes (bitmat hiBits his))).drop (bitmat hiBits his).length := by
    conv_lhs => rw [← List.take_append_drop (bitmat hiBits his).length (unpackBytes (packBytes (bitmat hiBits his))),
      unpackBytes_packBytes (areBits_bitmat hiBits his)]
  have hcount : his.length ≤ (packBytes (bitmat hiBits his)).length * (8 / hiBits) := by
    have hle := le_ceilDiv_mul (n := (bitmat hiBits his).length) (b := 8) (by decide)
    rw [length_packBytes]
    refine Nat.le_of_mul_le_mul_right (c := hiBits) ?_ (by rcases hw with rfl | rfl <;> decide)
    rw [Nat.mul_assoc, ← h8, ← hlen]
    exact hle
  unfold unpackHigh
  rw [hslots, ← List.map_flatten, rowsOf_unpackBytes h8, ← List.map_take, hsplit, take_rowsOf hcount hlen, bitmat_eq]
  have hrows := rowsOf_flatten (width_toBits hiBits his)
  rw [List.length_map] at hrows
  rw [hrows, List.map_map]
  conv_rhs => rw [← List.map_id his]
  exact List.map_congr_left fun v hv => by simp [ofBits_toBits, Nat.mod_eq_of_lt (h v hv)]

/-- An index is its low byte and the rest. -/
theorem join_planes (i : ℕ) : (i &&& 0xFF) ||| ((i >>> 8) <<< 8) = i := by
  apply Nat.eq_of_testBit_eq
  intro j
  rw [Nat.testBit_or, Nat.testBit_and, Nat.testBit_shiftLeft, Nat.testBit_shiftRight,
    show (0xFF : ℕ) = 2 ^ 8 - 1 from rfl, Nat.testBit_two_pow_sub_one]
  by_cases hj : j < 8
  · simp [hj]
  · simp [hj, Nat.add_sub_cancel' (Nat.le_of_not_lt hj)]
    omega

/-- The high bits of an index below `2 ^ width`. -/
theorem high_lt {width : ℕ} (hw : 8 < width) {idxs : List ℕ} (h : ∀ i ∈ idxs, i < 2 ^ width) :
    ∀ v ∈ idxs.map (· >>> 8), v < 2 ^ (width - 8) := by
  intro v hv
  obtain ⟨i, hi, rfl⟩ := List.mem_map.1 hv
  rw [Nat.shiftRight_eq_div_pow]
  refine Nat.div_lt_of_lt_mul ?_
  rw [← Nat.pow_add, Nat.add_sub_cancel' hw.le]
  exact h i hi

/-- The planes of indices below `2 ^ width`. -/
theorem packIndexPlanes_ok {width : ℕ} (hw : 8 < width) (hw' : width ≤ 63) {idxs : List ℕ} (h : ∀ i ∈ idxs, i < 2 ^ width) :
    packIndexPlanes (ints idxs) width =
      .ok (idxs.map (· &&& 0xFF), packBytes (bitmat (width - 8) (idxs.map (· >>> 8)))) := by
  have harr : (ints idxs).map (fun i => (i % 2 ^ 64).toNat) = idxs := by
    unfold ints
    rw [List.map_map]
    conv_rhs => rw [← List.map_id idxs]
    refine List.map_congr_left fun i hi => ?_
    have hlt : i < 2 ^ 63 := (h i hi).trans_le (Nat.pow_le_pow_right (by decide) hw')
    simp only [Function.comp_apply, id_eq, Int.ofNat_eq_natCast]
    omega
  unfold packIndexPlanes
  simp only [harr]
  rw [if_neg (by omega), packIndices_eq (by decide) (by decide)]
  rfl

/-- **The file reader gives the indices back**, at every width above a byte. -/
theorem unpackIndexPlanes_ok {width : ℕ} (hw : 8 < width) (hw' : width ≤ 63) {idxs : List ℕ}
    (h : ∀ i ∈ idxs, i < 2 ^ width) :
    unpackIndexPlanes (idxs.map (· &&& 0xFF)) (packBytes (bitmat (width - 8) (idxs.map (· >>> 8)))) width idxs.length =
      .ok (ints idxs) := by
  have hread := unpackIndices_eq (c := packChunkIndices) (by omega : width - 8 ≤ 63) (high_lt hw h) (by decide) (by decide)
  rw [List.length_map] at hread
  unfold unpackIndexPlanes
  split
  · next h0 =>
    rw [List.eq_nil_of_length_eq_zero h0]
    rfl
  · simp only [hread, ok_bind]
    rw [List.take_of_length_le (by simp), if_pos (by simp)]
    refine congrArg Except.ok ?_
    unfold ints
    rw [List.map_map, List.zipWith_map, List.zipWith_self]
    refine List.map_congr_left fun i hi => ?_
    have hlt : i < 2 ^ 63 := (h i hi).trans_le (Nat.pow_le_pow_right (by decide) hw')
    have hhigh : (((i >>> 8 : ℕ) : ℤ) % 2 ^ 64).toNat = i >>> 8 := by
      have := Nat.shiftRight_le i 8
      omega
    have hshift : (i >>> 8) <<< 8 % 2 ^ 64 = (i >>> 8) <<< 8 := by
      refine Nat.mod_eq_of_lt ?_
      rw [Nat.shiftLeft_eq, Nat.shiftRight_eq_div_pow]
      have := Nat.div_mul_le_self i (2 ^ 8)
      omega
    simp only [Function.comp_apply, Int.ofNat_eq_natCast]
    rw [hhigh, hshift, join_planes, toInt64_of_lt hlt]

/-- **A stage in planes holds its indices.** -/
theorem indicesInt_planes {α : Type} {s : StageBuffers α} {width : ℕ} (hw : width = 10 ∨ width = 12)
    (hp : s.planeWidth = width) {idxs : List ℕ} (h : ∀ i ∈ idxs, i < 2 ^ width) (hlo : s.lo = idxs.map (· &&& 0xFF))
    (hhi : s.hi = packBytes (bitmat (width - 8) (idxs.map (· >>> 8)))) : s.indicesInt = .ok (ints idxs) := by
  have hbits : width - 8 = 2 ∨ width - 8 = 4 := by omega
  have hhigh := unpackHigh_packBytes hbits (high_lt (by omega) h)
  rw [List.length_map] at hhigh
  unfold StageBuffers.indicesInt
  rw [if_neg (by omega), hp, hlo, hhi, List.length_map]
  simp only [hhigh]
  rw [if_pos (by simp), List.zipWith_map, List.zipWith_self, ints]
  refine congrArg Except.ok (List.map_congr_left fun i _ => ?_)
  rw [join_planes]
  rfl

/-! ## Slot arithmetic -/

/-- What the layer's reader takes out of the high plane is a slot of one byte of it. -/
theorem cell_unpackHigh {hiBits : ℕ} (hw : hiBits = 2 ∨ hiBits = 4) (hi : List ℕ) {n p : ℕ}
    (hp : p < (unpackHigh hiBits n hi).length) :
    p * hiBits / 8 < hi.length ∧ cell (unpackHigh hiBits n hi) p =
      (cell hi (p * hiBits / 8) >>> (8 - (p % (8 / hiBits) + 1) * hiBits)) &&& ((1 <<< hiBits) - 1) := by
  have h8 : 8 = 8 / hiBits * hiBits := by rcases hw with rfl | rfl <;> rfl
  have hper : 0 < 8 / hiBits := by rcases hw with rfl | rfl <;> decide
  have hbits : 0 < hiBits := by rcases hw with rfl | rfl <;> decide
  have hbyte : p * hiBits / 8 = p / (8 / hiBits) := by rw [h8, Nat.mul_div_mul_right _ _ hbits, ← h8]
  have hrow : ∀ row ∈ hi.map fun byte => (List.range (8 / hiBits)).map fun j =>
      (byte >>> (8 - (j + 1) * hiBits)) &&& ((1 <<< hiBits) - 1), row.length = 8 / hiBits := by
    intro row hrow
    obtain ⟨b, -, rfl⟩ := List.mem_map.1 hrow
    simp
  rw [unpackHigh, List.length_take, length_flatten_of_width hrow, List.length_map, lt_min_iff] at hp
  have hlen : p / (8 / hiBits) < hi.length := Nat.div_lt_of_lt_mul (by rw [Nat.mul_comm]; exact hp.2)
  rw [hbyte]
  refine ⟨hlen, ?_⟩
  rw [unpackHigh, cell_take hp.1, cell_flatten hper hrow, List.getD_eq_getElem _ _ (by rw [List.length_map]; exact hlen),
    List.getElem_map, cell_eq_getElem hlen]
  exact cell_tabulate (α := ℕ) (n := 8 / hiBits) (fun j =>
    (hi[p / (8 / hiBits)] >>> (8 - (j + 1) * hiBits)) &&& ((1 <<< hiBits) - 1)) (Nat.mod_lt p hper)

/-- The byte of a position is inside the high plane, and its slot holds the high bits. -/
theorem slot_ok {hiBits : ℕ} (hw : hiBits = 2 ∨ hiBits = 4) {his : List ℕ} (h : ∀ v ∈ his, v < 2 ^ hiBits) {p : ℕ}
    (hp : p < his.length) :
    p * hiBits / 8 < (packBytes (bitmat hiBits his)).length ∧
      (cell (packBytes (bitmat hiBits his)) (p * hiBits / 8) >>> (8 - (p % (8 / hiBits) + 1) * hiBits)) &&&
        ((1 <<< hiBits) - 1) = cell his p := by
  have hread := unpackHigh_packBytes hw h
  obtain ⟨hlen, hslot⟩ := cell_unpackHigh hw (packBytes (bitmat hiBits his)) (n := his.length) (p := p) (by rwa [hread])
  rw [hread] at hslot
  exact ⟨hlen, hslot.symm⟩

/-- A value below `2 ^ 31` does not wrap. -/
theorem wrap32_of_lt {v : ℕ} (h : v < 2 ^ 31) : wrap32 v = v := by
  unfold wrap32
  rw [Int.bmod_def]
  omega

/-- The shift of a slot, in registers. -/
theorem slotShift_eq {hiBits p : ℕ} (hw : hiBits = 2 ∨ hiBits = 4) :
    (8 - ((p : ℤ).tmod (8 / hiBits : ℕ) + 1) * hiBits).toNat = 8 - (p % (8 / hiBits) + 1) * hiBits := by
  rw [← Int.ofNat_tmod]
  rcases hw with rfl | rfl <;> omega

/-- **The kernels join a low byte and a slot**, at every position whose bit offset is an `int32`. -/
theorem planeIndex_reads {hiBits : ℕ} (hw : hiBits = 2 ∨ hiBits = 4) {lo hi : List ℕ} {p : ℕ} (hlo : p < lo.length)
    (hlen : p * hiBits / 8 < hi.length) (hfit : p * hiBits < 2 ^ 31) :
    cudaPlaneIndex lo hi hiBits p = .ok (cell lo p |||
      (((cell hi (p * hiBits / 8) >>> (8 - (p % (8 / hiBits) + 1) * hiBits)) &&& ((1 <<< hiBits) - 1)) <<< 8)) ∧
    tritonPlaneIndex lo hi hiBits p true = .ok (cell lo p |||
      (((cell hi (p * hiBits / 8) >>> (8 - (p % (8 / hiBits) + 1) * hiBits)) &&& ((1 <<< hiBits) - 1)) <<< 8)) := by
  have hpos : wrap32 (p : ℤ) = p := wrap32_of_lt ((Nat.le_mul_of_pos_right p (by omega)).trans_lt hfit)
  have hbit : wrap32 ((p : ℤ) * hiBits) = ((p * hiBits : ℕ) : ℤ) := by rw [← Nat.cast_mul, wrap32_of_lt hfit]
  constructor
  · have hbo : ((p * hiBits : ℕ) : ℤ) >>> (3 : ℕ) = ((p * hiBits / 8 : ℕ) : ℤ) := by
      rw [Int.shiftRight_eq_div_pow]
      rfl
    unfold cudaPlaneIndex
    simp only [hpos, hbit, hbo, slotShift_eq hw]
    rw [load_ok hlo 0, ok_bind, load_ok hlen 0, ok_map]
  · have hbo : ((p * hiBits : ℕ) : ℤ).tdiv 8 = ((p * hiBits / 8 : ℕ) : ℤ) := rfl
    unfold tritonPlaneIndex
    simp only [hpos, hbit, hbo, slotShift_eq hw]
    rw [load_ok hlo 0, ok_bind, load_ok hlen 0, ok_map]

/-- **The kernels read the indices** the writer has put in planes. -/
theorem planeIndex_ok {width : ℕ} (hw : width = 10 ∨ width = 12) {idxs : List ℕ} (h : ∀ i ∈ idxs, i < 2 ^ width) {p : ℕ}
    (hp : p < idxs.length) (hfit : p * (width - 8) < 2 ^ 31) :
    cudaPlaneIndex (idxs.map (· &&& 0xFF)) (packBytes (bitmat (width - 8) (idxs.map (· >>> 8)))) (width - 8) p =
      .ok (cell idxs p) ∧
    tritonPlaneIndex (idxs.map (· &&& 0xFF)) (packBytes (bitmat (width - 8) (idxs.map (· >>> 8)))) (width - 8) p true =
      .ok (cell idxs p) := by
  have hbits : width - 8 = 2 ∨ width - 8 = 4 := by omega
  obtain ⟨hlen, hslot⟩ := slot_ok hbits (high_lt (by omega) h) (p := p) (by simpa using hp)
  have hcell : cell (idxs.map (· >>> 8)) p = cell idxs p >>> 8 := cell_map hp
  have hlow : cell (idxs.map (· &&& 0xFF)) p = cell idxs p &&& 0xFF := cell_map hp
  have hreads := planeIndex_reads hbits (show p < (idxs.map (· &&& 0xFF)).length by simpa using hp) hlen hfit
  rwa [hslot, hcell, hlow, join_planes] at hreads

/-- **The kernels read the indices** the layer's reader gives. -/
theorem planeIndex_of_indicesInt {α : Type} {s : StageBuffers α} (hw : s.planeWidth - 8 = 2 ∨ s.planeWidth - 8 = 4) {idxs : List ℤ}
    (h : s.indicesInt = .ok idxs) {p : ℕ} (hp : p < idxs.length) (hfit : p * (s.planeWidth - 8) < 2 ^ 31) :
    ∃ i : ℕ, cudaPlaneIndex s.lo s.hi (s.planeWidth - 8) p = .ok i ∧
      tritonPlaneIndex s.lo s.hi (s.planeWidth - 8) p true = .ok i ∧ cell idxs p = i := by
  rw [StageBuffers.indicesInt, if_neg (by omega)] at h
  simp only at h
  split at h
  · next hhigh =>
    obtain rfl := Except.ok.inj h
    rw [List.length_zipWith, hhigh, Nat.min_self] at hp
    obtain ⟨hlen, hslot⟩ := cell_unpackHigh hw s.hi (n := s.lo.length) (p := p) (by rwa [hhigh])
    obtain ⟨hcuda, htriton⟩ := planeIndex_reads hw hp hlen hfit
    refine ⟨_, hcuda, htriton, ?_⟩
    rw [cell_zipWith hp (by rwa [hhigh]), hslot]
  · cases h

/-- A byte in front of the high plane is no byte of it, whatever the low plane has. -/
theorem loads_outOfBounds {lo hi : List ℕ} {p bo : ℤ} (hbo : bo < 0) (join : ℕ → ℕ → ℕ) :
    ((load lo p true 0).bind fun l => (load hi bo true 0).map (join l)) = .error .outOfBounds := by
  have hhigh : load hi bo true 0 = .error .outOfBounds := by
    unfold load
    rw [if_pos rfl, if_neg (by omega)]
  rw [hhigh]
  unfold load
  rw [if_pos rfl]
  split_ifs <;> rfl

/-- **At bit offset `2 ^ 31` the kernels read in front of the high plane.** -/
theorem planeIndex_wraps {hiBits p : ℕ} (hw : hiBits = 2 ∨ hiBits = 4) (hp : p * hiBits = 2 ^ 31) (lo hi : List ℕ) :
    cudaPlaneIndex lo hi hiBits p = .error .outOfBounds ∧ tritonPlaneIndex lo hi hiBits p true = .error .outOfBounds := by
  have hbit : wrap32 (wrap32 p * hiBits) = -2 ^ 31 := by
    have hpos : wrap32 p = p := wrap32_of_lt (by rcases hw with rfl | rfl <;> omega)
    rw [hpos, ← Nat.cast_mul, hp]
    rfl
  constructor
  · unfold cudaPlaneIndex
    dsimp only
    rw [hbit]
    exact loads_outOfBounds (by decide) _
  · unfold tritonPlaneIndex
    dsimp only
    rw [hbit]
    exact loads_outOfBounds (by decide) _

end PlanesAux

end Orka
