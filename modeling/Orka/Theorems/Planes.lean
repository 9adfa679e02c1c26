import Orka.Lemmas.Planes

/-!
# One writer of index planes, four readers

The high bits are packed by the generic packer, first bit highest; a reader of two or four high bits finds them in one byte.
-/

namespace Orka

open Flat BitStream Tile PlanesAux IndexStreamAux

/-- A kernel that reads what is wanted until its bit offset wraps, and faults there, reads every position of a plane exactly as long
as the bits of the plane are counted by an `int32`. -/
theorem reads_iff {n hiBits : ℕ} (hw : hiBits = 2 ∨ hiBits = 4) {read : ℕ → Except Fault ℕ} {want : ℕ → ℕ}
    (hok : ∀ p < n, p * hiBits < 2 ^ 31 → read p = .ok (want p)) (hwrap : ∀ p, p * hiBits = 2 ^ 31 → read p = .error .outOfBounds) :
    (∀ p < n, read p = .ok (want p)) ↔ n * hiBits ≤ 2 ^ 31 := by
  constructor
  · intro hread
    by_contra hlong
    have hexists : ∃ p < n, p * hiBits = 2 ^ 31 := by
      rcases hw with rfl | rfl
      · exact ⟨2 ^ 30, by omega, by norm_num⟩
      · exact ⟨2 ^ 29, by omega, by norm_num⟩
    obtain ⟨p, hp, hbit⟩ := hexists
    have hfault := hwrap p hbit
    rw [hread p hp] at hfault
    cases hfault
  · intro hle p hp
    exact hok p hp ((Nat.mul_lt_mul_of_pos_right hp (by omega)).trans_le hle)

/-- **The readers of the planes.** For every list of indices below `2 ^ width`: at every width from 9 to 63 the file reader inverts
the writer; at width 10 and 12 the planes have the lengths the layer registers and the layer reads the whole list back. The CUDA
and the Triton kernels read every index, with every byte inside the planes, exactly as long as the bits of the high plane are
counted by an `int32`. -/
theorem planes_recovered_iff (idxs : List ℕ) :
    (∀ width, 9 ≤ width → width ≤ 63 → (∀ i ∈ idxs, i < 2 ^ width) →
      ∃ lo hi, packIndexPlanes (ints idxs) width = .ok (lo, hi) ∧
        unpackIndexPlanes lo hi width idxs.length = .ok (ints idxs)) ∧
    ∀ width, width = 10 ∨ width = 12 → (∀ i ∈ idxs, i < 2 ^ width) →
      ∃ lo hi, packIndexPlanes (ints idxs) width = .ok (lo, hi) ∧ lo.length = idxs.length ∧
        hi.length = hiBytes idxs.length width ∧
        (∀ (α : Type) (s : StageBuffers α), s.planeWidth = width → s.lo = lo → s.hi = hi → s.indicesInt = .ok (ints idxs)) ∧
        ((∀ p < idxs.length, cudaPlaneIndex lo hi (width - 8) p = .ok (cell idxs p)) ↔ idxs.length * (width - 8) ≤ 2 ^ 31) ∧
        ((∀ p < idxs.length, tritonPlaneIndex lo hi (width - 8) p true = .ok (cell idxs p)) ↔
          idxs.length * (width - 8) ≤ 2 ^ 31) := by
  constructor
  · intro width h9 h63 h
    exact ⟨_, _, packIndexPlanes_ok (by omega) h63 h, unpackIndexPlanes_ok (by omega) h63 h⟩
  · intro width hw h
    have hbits : width - 8 = 2 ∨ width - 8 = 4 := by omega
    refine ⟨_, _, packIndexPlanes_ok (by omega) (by omega) h, by simp, ?_, ?_, ?_, ?_⟩
    · rw [length_packBytes, length_bitmat, List.length_map]
      rfl
    · intro α s hp hlo hhi
      exact indicesInt_planes hw hp h hlo hhi
    · exact reads_iff hbits (fun p hp hfit => (planeIndex_ok hw h hp hfit).1) fun p hp => (planeIndex_wraps hbits hp _ _).1
    · exact reads_iff hbits (fun p hp hfit => (planeIndex_ok hw h hp hfit).2) fun p hp => (planeIndex_wraps hbits hp _ _).2

/-- Three indices in planes of ten bits. -/
theorem planes_recovered_iff_ten :
    (∃ lo hi, packIndexPlanes (ints [1023, 5, 700]) 10 = .ok (lo, hi) ∧
      unpackIndexPlanes lo hi 10 3 = .ok (ints [1023, 5, 700])) ∧
    ∃ lo hi, packIndexPlanes (ints [1023, 5, 700]) 10 = .ok (lo, hi) ∧ lo.length = 3 ∧ hi.length = hiBytes 3 10 ∧
      (∀ (α : Type) (s : StageBuffers α), s.planeWidth = 10 → s.lo = lo → s.hi = hi →
        s.indicesInt = .ok (ints [1023, 5, 700])) ∧
      ((∀ p < 3, cudaPlaneIndex lo hi 2 p = .ok (cell [1023, 5, 700] p)) ↔ 3 * 2 ≤ 2 ^ 31) ∧
      ((∀ p < 3, tritonPlaneIndex lo hi 2 p true = .ok (cell [1023, 5, 700] p)) ↔ 3 * 2 ≤ 2 ^ 31) :=
  ⟨(planes_recovered_iff [1023, 5, 700]).1 10 (by decide) (by decide) (by decide),
    (planes_recovered_iff [1023, 5, 700]).2 10 (by decide) (by decide)⟩

/-- One index more than `2 ^ 29` at width 12: the kernels leave the high plane at the last one. -/
theorem planes_lost :
    ∃ lo hi, packIndexPlanes (ints (List.replicate (2 ^ 29 + 1) 0)) 12 = .ok (lo, hi) ∧
      2 ^ 29 < (List.replicate (2 ^ 29 + 1) 0).length ∧
      cudaPlaneIndex lo hi 4 (2 ^ 29) = .error .outOfBounds ∧ tritonPlaneIndex lo hi 4 (2 ^ 29) true = .error .outOfBounds := by
  have hlt : ∀ i ∈ List.replicate (2 ^ 29 + 1) 0, i < 2 ^ 12 := by
    intro i hi
    rw [List.eq_of_mem_replicate hi]
    norm_num
  refine ⟨_, _, packIndexPlanes_ok (by norm_num) (by norm_num) hlt, ?_, planeIndex_wraps (.inr rfl) (by norm_num) _ _⟩
  rw [List.length_replicate]
  omega

end Orka
