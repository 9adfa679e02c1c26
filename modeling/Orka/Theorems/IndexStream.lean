import Orka.Lemmas.IndexStream

/-!
# Packing and unpacking an index stream are inverse

Whatever the bit width, the packed bytes do not depend on the chunking, and reading them with any chunking gives the indices
back.
-/

namespace Orka

open Flat BitStream IndexStreamAux

/-- **`_unpack_indices` inverts `_pack_indices`.** At every width from 1 to 63 and for all chunk sizes that are positive
multiples of 8, the packed stream has exactly the bytes its bits need, is the same for every chunk size, and is read back as
the list of indices. -/
theorem unpackIndices_packIndices (xs : List ℕ) (bits c c' : ℕ) (hb : 1 ≤ bits ∧ bits ≤ 63) (hx : ∀ x ∈ xs, x < 2 ^ bits)
    (hc : 0 < c ∧ 8 ∣ c) (hc' : 0 < c' ∧ 8 ∣ c') :
    ∃ out, packIndices xs bits c = .ok out ∧ out.length = ceilDiv (xs.length * bits) 8 ∧
      unpackIndices out bits xs.length c' = .ok (ints xs) ∧ ∀ d, 0 < d → 8 ∣ d → packIndices xs bits d = .ok out := by
  refine ⟨packBytes (bitmat bits xs), packIndices_eq hc.1 hc.2, ?_, ?_, fun d hd h8 => packIndices_eq hd h8⟩
  · rw [length_packBytes, length_bitmat]
  · exact unpackIndices_eq hb.2 hx hc'.1 hc'.2

/-- Nine indices of eleven bits in two chunks, which leave three bits of the last byte unused. -/
theorem unpackIndices_packIndices_eleven :
    ∃ out, packIndices [2047, 0, 1, 1024, 5, 6, 7, 1365, 682] 11 8 = .ok out ∧ out.length = ceilDiv (9 * 11) 8 ∧
      unpackIndices out 11 9 16 = .ok (ints [2047, 0, 1, 1024, 5, 6, 7, 1365, 682]) ∧
      ∀ d, 0 < d → 8 ∣ d → packIndices [2047, 0, 1, 1024, 5, 6, 7, 1365, 682] 11 d = .ok out :=
  unpackIndices_packIndices [2047, 0, 1, 1024, 5, 6, 7, 1365, 682] 11 8 16 (by decide) (by decide) (by decide) (by decide)

end Orka
