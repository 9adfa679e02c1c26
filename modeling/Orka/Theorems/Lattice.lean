import Orka.Lattice

/-!
# Nearest points of D8 and E8

The rounded vector, with its parity repaired, is nearest in D8. A point of E8 is a point of D8 or one moved by a half in every
coordinate, so the nearer of the two nearest points is nearest in E8.
-/

set_option linter.unusedSectionVars false

namespace Orka

open Binary16 Lattice Menu

variable {α : Type} [Field α] [LinearOrder α] [IsStrictOrderedRing α] [FloorRing α]

/-- Integer vectors of even sum. -/
def IsDn {n : ℕ} (z : Fin n → ℤ) : Prop := Even (∑ i, z i)

/-- All coordinates integers or all half-integers, with an even sum. -/
def IsE8 (p : Fin 8 → α) : Prop :=
  ((∃ z : Fin 8 → ℤ, ∀ i, p i = z i) ∨ ∃ z : Fin 8 → ℤ, ∀ i, p i = z i + 1 / 2) ∧ ∃ k : ℤ, ∑ i, p i = 2 * k

namespace LatticeAux

/-- What `_nearest_Dn` does: it keeps the rounded vector, or moves the coordinate that was rounded by most. -/
theorem nearestDn_cases {n : ℕ} (x : Fin n → α) :
    (Even (∑ i, roundEven (x i)) ∧ nearestDn x = fun i => roundEven (x i)) ∨
      (¬ Even (∑ i, roundEven (x i)) ∧ ∃ j, (∀ i, |x i - roundEven (x i)| ≤ |x j - roundEven (x j)|) ∧
        nearestDn x = moveToward x (fun i => roundEven (x i)) j) := by
  by_cases heven : Even (∑ i, roundEven (x i))
  · exact Or.inl ⟨heven, if_neg (not_not.2 (Int.even_iff.1 heven))⟩
  · refine Or.inr ⟨heven, ?_⟩
    have hpos : 0 < n := by
      rcases Nat.eq_zero_or_pos n with rfl | hpos
      · exact absurd (by simp) heven
      · exact hpos
    have hlt : farthestCoord (fun i => x i - roundEven (x i)) < n := argmin_lt hpos _
    refine ⟨⟨_, hlt⟩, fun i => ?_, ?_⟩
    · have hle := argmin_le i.isLt fun k => if h : k < n then -|x ⟨k, h⟩ - roundEven (x ⟨k, h⟩)| else 0
      simp only [i.isLt, dif_pos] at hle
      change (if h : farthestCoord (fun i => x i - roundEven (x i)) < n then _ else (0 : α)) ≤ _ at hle
      rw [dif_pos hlt] at hle
      exact neg_le_neg_iff.1 hle
    · unfold nearestDn
      simp only
      rw [if_pos fun h => heven (Int.even_iff.2 h)]
      funext i
      rw [moveToward, Function.update_apply]
      simp only [Fin.ext_iff]
      split
      · next h =>
        obtain rfl : i = ⟨_, hlt⟩ := Fin.ext h
        rfl
      · rfl

/-- What `nearestDn` gives lies in the lattice. -/
theorem isDn_nearestDn {n : ℕ} (x : Fin n → α) : IsDn (nearestDn x) := by
  rcases nearestDn_cases x with ⟨heven, heq⟩ | ⟨hodd, j, -, heq⟩
  · rw [heq]
    exact heven
  · rw [heq]
    exact (sum_moveToward x _ j).2 hodd

/-- No point of the lattice is nearer. -/
theorem sqDist_nearestDn_le {n : ℕ} (x : Fin n → α) {g : Fin n → ℤ} (hg : IsDn g) :
    sqDist x (ofInt (nearestDn x)) ≤ sqDist x (ofInt g) := by
  rcases nearestDn_cases x with ⟨-, heq⟩ | ⟨hodd, j, hmost, heq⟩
  · rw [heq]
    exact sqDist_le_of_half (fun i => abs_sub_roundEven_le (x i)) g
  · rw [heq]
    exact sqDist_moveToward_le (fun i => abs_sub_roundEven_le (x i)) hmost hodd hg

/-- The point moved by a half is as far from `x` as the integer point is from `x` moved back. -/
theorem sqDist_half (x : Fin 8 → α) (z : Fin 8 → ℤ) :
    sqDist x (fun i => (z i : α) + 1 / 2) = sqDist (fun i => x i - 1 / 2) (ofInt z) :=
  Finset.sum_congr rfl fun i _ => by rw [ofInt]; ring

/-- An even integer point lies in E8. -/
theorem isE8_int {z : Fin 8 → ℤ} (hz : IsDn z) : IsE8 fun i => (z i : α) := by
  obtain ⟨k, hk⟩ := hz
  refine ⟨Or.inl ⟨z, fun i => rfl⟩, k, ?_⟩
  rw [← Int.cast_sum, hk]
  push_cast
  ring

/-- Eight halves add four. -/
theorem sum_half (z : Fin 8 → ℤ) : ∑ i, ((z i : α) + 1 / 2) = ((∑ i, z i : ℤ) : α) + 4 := by
  rw [Finset.sum_add_distrib, Int.cast_sum, Finset.sum_const, Finset.card_univ, Fintype.card_fin]
  norm_num

/-- An even integer point moved by a half lies in E8. -/
theorem isE8_half {z : Fin 8 → ℤ} (hz : IsDn z) : IsE8 fun i => (z i : α) + 1 / 2 := by
  obtain ⟨k, hk⟩ := hz
  refine ⟨Or.inr ⟨z, fun i => rfl⟩, k + 2, ?_⟩
  rw [sum_half, hk]
  push_cast
  ring

/-- A point of E8 is a point of D8, moved by a half or not. -/
theorem isE8_cases {p : Fin 8 → α} (h : IsE8 p) : ∃ z, IsDn z ∧ (p = ofInt z ∨ p = fun i => (z i : α) + 1 / 2) := by
  obtain ⟨⟨z, hz⟩ | ⟨z, hz⟩, k, hk⟩ := h
  · obtain rfl : p = ofInt z := funext hz
    refine ⟨z, ⟨k, ?_⟩, Or.inl rfl⟩
    have hsum : ((∑ i, z i : ℤ) : α) = ((k + k : ℤ) : α) := by
      push_cast
      rw [← two_mul, ← hk]
      rfl
    exact_mod_cast hsum
  · obtain rfl : p = fun i => (z i : α) + 1 / 2 := funext hz
    refine ⟨z, ⟨k - 2, ?_⟩, Or.inr rfl⟩
    have hsum : ((∑ i, z i : ℤ) : α) = ((k - 2 + (k - 2) : ℤ) : α) := by
      rw [sum_half] at hk
      push_cast at hk ⊢
      linarith
    exact_mod_cast hsum

end LatticeAux

open LatticeAux

/-- `nearest_e8` gives a nearest point of E8 and `_nearest_Dn` a nearest point of D8. -/
theorem nearestE8_nearest (x : Fin 8 → α) :
    (IsE8 (nearestE8 x) ∧ ∀ p, IsE8 p → ∑ i, (x i - nearestE8 x i) ^ 2 ≤ ∑ i, (x i - p i) ^ 2) ∧
      IsDn (nearestDn x) ∧ ∀ z, IsDn z → ∑ i, (x i - nearestDn x i) ^ 2 ≤ ∑ i, (x i - z i) ^ 2 := by
  have hshift := isDn_nearestDn fun k => x k - 1 / 2
  refine ⟨⟨?_, fun p hp => ?_⟩, isDn_nearestDn x, fun z hz => sqDist_nearestDn_le x hz⟩
  · unfold nearestE8
    simp only
    split
    · exact isE8_int (isDn_nearestDn x)
    · exact isE8_half hshift
  · have hboth : sqDist x (nearestE8 x) ≤ sqDist x (ofInt (nearestDn x)) ∧
        sqDist x (nearestE8 x) ≤ sqDist (fun k => x k - 1 / 2) (ofInt (nearestDn fun k => x k - 1 / 2)) := by
      rw [← sqDist_half]
      unfold nearestE8
      simp only
      split
      · next h => exact ⟨le_refl _, h⟩
      · next h => exact ⟨(not_le.1 h).le, le_refl _⟩
    obtain ⟨z, hz, rfl | rfl⟩ := isE8_cases hp
    · exact hboth.1.trans (sqDist_nearestDn_le x hz)
    · exact (hboth.2.trans (sqDist_nearestDn_le _ hz)).trans (sqDist_half x z).ge

/-- A vector with a third in each coordinate. -/
def thirds : Fin 8 → ℚ := fun _ => 1 / 3

/-- Eight thirds. -/
theorem nearestE8_nearest_thirds :
    (IsE8 (nearestE8 thirds) ∧ ∀ p, IsE8 p → ∑ i, (thirds i - nearestE8 thirds i) ^ 2 ≤ ∑ i, (thirds i - p i) ^ 2) ∧
      IsDn (nearestDn thirds) ∧ ∀ z, IsDn z → ∑ i, (thirds i - nearestDn thirds i) ^ 2 ≤ ∑ i, (thirds i - z i) ^ 2 :=
  nearestE8_nearest thirds

end Orka
