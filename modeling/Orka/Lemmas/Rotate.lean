import Orka.Rotate

/-!
# Rotations: the Hadamard rotation is its own inverse

The loop of the transform runs the stages of `Walsh.transform`, the block size is a power of two that divides the width, and
so rotating a matrix twice gives it back, on either backend.
-/

namespace Orka

open Flat

namespace RotateAux

/-! ## The block size -/

/-- `n & -n` is a power of two that divides `n`. -/
theorem largestPow2Divisor_spec {n : ℕ} (hn : 0 < n) : ∃ k, largestPow2Divisor n = 2 ^ k ∧ 2 ^ k ∣ n := by
  obtain ⟨k, q, hq, rfl⟩ := Nat.exists_eq_two_pow_mul_odd (by omega : n ≠ 0)
  obtain ⟨a, rfl⟩ := hq
  refine ⟨k, ?_, dvd_mul_right _ _⟩
  have hpow : 0 < 2 ^ k := Nat.two_pow_pos k
  have hpred : 2 ^ k * (2 * a + 1) - 1 = 2 ^ k * (2 * a) + (2 ^ k - 1) := by
    rw [Nat.mul_add, Nat.mul_one]
    omega
  have hland : largestPow2Divisor (2 ^ k * (2 * a + 1)) =
      Nat.ldiff (2 ^ k * (2 * a + 1)) (2 ^ k * (2 * a + 1) - 1) := by
    obtain ⟨p, hp⟩ : ∃ p, 2 ^ k * (2 * a + 1) = p + 1 := ⟨_, (Nat.succ_pred (by omega)).symm⟩
    rw [hp, largestPow2Divisor, if_neg (by omega)]
    rfl
  rw [hland, hpred]
  apply Nat.eq_of_testBit_eq
  intro i
  rw [Nat.testBit_ldiff, Nat.testBit_two_pow_mul, Nat.testBit_two_pow]
  rcases lt_trichotomy i k with hi | rfl | hi
  · simp [show ¬ i ≥ k by omega, show ¬ k = i by omega]
  · rw [Nat.testBit_two_pow_mul_add _ (by omega)]
    simp
  · rw [Nat.testBit_two_pow_mul_add _ (by omega)]
    obtain ⟨d, rfl⟩ : ∃ d, i = k + (d + 1) := ⟨i - k - 1, by omega⟩
    simp [Nat.testBit_succ, show ¬ k + (d + 1) < k by omega, show (2 * a + 1) / 2 = a by omega]

/-- A block size the source finds is a power of two that divides the width. -/
theorem hadamardBlockSize_spec {cols minBlock b : ℕ} (hc : 0 < cols) (h : hadamardBlockSize cols minBlock = .ok b) :
    ∃ m, b = 2 ^ m ∧ 2 ^ m ∣ cols := by
  unfold hadamardBlockSize at h
  split at h
  · next hp =>
    cases h
    obtain ⟨m, hm⟩ := (Nat.and_sub_one_eq_zero_iff_isPowerOfTwo (by omega)).1 hp
    exact ⟨m, hm, by rw [hm]⟩
  · split at h
    · cases h
    · cases h
      exact largestPow2Divisor_spec hc

/-- The bit test of a power of two. -/
theorem two_pow_and_pred (m : ℕ) : 2 ^ m &&& (2 ^ m - 1) = 0 :=
  (Nat.and_sub_one_eq_zero_iff_isPowerOfTwo (by positivity)).2 ⟨m, rfl⟩

/-! ## The loop -/

section Loop

variable {α : Type} [Field α]

/-- The loop from `h = 2 ^ k` on runs the stages that are left. -/
theorem fwhtLoop_eq {m : ℕ} (x : List α) (j : ℕ) :
    ∀ (k fuel : ℕ), k + j = m → j ≤ fuel → fwhtLoop (2 ^ m) fuel (2 ^ k) (Walsh.transform k x) = Walsh.transform m x := by
  induction j with
  | zero =>
    intro k fuel hk _
    have : k = m := by omega
    subst this
    cases fuel with
    | zero => rfl
    | succ fuel => rw [fwhtLoop, if_neg (lt_irrefl _)]
  | succ j ih =>
    intro k fuel hk hf
    obtain ⟨fuel, rfl⟩ : ∃ f, fuel = f + 1 := ⟨fuel - 1, by omega⟩
    rw [fwhtLoop, if_pos (Nat.pow_lt_pow_right (by decide) (by omega)), ← Nat.pow_succ]
    exact ih (k + 1) fuel (by omega) (by omega)

/-- The whole loop, from `h = 1`. -/
theorem fwhtLoop_two_pow (m : ℕ) (x : List α) : fwhtLoop (2 ^ m) (2 ^ m) 1 x = Walsh.transform m x :=
  fwhtLoop_eq x m 0 (2 ^ m) (by omega) Nat.lt_two_pow_self.le

/-- The two backends normalize alike. -/
theorem fwht_backend (num : Numerics α) (backend : Backend) (n : ℕ) (rows : List (List α)) :
    fwht num backend n rows = fwht num .numpy n rows := by
  cases backend with
  | numpy => rfl
  | torch =>
    unfold fwht
    simp only [mul_one_div]

/-- Both backends run the same transform. -/
theorem blockFwht_backend (num : Numerics α) (backend : Backend) (rows n blockSize : ℕ) (x : List α) :
    blockFwht num backend rows n blockSize x = blockFwht num .numpy rows n blockSize x := by
  unfold blockFwht
  rw [fwht_backend]

/-- One normalized transform. -/
theorem fwht_two_pow (num : Numerics α) (m : ℕ) (rows : List (List α)) :
    fwht num .numpy (2 ^ m) rows = .ok (rows.map fun x => (Walsh.transform m x).map fun v => (num.sqrt (2 ^ m))⁻¹ * v) := by
  unfold fwht
  rw [if_neg (by rw [two_pow_and_pred]; simp)]
  simp only [fwhtLoop_two_pow, div_eq_inv_mul]

/-- A normalized transform twice. -/
theorem transform_twice {num : Numerics α} {m : ℕ} (hs : num.sqrt (2 ^ m) * num.sqrt (2 ^ m) = 2 ^ m)
    (h2 : (2 : α) ≠ 0) {x : List α} (hx : x.length = 2 ^ m) :
    (Walsh.transform m ((Walsh.transform m x).map fun v => (num.sqrt (2 ^ m))⁻¹ * v)).map
      (fun v => (num.sqrt (2 ^ m))⁻¹ * v) = x := by
  have hs0 : num.sqrt (2 ^ m) ≠ 0 := by
    intro h0
    rw [h0, zero_mul] at hs
    exact pow_ne_zero m h2 hs.symm
  rw [Walsh.transform_map_mul _ (by rw [Walsh.length_transform (by rw [hx]), hx]), Walsh.transform_transform m hx,
    List.map_map, List.map_map]
  have hid : (((fun v => (num.sqrt (2 ^ m))⁻¹ * v) ∘ fun v => (num.sqrt (2 ^ m))⁻¹ * v) ∘ fun v => (2 : α) ^ m * v) = id := by
    funext v
    simp only [Function.comp_apply, id_eq]
    rw [← hs]
    field_simp
  rw [hid, List.map_id]

/-! ## The rotation -/

theorem width_fwht {m : ℕ} {c : α} {rows : List (List α)} (hw : ∀ row ∈ rows, row.length = 2 ^ m) :
    ∀ row ∈ rows.map fun x => (Walsh.transform m x).map fun v => c * v, row.length = 2 ^ m := by
  intro row hrow
  obtain ⟨x, hx, rfl⟩ := List.mem_map.1 hrow
  rw [List.length_map, Walsh.length_transform (by rw [hw x hx]), hw x hx]

/-- The blockwise transform succeeds on a power of two that divides the width. -/
theorem blockFwht_ok (num : Numerics α) (backend : Backend) {rows n m : ℕ} (hd : 2 ^ m ∣ n) (x : List α) :
    blockFwht num backend rows n (2 ^ m) x =
      .ok ((rowsOf (rows * (n / 2 ^ m)) (2 ^ m) x).map fun y =>
        (Walsh.transform m y).map fun v => (num.sqrt (2 ^ m))⁻¹ * v).flatten := by
  rw [blockFwht_backend]
  unfold blockFwht
  rw [if_neg (by positivity), if_neg (by rw [Nat.mod_eq_zero_of_dvd hd]; simp), if_neg (by rw [two_pow_and_pred]; simp),
    fwht_two_pow]
  rfl

theorem length_blocks {rows n m : ℕ} (hd : 2 ^ m ∣ n) : rows * (n / 2 ^ m) * 2 ^ m = rows * n := by
  rw [Nat.mul_assoc, Nat.div_mul_cancel hd]

/-- **The blockwise transform is its own inverse**, whichever backends run it. -/
theorem blockFwht_blockFwht {num : Numerics α} (backend backend' : Backend) {rows n m : ℕ} {x : List α} (hd : 2 ^ m ∣ n)
    (hs : num.sqrt (2 ^ m) * num.sqrt (2 ^ m) = 2 ^ m) (h2 : (2 : α) ≠ 0) (hx : x.length = rows * n) :
    ∃ y, blockFwht num backend rows n (2 ^ m) x = .ok y ∧ y.length = rows * n ∧
      blockFwht num backend' rows n (2 ^ m) y = .ok x := by
  have hw := @length_of_mem_rowsOf _ (rows * (n / 2 ^ m)) (2 ^ m) x (by rw [length_blocks hd, hx])
  have hw' := @width_fwht _ _ m (num.sqrt (2 ^ m))⁻¹ _ hw
  have hcount := length_rowsOf (rows * (n / 2 ^ m)) (2 ^ m) x
  refine ⟨_, blockFwht_ok num backend hd x, ?_, ?_⟩
  · rw [length_flatten_of_width hw', List.length_map, hcount, length_blocks hd]
  · rw [blockFwht_ok num backend' hd]
    congr 1
    have hrows := rowsOf_flatten hw'
    rw [List.length_map, hcount] at hrows
    rw [hrows, List.map_map]
    have hid : ((rowsOf (rows * (n / 2 ^ m)) (2 ^ m) x).map
        ((fun y => (Walsh.transform m y).map fun v => (num.sqrt (2 ^ m))⁻¹ * v) ∘
          fun y => (Walsh.transform m y).map fun v => (num.sqrt (2 ^ m))⁻¹ * v)) =
        rowsOf (rows * (n / 2 ^ m)) (2 ^ m) x := by
      conv_rhs => rw [← List.map_id (rowsOf (rows * (n / 2 ^ m)) (2 ^ m) x)]
      apply List.map_congr_left
      intro y hy
      exact transform_twice hs h2 (hw y hy)
    rw [hid, flatten_rowsOf (by rw [length_blocks hd, hx])]

/-- Rotating by Hadamard and un-rotating the flat stream gives the tensor back. -/
theorem unrotateFlat_rotateHadamard {num : Numerics α} (backend : Backend) {shape : List ℕ} {rows cols b seed : ℕ}
    {x : List α} (hshape : rowsCols shape = .ok (rows, cols)) (hc : 0 < cols)
    (hb : hadamardBlockSize cols hadamardMinBlock = .ok b) (hs : num.sqrt b * num.sqrt b = b) (h2 : (2 : α) ≠ 0)
    (hx : x.length = rows * cols) :
    ∃ y, rotateHadamard num backend shape x = .ok (y, 0) ∧ y.length = rows * cols ∧
      unrotateFlat num y shape .hadamard seed = .ok x := by
  obtain ⟨m, rfl, hd⟩ := hadamardBlockSize_spec hc hb
  rw [Nat.cast_pow, Nat.cast_ofNat] at hs
  obtain ⟨y, hy, hly, hback⟩ := blockFwht_blockFwht backend .numpy hd hs h2 hx
  refine ⟨y, ?_, hly, ?_⟩
  · unfold rotateHadamard
    rw [hshape]
    simp only [Except.bind]
    rw [hb]
    dsimp only
    rw [hy]
    rfl
  · unfold unrotateFlat
    rw [hshape]
    simp only [Except.bind]
    rw [List.take_of_length_le (by omega), if_neg (by omega), unrotate, unrotateHadamard, hb]
    exact hback

end Loop

end RotateAux

end Orka
