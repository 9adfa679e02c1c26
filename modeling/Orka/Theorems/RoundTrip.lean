import Orka.Lemmas.Normalize
import Orka.Lemmas.Decode

/-!
# Preparing a tensor and decoding it are inverse

On unquantized vectors the inverse chain of the decoder gives every source value back, with both kinds of padding and with a
Hadamard rotation between the scales and the salient values; a salient value comes back as it is stored.
-/

set_option linter.unusedSectionVars false

namespace Orka

open Flat NormalizeAux RotateAux DecodeAux

namespace RoundTripAux

section RoundTrip

variable {α : Type} [Field α] [LinearOrder α] [IsStrictOrderedRing α] [FloorRing α]

/-- The modes the producer runs without activations. -/
def NormalizationsWithoutAwq (normalization : Normalization) : Prop :=
  normalization = .none ∨ normalization = .blockMax ∨ normalization = .channelBlockMax ∨ normalization = .slrqBlock

/-- The widths a rotation takes: none takes all, Hadamard those with a usable power of two, whose root is exact. -/
def RotationAdmits (num : Numerics α) (rotation : Rotation) (cols : ℕ) : Prop :=
  rotation = .none ∨ rotation = .hadamard ∧ 0 < cols ∧
    ∃ b, hadamardBlockSize cols hadamardMinBlock = .ok b ∧ num.sqrt b * num.sqrt b = b

/-- The vectors of a stream, joined and cut to its length, are the stream. -/
theorem vectorsFromTensor_spec {x : List α} {g : ℕ} (hg : 0 < g) :
    ∃ padded vectors, vectorsFromTensor x g none = .ok (x.length, padded, vectors) ∧ vectors.flatten.take x.length = x := by
  have hpad : (if x.length % g ≠ 0 then x ++ List.replicate (g - x.length % g) 0 else x) =
      x ++ List.replicate (padding x.length g) 0 := by
    have hm := Nat.mod_lt x.length hg
    split
    · next h => rw [padding, Nat.mod_eq_of_lt (show g - x.length % g < g by omega)]
    · next h => rw [padding, show x.length % g = 0 by omega, Nat.sub_zero, Nat.mod_self, List.replicate_zero, List.append_nil]
  have hlen : (x ++ List.replicate (padding x.length g) 0).length = ceilDiv x.length g * g := by
    rw [List.length_append, List.length_replicate, ceilDiv_mul hg]
  refine ⟨(x ++ List.replicate (padding x.length g) 0).length,
    rowsOf (ceilDiv x.length g) g (x ++ List.replicate (padding x.length g) 0), ?_, ?_⟩
  · unfold vectorsFromTensor
    rw [if_neg (by omega)]
    simp only [hpad]
    rw [reshapeAuto_ok hg hlen]
    rfl
  · rw [flatten_rowsOf hlen, List.take_left]

/-- Rotating and un-rotating a stream. -/
theorem unrotate_rotate {num : Numerics α} (backend : Backend) (name : String) {rotation : Rotation} (seed : ℕ)
    {shape : List ℕ} {rows cols : ℕ} {x : List α} (hshape : rowsCols shape = .ok (rows, cols))
    (hrot : RotationAdmits num rotation cols) (hx : x.length = rows * cols) :
    ∃ y s, rotateTensorTo2d num backend name rotation seed shape x = .ok (y, s) ∧ y.length = rows * cols ∧
      (match rotation with
        | .none => Except.ok y
        | rotation => unrotateFlat num y shape rotation (s.getD 0)) = .ok x := by
  rcases hrot with rfl | ⟨rfl, hc, b, hb, hs⟩
  · exact ⟨x, none, rfl, hx, rfl⟩
  · obtain ⟨y, hy, hly, hback⟩ := unrotateFlat_rotateHadamard backend hshape hc hb hs two_ne_zero hx
    exact ⟨y, some 0, by rw [rotateTensorTo2d, hy]; rfl, hly, hback⟩

/-- What a normalization leaves behind: no stored scale is zero, and the scales and the salient values undo it, a salient
value coming back as it is stored. -/
def Undone (normalization : Normalization) (blockSize : ℕ) (flat : List α) (res : NormalizationResult α) : Prop :=
  res.tensor.length = flat.length ∧ (∀ s ∈ res.rowScales.getD [], s ≠ 0) ∧
    ∀ c : Candidate α, c.rowScales = res.rowScales → c.salientWeights = res.salientWeights →
      c.salientIndices = res.salientIndices →
      c.blockScaleSize = (if storesBlockScales normalization then some blockSize else none) →
      ∃ out, ((c.rescale res.tensor).bind fun decoded => c.reinject decoded) = .ok out ∧ out.length = flat.length ∧
        ∀ i < flat.length, cell out i =
          if i ∈ c.salientPositions then storageRound (c.salientPositions.map (cell flat)) (cell flat i) else cell flat i

/-- A mode without salient values. -/
theorem undone_of_scales {normalization : Normalization} {bs : ℕ} {flat t safe : List α}
    (hn : storesBlockScales normalization = true) (hlen : t.length = flat.length) (h0 : ∀ s ∈ safe, s ≠ 0)
    (hback : applyBlockMaxScalesNumpy t safe bs = .ok flat) :
    Undone normalization bs flat { tensor := t, rowScales := some safe, sourceFlat := flat } := by
  refine ⟨hlen, h0, fun c hc1 hc2 hc3 hc4 => ⟨flat, ?_, rfl, fun i _ => ?_⟩⟩
  · rw [hn, if_pos rfl] at hc4
    simp only [Candidate.rescale, Candidate.reinject, hc1, hc3, hc4, applyBlockScales, hback]
    rfl
  · simp [Candidate.salientPositions, hc3]

/-- A place of a stream is salient when it is the place its block sets aside. -/
theorem mem_salientPositions {idx : List ℕ} {bs n i : ℕ} (hbs : 0 < bs) (hcount : idx.length = ceilDiv n bs)
    (hidx : ∀ j ∈ idx, j < bs) (hi : i < n) :
    i ∈ tabulate idx.length (fun b => b * bs + cell idx b) ↔ i % bs = cell idx (i / bs) := by
  have hblock : i / bs < idx.length := by
    rw [hcount]
    exact div_lt_ceilDiv hbs hi
  rw [tabulate, List.mem_map]
  constructor
  · rintro ⟨b, hb, rfl⟩
    obtain ⟨hd, hm⟩ := salient_place (b := b) (hidx _ (cell_mem (List.mem_range.1 hb)))
    rw [hd, hm]
  · intro h
    exact ⟨i / bs, List.mem_range.2 hblock, by rw [← h, Nat.div_add_mod']⟩

/-- Every mode that runs without activations is undone. -/
theorem applyNormalization_undone (num : Numerics α) (backend : Backend) {normalization : Normalization} {shape : List ℕ}
    {flat : List α} (X : Option (List (List α))) (alpha : α) {bs : ℕ} (salient : Bool)
    (hn : NormalizationsWithoutAwq normalization) (hbs : 0 < bs) (hx : flat.length = shape.prod) :
    ∃ res, applyNormalization num backend normalization shape flat X alpha bs salient = .ok res ∧
      Undone normalization bs flat res := by
  rcases hn with rfl | rfl | rfl | rfl
  · refine ⟨_, rfl, rfl, fun s hs => absurd hs (List.not_mem_nil), fun c hc1 hc2 hc3 hc4 => ⟨flat, ?_, rfl, fun i _ => ?_⟩⟩
    · simp only [Candidate.rescale, Candidate.reinject, hc1, hc3]
      rfl
    · simp [Candidate.salientPositions, hc3]
  · obtain ⟨t, safe, hres, hlen, h0, hback⟩ := @blockMax_spec α _ _ _ _ flat bs hbs
    exact ⟨_, hres, undone_of_scales rfl hlen h0 hback⟩
  · obtain ⟨t, safe, hres, hlen, h0, hback⟩ := channelBlockMax_spec hbs hx
    exact ⟨_, hres, undone_of_scales rfl hlen h0 hback⟩
  · cases salient with
    | false =>
      obtain ⟨t, safe, hres, hlen, h0, hback⟩ := @slrqBlock_plain_spec α _ _ _ _ flat bs hbs
      exact ⟨_, hres, undone_of_scales rfl hlen h0 hback⟩
    | true =>
      obtain ⟨t, safe, idx, hres, hcount, hidx, hlen, h0, d, hback, hld, hd⟩ := @slrqBlock_salient_spec α _ _ _ _ flat bs hbs
      refine ⟨_, hres, hlen, h0, fun c hc1 hc2 hc3 hc4 => ?_⟩
      have hc4' : c.blockScaleSize = some bs := hc4
      have hpos : c.salientPositions = tabulate idx.length fun b => b * bs + cell idx b := by
        simp only [Candidate.salientPositions, hc3, hc4']
      have hsource : c.salientPositions.map (cell flat) = tabulate idx.length fun b => cell flat (b * bs + cell idx b) := by
        rw [hpos, tabulate, tabulate, List.map_map]
        rfl
      have hwl : (fp16StorageRoundtrip (tabulate idx.length fun b => cell flat (b * bs + cell idx b))).length = idx.length := by
        rw [length_fp16StorageRoundtrip, length_tabulate]
      refine ⟨scatter d (salientWrites d.length bs idx (fp16StorageRoundtrip (tabulate idx.length fun b =>
        cell flat (b * bs + cell idx b)))), ?_, ?_, fun i hi => ?_⟩
      · simp only [Candidate.rescale, Candidate.reinject, hc1, hc2, hc3, hc4', applyBlockScales, hback]
        exact injectSalient_eq hwl
      · rw [length_scatter, hld]
      · have hmem := mem_salientPositions hbs hcount hidx hi
        rw [cell_salientWrites hbs (by rw [hcount, hld]) hidx (by omega), hsource]
        by_cases h : i % bs = cell idx (i / bs)
        · have hblock : i / bs < idx.length := by
            rw [hcount]
            exact div_lt_ceilDiv hbs hi
          rw [if_pos h, if_pos (by rw [hpos]; exact hmem.2 h), fp16StorageRoundtrip,
            cell_map (by rw [length_tabulate]; exact hblock), cell_tabulate _ hblock, ← h, Nat.div_add_mod']
        · rw [if_neg h, if_neg (by rw [hpos]; exact fun hm => h (hmem.1 hm)), hd i hi, if_neg h]

end RoundTrip

end RoundTripAux

open RoundTripAux

/-- **The inverse chain of the decoder restores every source value.** For a tensor of any shape of rank at least 2, any block
size and group size, each normalization that needs no activations, with or without salient values, and no rotation or a
Hadamard rotation of a width that admits a block, the producer succeeds, stores no zero scale, and decoding its unquantized
vectors returns the source, except that a salient position holds the stored rounding of its source value. -/
theorem restore_prepare {α : Type} [Field α] [LinearOrder α] [IsStrictOrderedRing α] [FloorRing α] (num : Numerics α)
    (cfg : PrepareConfig α) (name : String) (shape : List ℕ) (xs : List α) (hrank : 2 ≤ shape.length)
    (hxs : xs.length = shape.prod) (hnorm : NormalizationsWithoutAwq cfg.normalization)
    (hrot : RotationAdmits num cfg.rotation shape.tail.prod) (hg : 0 < cfg.groupSize) (hbs : 0 < cfg.blockScaleSize)
    (hlimit : cfg.maxValuesPerTensor = none) :
    ∃ c out, prepare num cfg name shape xs = .ok c ∧ c.restore num = .ok out ∧ out.length = xs.length ∧
      (∀ s ∈ c.rowScales.getD [], s ≠ 0) ∧
      ∀ i < xs.length, cell out i =
        if i ∈ c.salientPositions then storageRound (c.salientPositions.map (cell xs)) (cell xs i) else cell xs i := by
  obtain ⟨rows, rest, rfl⟩ : ∃ rows rest, shape = rows :: rest := by
    cases shape with
    | nil => simp at hrank
    | cons rows rest => exact ⟨rows, rest, rfl⟩
  rw [List.tail_cons] at hrot
  obtain ⟨res, hres, hlen, h0, hundo⟩ := applyNormalization_undone num cfg.backend cfg.awqActivations cfg.awqAlpha
    cfg.slrqSalient hnorm hbs hxs
  have hlen' : res.tensor.length = rows * rest.prod := by rw [hlen, hxs, List.prod_cons]
  obtain ⟨y, s, hy, hly, hback⟩ := unrotate_rotate cfg.backend name cfg.rotationSeed
    (show rowsCols (rows :: rest) = .ok (rows, rest.prod) from rfl) hrot hlen'
  obtain ⟨padded, vectors, hv, hvx⟩ := @vectorsFromTensor_spec α _ _ _ _ y cfg.groupSize hg
  have hprep : ∃ c, prepare num cfg name (rows :: rest) xs = .ok c ∧ c.shape = rows :: rest ∧ c.rotation = cfg.rotation ∧
      c.rotationSeed = s ∧ c.packedValues = y.length ∧ c.vectors = vectors ∧ c.rowScales = res.rowScales ∧
      c.salientWeights = res.salientWeights ∧ c.salientIndices = res.salientIndices ∧
      c.blockScaleSize = if storesBlockScales cfg.normalization then some cfg.blockScaleSize else none := by
    unfold prepare
    rw [hres]
    simp only [Except.bind]
    rw [hy]
    simp only [hlimit, hv]
    exact ⟨_, rfl, rfl, rfl, rfl, rfl, rfl, rfl, rfl, rfl, rfl⟩
  obtain ⟨c, hc, hshape, hrotation, hseed, hpacked, hvectors, hscales, hweights, hindices, hblock⟩ := hprep
  obtain ⟨out, hout, hlout, hcells⟩ := hundo c hscales hweights hindices hblock
  refine ⟨c, out, hc, ?_, hlout, by rw [hscales]; exact h0, hcells⟩
  have hunrotate : c.unrotate num (c.vectors.flatten.take c.packedValues) = .ok res.tensor := by
    rw [hvectors, hpacked, hvx]
    unfold Candidate.unrotate
    rw [hrotation, hseed, hshape]
    exact hback
  unfold Candidate.restore
  rw [hunrotate]
  exact hout

/-- A matrix of two rows of four values, salient slrq blocks of three across its rows, a Hadamard rotation and vectors of
five values. -/
def roundTripConfig : PrepareConfig ℚ where
  backend := .torch
  normalization := .slrqBlock
  rotation := .hadamard
  rotationSeed := 0
  groupSize := 5
  blockScaleSize := 3
  slrqSalient := true
  awqAlpha := 1

/-- Two rows of four, rotated and scaled, there and back. -/
theorem restore_prepare_slrq_hadamard :
    ∃ c out, prepare rationalNumerics roundTripConfig "w" [2, 4] [1, -7, 2, 0, 0, 3, 5, 1] = .ok c ∧
      c.restore rationalNumerics = .ok out ∧ out.length = 8 ∧ (∀ s ∈ c.rowScales.getD [], s ≠ 0) ∧
      ∀ i < 8, cell out i =
        if i ∈ c.salientPositions then
          storageRound (c.salientPositions.map (cell [1, -7, 2, 0, 0, 3, 5, 1])) (cell [1, -7, 2, 0, 0, 3, 5, 1] i)
        else cell [1, -7, 2, 0, 0, 3, 5, 1] i :=
  restore_prepare rationalNumerics roundTripConfig "w" [2, 4] [1, -7, 2, 0, 0, 3, 5, 1] (by decide) rfl
    (.inr (.inr (.inr rfl))) (.inr ⟨rfl, by decide, 4, rfl, by decide +kernel⟩) (by decide) (by decide) rfl

end Orka
