import Orka.Theorems.AnsGpu

/-!
# The blob of the interleaved coder

What `ans_compress` writes, `ans_decompress` reads back, for every array of 16-bit symbols whose table fits 16 bits; the only tables
that do not are those of one symbol from `2 ^ 14` on.
-/

namespace Orka

open Flat Steps Endian AnsAux Lanes

variable {symbols : List ℕ} {freq : List ℤ} {precision : ℕ}

/-! ## The table -/

/-- A bound of the symbols bounds the greatest. -/
theorem foldr_max_le {n : ℕ} (hs : ∀ s ∈ symbols, s ≤ n) : symbols.foldr max 0 ≤ n := by
  induction symbols with
  | nil => exact Nat.zero_le n
  | cons s symbols ih =>
    obtain ⟨h, hs⟩ := List.forall_mem_cons.1 hs
    exact max_le h (ih hs)

/-- The number of symbols fits the precision an array gets. -/
theorem dedup_length_le (hs : ∀ s ∈ symbols, s ≤ 65535) : symbols.dedup.length ≤ 2 ^ defaultPrecision symbols := by
  by_cases hne : symbols = []
  · subst hne
    exact Nat.zero_le _
  have hlen : symbols.length ≠ 0 := mt List.length_eq_zero_iff.1 hne
  have hbound : symbols.foldr max 0 + 1 ≤ 65536 := Nat.succ_le_succ (foldr_max_le hs)
  have hdedup : symbols.dedup.length ≤ symbols.foldr max 0 + 1 := by
    have hsub : symbols.dedup.Subperm (List.range (symbols.foldr max 0 + 1)) := by
      refine List.subperm_of_subset symbols.nodup_dedup fun s hs => ?_
      exact List.mem_range.2 (mem_lt_bound (List.mem_dedup.1 hs))
    exact hsub.length_le.trans_eq List.length_range
  refine hdedup.trans ?_
  rw [defaultPrecision, if_pos hlen]
  set nSym := symbols.foldr max 0 + 1
  have hclog : nSym ≤ 2 ^ Nat.clog 2 (max 2 nSym) := (le_max_right 2 nSym).trans (Nat.le_pow_clog (by decide) _)
  rcases le_total 16 (max 12 (Nat.clog 2 (max 2 nSym) + 1)) with h | h
  · rw [min_eq_left h]
    exact hbound
  · rw [min_eq_right h]
    exact hclog.trans (Nat.pow_le_pow_right (by decide) (by omega))

/-- The weight of a symbol and that of another are at most all slots. -/
theorem cell_add_cell_le (hn : ∀ s, 0 ≤ cell freq s) {s t : ℕ} (hst : s < t) (ht : t < freq.length) :
    cell freq s + cell freq t ≤ freq.sum := by
  have h1 := slotStart_succ (hst.trans ht)
  have h2 := slotStart_succ ht
  have h3 := slotStart_mono hn (s := s + 1) (t := t) hst ht.le
  have h4 := slotStart_nonneg hn (s := s) (hst.trans ht).le
  have h5 := slotStart_le hn (s := t + 1) ht
  omega

/-- A table of 16 bits fails where one symbol takes all `2 ^ 16` slots. -/
theorem any_freq_iff (hne : symbols ≠ []) (hp : precision ≤ 16) (hc : Covers symbols freq) (hsum : freq.sum = 2 ^ precision) :
    (freq.any fun f => 65535 < f) = true ↔ precision = 16 ∧ ∃ s, ∀ t ∈ symbols, t = s := by
  have hle : ∀ s, cell freq s ≤ 2 ^ precision := by
    intro s
    by_cases hs : s < freq.length
    · have h1 := slotStart_succ hs
      have h2 := slotStart_nonneg hc.nonneg (s := s) hs.le
      have h3 := slotStart_le hc.nonneg (s := s + 1) hs
      omega
    · rw [cell_of_le (not_lt.1 hs)]
      positivity
  have hlt : ∀ s ∈ symbols, s < freq.length := by
    intro s hs
    rw [hc.length]
    exact mem_lt_bound hs
  rw [List.any_eq_true]
  constructor
  · rintro ⟨f, hf, hbig⟩
    obtain ⟨i, hi, rfl⟩ := List.mem_iff_getElem.1 hf
    rw [decide_eq_true_eq, ← cell_eq_getElem hi] at hbig
    have hmem : i ∈ symbols := by
      by_contra hni
      rw [hc.absent i hni] at hbig
      omega
    have h16 : precision = 16 := by
      by_contra h
      have : (2 : ℤ) ^ precision ≤ 2 ^ 15 := pow_le_pow_right₀ (by norm_num) (by omega)
      have := hle i
      omega
    subst h16
    refine ⟨rfl, i, fun t ht => ?_⟩
    by_contra hti
    have hused := hc.used t ht
    have htwo : cell freq i + cell freq t ≤ freq.sum := by
      rcases Nat.lt_or_gt_of_ne hti with h | h
      · rw [add_comm]
        exact cell_add_cell_le hc.nonneg h (hlt i hmem)
      · exact cell_add_cell_le hc.nonneg h (hlt t ht)
    omega
  · rintro ⟨rfl, s, hall⟩
    obtain ⟨u, hu⟩ := List.exists_mem_of_ne_nil _ hne
    obtain rfl := hall u hu
    have hzero : ∀ t, t ≠ u → cell freq t = 0 := fun t ht => hc.absent t fun hm => ht (hall t hm)
    refine ⟨cell freq u, cell_mem (hlt u hu), ?_⟩
    have htotal : freq.sum = cell freq u := by
      have hupto : ∀ t ≤ freq.length, slotStart freq t = if u < t then cell freq u else 0 := by
        intro t
        induction t with
        | zero => exact fun _ => rfl
        | succ t ih =>
          intro ht
          rw [slotStart_succ ht, ih (by omega)]
          by_cases hut : t = u
          · subst hut
            rw [if_neg (lt_irrefl t), if_pos (Nat.lt_succ_self t), zero_add]
          · rw [hzero t hut, add_zero]
            exact if_congr (by omega) rfl rfl
      rw [← slotStart_length, hupto _ (le_refl _), if_pos (hlt u hu)]
    rw [decide_eq_true_eq, ← htotal, hsum]
    norm_num

/-- The greatest of one symbol is the symbol. -/
theorem foldr_max_replicate {n s : ℕ} (hn : n ≠ 0) : (List.replicate n s).foldr max 0 = s := by
  induction n with
  | zero => exact absurd rfl hn
  | succ n ih =>
    rw [List.replicate_succ, List.foldr_cons]
    by_cases h : n = 0
    · subst h
      exact max_eq_left (Nat.zero_le s)
    · rw [ih h, max_self]

/-- One symbol alone gets the largest precision from `2 ^ 14` on. -/
theorem defaultPrecision_eq_iff {s : ℕ} (hne : symbols ≠ []) (hall : ∀ t ∈ symbols, t = s) :
    defaultPrecision symbols = 16 ↔ 2 ^ 14 ≤ s := by
  have hlen : symbols.length ≠ 0 := mt List.length_eq_zero_iff.1 hne
  have hmax : symbols.foldr max 0 = s := by
    rw [List.eq_replicate_of_mem hall, foldr_max_replicate hlen]
  have hclog : 15 ≤ Nat.clog 2 (max 2 (s + 1)) ↔ 2 ^ 14 < max 2 (s + 1) := by
    rw [Nat.succ_le_iff, Nat.lt_clog_iff_pow_lt (by decide)]
  rw [defaultPrecision, if_pos hlen, hmax]
  omega

/-! ## The blob -/

/-- The rows are rebuilt from the words one after the other, padded with zeros. -/
theorem splitWords_flatten {maxw : ℕ} {ws : List (List ℤ)} (h : ∀ w ∈ ws, w.length ≤ maxw) :
    splitWords maxw (ws.map List.length) ws.flatten = .ok (ws.map fun w => w ++ List.replicate (maxw - w.length) 0) := by
  induction ws with
  | nil => rfl
  | cons w ws ih =>
    obtain ⟨hw, hws⟩ := List.forall_mem_cons.1 h
    have hrow : setSlice (List.replicate maxw (0 : ℤ)) 0 w.length w = .ok (w ++ List.replicate (maxw - w.length) 0) := by
      simp only [setSlice, List.length_replicate, min_eq_left hw, Nat.sub_zero, List.take_zero, List.nil_append, Nat.zero_add,
        List.drop_replicate, if_true]
    rw [List.map_cons, List.flatten_cons, splitWords, List.take_left' rfl, hrow, ok_bind, List.drop_left' rfl, ih hws, ok_map,
      List.map_cons]

/-- **Reading a blob** that holds a table of `freq.length` weights, `wpos.length` counts and the words. -/
theorem ansDecompress_blob {n precision : ℕ} {freq wpos words : List ℕ} (hn : n ≠ 0) (hn' : n < 2 ^ 64) (hK : wpos ≠ [])
    (hK' : wpos.length < 2 ^ 32) (hp : precision < 2 ^ 8) (hlen : freq.length < 2 ^ 32) (hfreq : ∀ f ∈ freq, f < 2 ^ 16)
    (hwpos : ∀ w ∈ wpos, w < 2 ^ 32) (hwords : ∀ w ∈ words, w < 2 ^ 16) :
    ansDecompress (ansMagic ++ (toLE 8 n ++ toLE 4 wpos.length ++ toLE 1 precision ++ toLE 4 freq.length) ++
        freq.flatMap (toLE 2) ++ wpos.flatMap (toLE 4) ++ words.flatMap (toLE 2)) =
      (slotToSymbol (ints freq) precision).bind fun lut =>
        (splitWords (wpos.foldr max 0) wpos (ints words)).bind fun out =>
          ransDecodeGpu out (ints wpos) (ints freq) (0 :: cumsumInt (ints freq)) lut n (ceilDiv n wpos.length) precision := by
  set D := words.flatMap (toLE 2) with hD
  set W := wpos.flatMap (toLE 4) ++ D with hW
  set F := freq.flatMap (toLE 2) ++ W with hF
  set R₄ := toLE 4 freq.length ++ F with hR₄
  set R₃ := toLE 1 precision ++ R₄ with hR₃
  set R₂ := toLE 4 wpos.length ++ R₃ with hR₂
  set R₁ := toLE 8 n ++ R₂ with hR₁
  have hblob : ansMagic ++ (toLE 8 n ++ toLE 4 wpos.length ++ toLE 1 precision ++ toLE 4 freq.length) ++ freq.flatMap (toLE 2) ++
      wpos.flatMap (toLE 4) ++ D = ansMagic ++ R₁ := by
    simp only [hR₁, hR₂, hR₃, hR₄, hF, hW, List.append_assoc]
  have d4 : (ansMagic ++ R₁).drop 4 = R₁ := List.drop_left' rfl
  have d12 : (ansMagic ++ R₁).drop 12 = R₂ := by
    rw [show 12 = 4 + 8 from rfl, ← List.drop_drop, d4, hR₁, List.drop_left' (length_toLE 8 n)]
  have d16 : (ansMagic ++ R₁).drop 16 = R₃ := by
    rw [show 16 = 12 + 4 from rfl, ← List.drop_drop, d12, hR₂, List.drop_left' (length_toLE 4 _)]
  have d17 : (ansMagic ++ R₁).drop 17 = R₄ := by
    rw [show 17 = 16 + 1 from rfl, ← List.drop_drop, d16, hR₃, List.drop_left' (length_toLE 1 _)]
  have d21 : (ansMagic ++ R₁).drop 21 = F := by
    rw [show 21 = 17 + 4 from rfl, ← List.drop_drop, d17, hR₄, List.drop_left' (length_toLE 4 _)]
  have hFlen : (freq.flatMap (toLE 2)).length = 2 * freq.length := by rw [length_flatMap_toLE, Nat.mul_comm]
  have hWlen : (wpos.flatMap (toLE 4)).length = 4 * wpos.length := by rw [length_flatMap_toLE, Nat.mul_comm]
  have hDlen : D.length = words.length * 2 := length_flatMap_toLE 2 words
  have dF : F.drop (2 * freq.length) = W := by rw [hF, List.drop_left' hFlen]
  have dW : F.drop (2 * freq.length + 4 * wpos.length) = D := by
    rw [← List.drop_drop, dF, hW, List.drop_left' hWlen]
  have hrest : ¬ (R₁).length < 17 := by
    simp only [hR₁, hR₂, hR₃, hR₄, List.length_append, length_toLE]
    omega
  have bfreq : fromBuffer 2 freq.length F = .ok freq := by
    rw [fromBuffer, if_pos (by rw [hF, List.length_append, hFlen]; omega), hF, readLE_flatMap_toLE hfreq]
  have bwpos : fromBuffer 4 wpos.length W = .ok wpos := by
    rw [fromBuffer, if_pos (by rw [hW, List.length_append, hWlen]; omega), hW, readLE_flatMap_toLE hwpos]
  have bwords : readLE 2 (D.length / 2) D = words := by
    rw [hDlen, Nat.mul_div_cancel _ (by decide), ← List.append_nil D, readLE_flatMap_toLE hwords]
  have t4 : (ansMagic ++ R₁).take 4 = ansMagic := List.take_left' rfl
  have t8 : R₁.take 8 = toLE 8 n := List.take_left' (length_toLE 8 n)
  have tK : R₂.take 4 = toLE 4 wpos.length := List.take_left' (length_toLE 4 _)
  have tp : R₃.take 1 = toLE 1 precision := List.take_left' (length_toLE 1 _)
  have tlen : R₄.take 4 = toLE 4 freq.length := List.take_left' (length_toLE 4 _)
  have en : ofLE (toLE 8 n) = n := ofLE_toLE hn'
  have eK : ofLE (toLE 4 wpos.length) = wpos.length := ofLE_toLE hK'
  have ep : ofLE (toLE 1 precision) = precision := ofLE_toLE hp
  have elen : ofLE (toLE 4 freq.length) = freq.length := ofLE_toLE hlen
  have hmagic : ¬ ansMagic ≠ ansMagic := not_not_intro rfl
  have hK0 : ¬ wpos.length = 0 := mt List.length_eq_zero_iff.1 hK
  rw [hblob, ansDecompress, t4, if_neg hmagic, d4, if_neg hrest, d12, d16, d17, d21, t8, tK, tp, tlen]
  simp only [en, eK, ep, elen]
  rw [if_neg hn, bfreq, ok_bind, dF, bwpos, ok_bind, dW, if_neg (by rw [hDlen]; omega), bwords]
  simp only [if_neg hK0]

/-- Numbers of 16 bits survive their narrowing. -/
theorem ints_low_words {words : List ℤ} (h : ∀ v ∈ words, 0 ≤ v ∧ v < 2 ^ 16) :
    ints (words.map fun v => (v % 2 ^ 16).toNat) = words := by
  rw [ints, List.map_map]
  refine (List.map_congr_left fun v hv => ?_).trans (List.map_id words)
  obtain ⟨h0, h1⟩ := h v hv
  have hmod : v % 2 ^ 16 = v := Int.emod_eq_of_lt h0 h1
  simp only [Function.comp_apply, hmod, id_eq]
  exact Int.toNat_of_nonneg h0

/-- The words of the streams, cut off where their counts say. -/
theorem ints_flatMap_rows {rows : List (List ℤ × ℕ)} (h : ∀ row ∈ rows, ∀ v ∈ row.1.take row.2, 0 ≤ v ∧ v < 2 ^ 16) :
    ints (rows.flatMap fun row => (row.1.take row.2).map fun v => (v % 2 ^ 16).toNat) =
      (rows.map fun row => row.1.take row.2).flatten := by
  induction rows with
  | nil => rfl
  | cons row rows ih =>
    obtain ⟨hrow, hrows⟩ := List.forall_mem_cons.1 h
    rw [List.flatMap_cons, ints, List.map_append, ← ints, ← ints, ih hrows, ints_low_words hrow, List.map_cons, List.flatten_cons]

/-- A count that fits 32 bits survives the signed tensor it passes through. -/
theorem toInt32_unsigned {n : ℕ} (h : n < 2 ^ 32) : (toInt32 n % 2 ^ 32).toNat = n := by
  unfold toInt32
  omega

/-- A word's low half fits sixteen bits. -/
theorem low_lt {words : List ℤ} {w : ℕ} (hw : w ∈ words.map fun v => (v % 2 ^ 16).toNat) : w < 2 ^ 16 := by
  obtain ⟨v, -, rfl⟩ := List.mem_map.1 hw
  have := Int.emod_lt_of_pos v (show (0 : ℤ) < 2 ^ 16 by norm_num)
  omega

/-- The decoder on rows that hold the words of the streams, whatever zeros follow. -/
theorem ransDecodeGpu_padded {K : ℕ} {hp : precision ≤ 16} {lut : List ℤ} (hK : 1 ≤ K)
    (ht : AllTabled hp freq lut (paddedSymbols symbols freq K)) {ws : List (List ℤ)} (hlen : ws.length = K)
    (hws : Each (fun k w => streamWords symbols freq precision K 2 k = .ok w) ws) (maxw : ℕ) :
    ransDecodeGpu (ws.map fun w => w ++ List.replicate (maxw - w.length) 0) (ints (ws.map List.length)) freq (0 :: cumsumInt freq) lut
      symbols.length (ceilDiv symbols.length K) precision = .ok (ints symbols) := by
  have hzip : (ws.map fun w => w ++ List.replicate (maxw - w.length) 0).zip (ints (ws.map List.length)) =
      ws.map fun w => (w ++ List.replicate (maxw - w.length) 0, (w.length : ℤ)) := by
    rw [ints, List.map_map]
    exact List.zip_map'
  have hrows : Each (RowHolds freq precision (paddedSymbols symbols freq K) K (ceilDiv symbols.length K) 2)
      ((ws.map fun w => w ++ List.replicate (maxw - w.length) 0).zip (ints (ws.map List.length))) := by
    intro k row hrow
    rw [hzip, List.getElem?_map, Option.map_eq_some_iff] at hrow
    obtain ⟨w, hw, rfl⟩ := hrow
    exact ⟨w, hws k w hw, List.prefix_append w _, rfl⟩
  obtain ⟨lanes, hlanes, hlanesLen, hout⟩ :=
    decodeLanes_spec symbols hK ht (le_refl 2) (by rw [hzip, List.length_map, hlen]) hrows
  rw [ransDecodeGpu, hlanes, ok_map, flatMap_streams hK hlanesLen hout]

/-- **The blob of an array whose table fits** gives the array back. -/
theorem ansDecompress_streams {K : ℕ} (hne : symbols ≠ []) (hp : precision ≤ 16) (hc : Covers symbols freq)
    (hsum : freq.sum = 2 ^ precision) (hfits : ∀ f ∈ freq, f < 2 ^ 16) (hn : symbols.length < 2 ^ 64) (hK : 1 ≤ K)
    (hK' : K < 2 ^ 32) (hlen : ceilDiv symbols.length K + 2 < 2 ^ 32) (hnSym : freq.length < 2 ^ 32) :
    ∃ lanes, encodeLanes symbols freq (0 :: cumsumInt freq) precision K = .ok lanes ∧
      ansDecompress (ansMagic ++
        (toLE 8 symbols.length ++ toLE 4 K ++ toLE 1 precision ++ toLE 4 freq.length) ++
        (freq.map fun f => (f % 2 ^ 16).toNat).flatMap (toLE 2) ++
        ((lanes.map fun lane => toInt32 lane.wpos).map fun w => (w % 2 ^ 32).toNat).flatMap (toLE 4) ++
        (((lanes.map fun lane => lane.row.map toInt32).zip
          ((lanes.map fun lane => toInt32 lane.wpos).map fun w => (w % 2 ^ 32).toNat)).flatMap fun row =>
            (row.1.take row.2).map fun w => (w % 2 ^ 16).toNat).flatMap (toLE 2)) = .ok (ints symbols) := by
  have hv : ValidTable freq precision := ⟨hc.nonneg, hsum⟩
  obtain ⟨lut, hlut, hfill⟩ := slotToSymbol_spec hv.nonneg hv.sum
  have ht : AllTabled hp freq lut (paddedSymbols symbols freq K) := hv.allTabled hp hc.used hfill
  obtain ⟨lanes, hlanes, hlanesLen, -, hrows⟩ := encodeLanes_rows symbols hK ht (le_refl 2)
  refine ⟨lanes, hlanes, ?_⟩
  -- the words of the lanes
  set ws := lanes.map fun lane => (lane.row.map toInt32).take lane.wpos with hws
  have hstream : Each (fun k w => streamWords symbols freq precision K 2 k = .ok w) ws := by
    intro k w hw
    rw [hws, List.getElem?_map, Option.map_eq_some_iff] at hw
    obtain ⟨lane, hlane, rfl⟩ := hw
    obtain ⟨words, hwords, htake, hwpos, -⟩ := hrows k lane hlane
    rw [hwpos, htake, hwords]
  have hrow : ∀ lane ∈ lanes, lane.wpos < 2 ^ 32 ∧ ((lane.row.map toInt32).take lane.wpos).length = lane.wpos ∧
      ∀ v ∈ (lane.row.map toInt32).take lane.wpos, 0 ≤ v ∧ v < 2 ^ 16 := by
    intro lane hlane
    obtain ⟨k, hk, rfl⟩ := List.mem_iff_getElem.1 hlane
    obtain ⟨words, -, htake, hwpos, hle, hbounds⟩ := hrows k _ (List.getElem?_eq_getElem hk)
    rw [hwpos, htake]
    exact ⟨by omega, rfl, hbounds⟩
  have hwsLen : lanes.map Lane.wpos = ws.map List.length := by
    rw [hws, List.map_map]
    exact List.map_congr_left fun lane hlane => (hrow lane hlane).2.1.symm
  -- the fields of the blob
  have hwpos : (lanes.map fun lane => toInt32 lane.wpos).map (fun w => (w % 2 ^ 32).toNat) = lanes.map Lane.wpos := by
    rw [List.map_map]
    refine List.map_congr_left fun lane hlane => ?_
    rw [Function.comp_apply, toInt32_unsigned (hrow lane hlane).1]
  have hfreq : ints (freq.map fun f => (f % 2 ^ 16).toNat) = freq := by
    refine ints_low_words fun f hf => ⟨?_, hfits f hf⟩
    obtain ⟨i, hi, rfl⟩ := List.mem_iff_getElem.1 hf
    rw [← cell_eq_getElem hi]
    exact hc.nonneg i
  have hfreqLen : (freq.map fun f => (f % 2 ^ 16).toNat).length = freq.length := List.length_map _
  have hzip : (lanes.map fun lane => lane.row.map toInt32).zip (lanes.map Lane.wpos) =
      lanes.map fun lane => (lane.row.map toInt32, lane.wpos) := List.zip_map'
  have hwords : ints ((lanes.map fun lane => (lane.row.map toInt32, lane.wpos)).flatMap fun row =>
      (row.1.take row.2).map fun w => (w % 2 ^ 16).toNat) = ws.flatten := by
    rw [ints_flatMap_rows, List.map_map]
    · rfl
    · intro row hmem
      obtain ⟨lane, hlane, rfl⟩ := List.mem_map.1 hmem
      exact (hrow lane hlane).2.2
  have hwposLen : (lanes.map Lane.wpos).length = K := by rw [List.length_map, hlanesLen]
  have hsome : lanes.map Lane.wpos ≠ [] := by
    intro h
    rw [h] at hwposLen
    exact absurd hwposLen (Nat.ne_of_lt hK)
  have hmax : ∀ w ∈ ws, w.length ≤ (ws.map List.length).foldr max 0 := fun w hw =>
    Nat.lt_succ_iff.1 (mem_lt_bound (List.mem_map_of_mem hw))
  rw [hwpos, hzip, ← hfreqLen]
  nth_rewrite 1 [← hwposLen]
  rw [ansDecompress_blob (mt List.length_eq_zero_iff.1 hne) hn hsome (by rwa [hwposLen]) (by omega) (by rwa [hfreqLen])
    (fun f hf => low_lt hf) ?_ ?_, hfreq, hlut, ok_bind, hwords, hwposLen, hwsLen, splitWords_flatten hmax, ok_bind]
  · exact ransDecodeGpu_padded hK ht (by rw [hws, List.length_map, hlanesLen]) hstream _
  · intro w hw
    obtain ⟨lane, hlane, rfl⟩ := List.mem_map.1 hw
    exact (hrow lane hlane).1
  · intro w hw
    obtain ⟨row, -, hw⟩ := List.mem_flatMap.1 hw
    exact low_lt hw

/-! ## Every array -/

/-- The precision an array gets is one `build_freq_table` takes. -/
theorem defaultPrecision_bounds (symbols : List ℕ) : 1 ≤ defaultPrecision symbols ∧ defaultPrecision symbols ≤ 16 := by
  rw [defaultPrecision]
  omega

/-- The table of an array at the precision it gets. -/
theorem buildFreqTable_default (round : ℤ → ℤ → ℤ) (hne : symbols ≠ []) (hs : ∀ s ∈ symbols, s ≤ 65535) :
    ∃ freq, buildFreqTable round symbols (defaultPrecision symbols) = .ok (freq, 0 :: cumsumInt freq, freq.length) ∧
      Covers symbols freq ∧ freq.sum = 2 ^ defaultPrecision symbols := by
  obtain ⟨h1, h16⟩ := defaultPrecision_bounds symbols
  obtain ⟨freq, hbuild, hc, hsum⟩ := buildFreqTable_spec round hne h1 h16 (dedup_length_le hs)
  exact ⟨freq, hc.length ▸ hbuild, hc, hsum⟩

/-- The guard of the table stops an array of one symbol from `2 ^ 14` on. -/
theorem ansCompress_of_single (round : ℤ → ℤ → ℤ) (K : Option ℤ) {s : ℕ} (hne : symbols ≠ []) (hs : ∀ t ∈ symbols, t ≤ 65535)
    (hall : ∀ t ∈ symbols, t = s) (hbig : 2 ^ 14 ≤ s) :
    ansCompress round symbols none K = .error (.valueError "freq exceeds uint16; use precision <= 16 with fewer symbols") := by
  obtain ⟨freq, hbuild, hc, hsum⟩ := buildFreqTable_default round hne hs
  have hany := (any_freq_iff hne (defaultPrecision_bounds symbols).2 hc hsum).2
    ⟨(defaultPrecision_eq_iff hne hall).2 hbig, s, hall⟩
  rw [ansCompress, if_neg (mt List.length_eq_zero_iff.1 hne), Option.getD_none, hbuild, ok_bind]
  exact if_pos hany

/-- **The blob codec.** An array of 16-bit symbols of the lengths the header can hold, with the precision it gets by itself, is
written and read back, unless it is one symbol from `2 ^ 14` on over and over: that table does not fit 16 bits and is refused. -/
theorem ansDecompress_ansCompress (round : ℤ → ℤ → ℤ) (symbols : List ℕ) (K : Option ℤ) (hs : ∀ s ∈ symbols, s ≤ 65535)
    (hn : symbols.length < 2 ^ 64) (hK : 0 < streamCount K symbols.length) (hK' : streamCount K symbols.length < 2 ^ 32)
    (hlen : ceilDiv symbols.length (streamCount K symbols.length).toNat + 2 < 2 ^ 32) :
    ((symbols ≠ [] ∧ ∃ s, 2 ^ 14 ≤ s ∧ ∀ t ∈ symbols, t = s) → ansCompress round symbols none K =
      .error (.valueError "freq exceeds uint16; use precision <= 16 with fewer symbols")) ∧
    (¬ (symbols ≠ [] ∧ ∃ s, 2 ^ 14 ≤ s ∧ ∀ t ∈ symbols, t = s) →
      ∃ blob, ansCompress round symbols none K = .ok blob ∧ ansDecompress blob = .ok (ints symbols)) := by
  refine ⟨fun ⟨hne, s, hbig, hall⟩ => ansCompress_of_single round K hne hs hall hbig, fun h => ?_⟩
  by_cases hne : symbols = []
  · subst hne
    exact ⟨_, rfl, by decide⟩
  obtain ⟨freq, hbuild, hc, hsum⟩ := buildFreqTable_default round hne hs
  have h16 := (defaultPrecision_bounds symbols).2
  have hany : ¬ (freq.any fun f => 65535 < f) = true := by
    rw [any_freq_iff hne h16 hc hsum]
    rintro ⟨hp, s, hall⟩
    exact h ⟨hne, s, (defaultPrecision_eq_iff hne hall).1 hp, hall⟩
  have hfits : ∀ f ∈ freq, f < 2 ^ 16 := by
    intro f hf
    by_contra hge
    exact hany (List.any_eq_true.2 ⟨f, hf, decide_eq_true (by omega)⟩)
  have hnSym : freq.length < 2 ^ 32 := by
    rw [hc.length]
    have := foldr_max_le hs
    omega
  obtain ⟨lanes, hlanes, hblob⟩ := ansDecompress_streams (K := (streamCount K symbols.length).toNat) hne h16 hc hsum hfits hn
    (by omega) (by omega) hlen hnSym
  refine ⟨_, ?_, hblob⟩
  rw [ansCompress, if_neg (mt List.length_eq_zero_iff.1 hne), Option.getD_none, hbuild, ok_bind]
  refine (if_neg hany).trans ?_
  rw [if_neg (by omega), ransEncodeGpu, if_neg (by omega), hlanes, ok_map, ok_bind, packHeader,
    if_pos ⟨hn, by omega, by omega, hnSym⟩, ok_map]

/-- Three symbols of two kinds, on the number of streams the coder picks. -/
theorem ansDecompress_ansCompress_three :
    (([7, 0, 7] ≠ [] ∧ ∃ s, 2 ^ 14 ≤ s ∧ ∀ t ∈ [7, 0, 7], t = s) → ansCompress (fun h total => (2 * h * 4096 + total) / (2 * total))
      [7, 0, 7] none none = .error (.valueError "freq exceeds uint16; use precision <= 16 with fewer symbols")) ∧
    (¬ ([7, 0, 7] ≠ [] ∧ ∃ s, 2 ^ 14 ≤ s ∧ ∀ t ∈ [7, 0, 7], t = s) →
      ∃ blob, ansCompress (fun h total => (2 * h * 4096 + total) / (2 * total)) [7, 0, 7] none none = .ok blob ∧
        ansDecompress blob = .ok (ints [7, 0, 7])) :=
  ansDecompress_ansCompress _ [7, 0, 7] none (by decide) (by decide) (by decide) (by decide) (by decide)

/-- One symbol whose own table does not fit 16 bits. -/
theorem single_symbol_refused :
    ¬ ∃ blob, ansCompress (fun h total => (2 * h * 65536 + total) / (2 * total)) [16384] none none = .ok blob := by
  rintro ⟨blob, h⟩
  rw [ansCompress_of_single _ none (s := 16384) (by decide) (by decide) (by decide) (by decide)] at h
  cases h

end Orka
