import Orka.Lemmas.AnsGpu
import Orka.Theorems.Ans

/-!
# The interleaved coder and its blob

Every stream of the interleaved encoder is the scalar encoder's, and the decoder returns the array, as long as the number of words of
a stream fits the 32 bits it is kept in.
-/

namespace Orka

open Flat Steps Endian AnsAux Lanes

/-- A frequency table that divides all slots. -/
structure ValidTable (freq : List ℤ) (precision : ℕ) : Prop where
  nonneg : ∀ s, 0 ≤ cell freq s
  sum : freq.sum = 2 ^ precision

variable {symbols : List ℕ} {freq : List ℤ} {precision K fuel : ℕ}

/-- The symbol that pads has slots. -/
theorem ValidTable.one_le_argmax (h : ValidTable freq precision) : 1 ≤ cell freq (argmax freq) := by
  have hpos : 0 < freq.sum := by
    rw [h.sum]
    positivity
  have hne : freq ≠ [] := by
    rintro rfl
    exact lt_irrefl 0 hpos
  by_contra hlt
  have hle : ∀ y ∈ freq, y ≤ 0 := fun y hy => ((argmax_spec hne).2 y hy).trans (by omega)
  have hsum := List.sum_le_card_nsmul freq 0 hle
  rw [nsmul_zero] at hsum
  exact absurd hsum (not_le.2 hpos)

/-- A valid table serves the padded array. -/
theorem ValidTable.allTabled (h : ValidTable freq precision) (hp : precision ≤ 16) (hused : ∀ s ∈ symbols, 1 ≤ cell freq s)
    {lut : List ℤ} (hf : Filled freq (2 ^ precision) freq.length lut) : AllTabled hp freq lut (paddedSymbols symbols freq K) := by
  intro s hs
  have hone : 1 ≤ cell freq s := by
    rcases List.mem_append.1 hs with hs | hs
    · exact hused s hs
    · rw [List.eq_of_mem_replicate hs]
      exact h.one_le_argmax
  refine ⟨?_, tabled_of_filled h.nonneg h.sum hf hone⟩
  by_contra hge
  rw [cell_of_le (not_lt.1 hge)] at hone
  exact absurd hone (by norm_num)

/-- The words of the scalar coder have 16 bits. -/
theorem words_bounds {lut : List ℤ} {hp : precision ≤ 16} {l : List ℕ}
    (ht : ∀ s ∈ l, ∃ sh : Rans.Share (ransCoder precision hp), Tabled freq (0 :: cumsumInt freq) lut s sh) (hfuel : 2 ≤ fuel)
    {words : List ℤ} (h : ransEncodeScalar fuel l freq (0 :: cumsumInt freq) precision = .ok words) :
    ∀ w ∈ words, 0 ≤ w ∧ w < 2 ^ 16 := by
  have low : ∀ x : ℤ, 0 ≤ lowBits renormBits x ∧ lowBits renormBits x < 2 ^ 16 := fun x =>
    ⟨Int.emod_nonneg x (by norm_num [renormBits]), Int.emod_lt_of_pos x (by norm_num [renormBits])⟩
  have run : ∀ m : List ℕ, (∀ s ∈ m, s ∈ l) → ∀ e, encodeSymbols fuel freq (0 :: cumsumInt freq) precision m = .ok e →
      ∀ w ∈ e.out, 0 ≤ w ∧ w < 2 ^ 16 := by
    intro m
    induction m using List.reverseRecOn with
    | nil =>
      rintro - e he
      obtain rfl := Except.ok.inj he
      intro w hw
      cases hw
    | append_singleton m s ih =>
      intro hm e he w hw
      have hm' : ∀ s ∈ m, s ∈ l := fun s hs => hm s (List.mem_append_left _ hs)
      obtain ⟨e₀, he₀, hx₀⟩ := encodeSymbols_ok ht hfuel hm'
      obtain ⟨sh, hsh⟩ := ht s (hm s (by simp))
      rw [encodeSymbols_snoc he₀, encodeSymbol_eq hsh hx₀ hfuel] at he
      obtain rfl := Except.ok.inj he
      rcases List.mem_append.1 hw with hw | hw
      · exact ih hm' e₀ he₀ w hw
      · rw [digitOut] at hw
        split at hw
        · rw [List.mem_singleton.1 hw]
          exact low _
        · cases hw
  rw [ransEncodeScalar] at h
  obtain ⟨e, he, rfl⟩ := map_eq_ok.1 h
  intro w hw
  rcases List.mem_append.1 hw with hw | hw
  · exact run _ (fun s hs => List.mem_reverse.1 hs) e he w hw
  · simp only [List.mem_cons, List.not_mem_nil, or_false] at hw
    rcases hw with rfl | rfl
    · exact low _
    · exact low _

/-- Symbols read off the streams in turn are the padded array. -/
theorem flatMap_streams (hK : 1 ≤ K) {lanes : List ReadLane} (hlen : lanes.length = K)
    (h : Each (fun k (lane : ReadLane) =>
      lane.out = ints (streamOf (paddedSymbols symbols freq K) K (ceilDiv symbols.length K) k)) lanes) :
    ((List.range (ceilDiv symbols.length K)).flatMap fun t => lanes.map fun lane => cell lane.out t).take symbols.length =
      ints symbols := by
  have hpadded := length_padded freq symbols hK
  have hrows : ((List.range (ceilDiv symbols.length K)).map fun t => lanes.map fun lane => cell lane.out t) =
      rowsOf (ceilDiv symbols.length K) K (ints (paddedSymbols symbols freq K)) := by
    refine List.map_congr_left fun t ht => ?_
    have ht := List.mem_range.1 ht
    have hroom : t * K + K ≤ (paddedSymbols symbols freq K).length := by
      rw [hpadded, ← Nat.succ_mul]
      exact Nat.mul_le_mul_right K ht
    refine List.ext_getElem (by simp only [List.length_map, hlen, List.length_take, List.length_drop, length_ints]; omega) ?_
    intro k hk hk'
    rw [List.length_map] at hk
    have hlane := h k lanes[k] (List.getElem?_eq_getElem hk)
    have hin : t * K + k < (paddedSymbols symbols freq K).length := by omega
    have hstream : t < (ints (streamOf (paddedSymbols symbols freq K) K (ceilDiv symbols.length K) k)).length := by
      rw [length_ints, streamOf, length_tabulate]
      exact ht
    rw [List.getElem_map, hlane, cell_eq_getElem hstream, List.getElem_take, List.getElem_drop]
    simp only [ints, List.getElem_map, streamOf, tabulate, List.getElem_range]
    rw [List.getD_eq_getElem _ _ hin]
  rw [List.flatMap_def, hrows, flatten_rowsOf (by rw [length_ints, hpadded]), paddedSymbols, ints, List.map_append]
  exact List.take_left' (by rw [List.length_map])

/-- A value below `2 ^ 31` does not wrap. -/
theorem toInt32_of_lt {n : ℤ} (h0 : 0 ≤ n) (h : n < 2 ^ 31) : toInt32 n = n := by
  unfold toInt32
  omega

/-- The words of stream `k`, as the reference encodes them. -/
def streamWords (symbols : List ℕ) (freq : List ℤ) (precision K fuel k : ℕ) : Except PyErr (List ℤ) :=
  ransEncodeScalar fuel (streamOf (paddedSymbols symbols freq K) K (ceilDiv symbols.length K) k) freq (0 :: cumsumInt freq) precision

variable (symbols) in
/-- **What the tensors of the encoder hold**, before their narrowing to 32 bits. -/
theorem encodeLanes_rows (hK : 1 ≤ K) {hp : precision ≤ 16} {lut : List ℤ}
    (ht : AllTabled hp freq lut (paddedSymbols symbols freq K)) (hfuel : 2 ≤ fuel) :
    ∃ lanes, encodeLanes symbols freq (0 :: cumsumInt freq) precision K = .ok lanes ∧ lanes.length = K ∧
      (∀ lane ∈ lanes, ∀ q ∈ lane.writes, q ≤ ceilDiv symbols.length K + 1) ∧
      Each (fun k (lane : Lane) => ∃ words, streamWords symbols freq precision K fuel k = .ok words ∧
        (lane.row.map toInt32).take words.length = words ∧ lane.wpos = words.length ∧
        words.length ≤ ceilDiv symbols.length K + 2 ∧ ∀ w ∈ words, 0 ≤ w ∧ w < 2 ^ 16) lanes := by
  obtain ⟨lanes, hlanes, hlen, hdone⟩ := encodeLanes_spec symbols hK ht hfuel
  refine ⟨lanes, hlanes, hlen, fun lane hlane q hq => ?_, fun k lane hk => ?_⟩
  · obtain ⟨k, hk, rfl⟩ := List.mem_iff_getElem.1 hlane
    obtain ⟨words, -, hle, htracks⟩ := hdone k _ (List.getElem?_eq_getElem hk)
    have hq : q < lanes[k].wpos := htracks.writes q hq
    rw [show lanes[k].wpos = words.length from htracks.wpos] at hq
    omega
  · have hkK : k < K := by
      rw [← hlen]
      exact (List.getElem?_eq_some_iff.1 hk).1
    obtain ⟨words, hwords, hle, htracks⟩ := hdone k lane hk
    have hstream : ∀ s ∈ streamOf (paddedSymbols symbols freq K) K (ceilDiv symbols.length K) k,
        ∃ sh : Rans.Share (ransCoder precision hp), Tabled freq (0 :: cumsumInt freq) lut s sh := by
      intro s hs
      obtain ⟨t, htlt, rfl⟩ := List.mem_map.1 hs
      exact (ht _ (getD_padded_mem hK (List.mem_range.1 htlt) hkK)).2
    have hbounds := words_bounds hstream hfuel hwords
    have hwpos : lane.wpos = words.length := htracks.wpos
    have htake : lane.row.take words.length = words := hwpos ▸ htracks.row
    refine ⟨words, hwords, ?_, hwpos, hle, hbounds⟩
    rw [← List.map_take, htake]
    refine (List.map_congr_left fun w hw => ?_).trans (List.map_id _)
    exact toInt32_of_lt (hbounds w hw).1 ((hbounds w hw).2.trans (by norm_num))

/-- A count survives the narrowing exactly while it is below `2 ^ 31`. -/
theorem toInt32_natCast_iff (n : ℕ) : toInt32 n = n ↔ n < 2 ^ 31 := by
  unfold toInt32
  omega

/-- Streams of fewer than `2 ^ 31 - 2` symbols have counts of 32 bits. -/
theorem words_short (symbols : List ℕ) (freq : List ℤ) (precision K fuel : ℕ) (hK : 1 ≤ K) (hp : precision ≤ 16) (hfuel : 2 ≤ fuel)
    (hv : ValidTable freq precision) (hused : ∀ s ∈ symbols, 1 ≤ cell freq s) (hshort : ceilDiv symbols.length K + 2 < 2 ^ 31) :
    ∀ k < K, ∀ words, streamWords symbols freq precision K fuel k = .ok words → words.length < 2 ^ 31 := by
  obtain ⟨lut, -, hfill⟩ := slotToSymbol_spec hv.nonneg hv.sum
  obtain ⟨lanes, -, hlen, -, hdone⟩ := encodeLanes_rows symbols hK (hv.allTabled hp hused hfill) hfuel
  intro k hk words hwords
  obtain ⟨words', hwords', -, -, hle, -⟩ := hdone k _ (List.getElem?_eq_getElem (by rwa [hlen]))
  rw [hwords] at hwords'
  rw [Except.ok.inj hwords']
  omega

/-- **The interleaved coder.** With a table that has slots for the symbols, on any number of streams: no write goes past column
`L_s + 1`; and stream `k` holds the words of the scalar encoder for its padded symbols, at most one a symbol besides the two of the
state, and the decoder returns the array, exactly where the words of every stream can be counted in 32 bits. -/
theorem ransDecodeGpu_ransEncodeGpu (symbols : List ℕ) (freq : List ℤ) (precision K fuel : ℕ) (hK : 1 ≤ K) (hp : precision ≤ 16)
    (hfuel : 2 ≤ fuel) (hv : ValidTable freq precision) (hused : ∀ s ∈ symbols, 1 ≤ cell freq s) :
    ∃ lanes code lut, encodeLanes symbols freq (0 :: cumsumInt freq) precision K = .ok lanes ∧
      (∀ lane ∈ lanes, ∀ q ∈ lane.writes, q ≤ ceilDiv symbols.length K + 1) ∧
      ransEncodeGpu symbols freq (0 :: cumsumInt freq) precision K = .ok code ∧ slotToSymbol freq precision = .ok lut ∧
      ((∀ k < K, ∃ words row, streamWords symbols freq precision K fuel k = .ok words ∧ code.out[k]? = some row ∧
          code.wpos[k]? = some (words.length : ℤ) ∧ row.take words.length = words ∧
          words.length ≤ ceilDiv symbols.length K + 2) ∧
        ransDecodeGpu code.out code.wpos freq (0 :: cumsumInt freq) lut code.n code.len precision = .ok (ints symbols) ↔
      ∀ k < K, ∀ words, streamWords symbols freq precision K fuel k = .ok words → words.length < 2 ^ 31) := by
  obtain ⟨lut, hlut, hfill⟩ := slotToSymbol_spec hv.nonneg hv.sum
  have ht : AllTabled hp freq lut (paddedSymbols symbols freq K) := hv.allTabled hp hused hfill
  obtain ⟨lanes, hlanes, hlen, hwrites, hdone⟩ := encodeLanes_rows symbols hK ht hfuel
  refine ⟨lanes, _, lut, hlanes, hwrites, by rw [ransEncodeGpu, if_neg (by omega), hlanes, ok_map], hlut, ?_, fun hfit => ?_⟩
  · -- a count that is not the number of words is one that was cut
    rintro ⟨hcounts, -⟩ k hk words hwords
    have hlt : k < lanes.length := by rwa [hlen]
    obtain ⟨words', hwords', -, hwpos, -⟩ := hdone k _ (List.getElem?_eq_getElem hlt)
    obtain ⟨counted, -, hcounted, -, hcount, -⟩ := hcounts k hk
    obtain rfl := Except.ok.inj (hwords'.symm.trans hwords)
    obtain rfl := Except.ok.inj (hcounted.symm.trans hwords)
    have hcell : toInt32 lanes[k].wpos = (counted.length : ℤ) := by simpa [hlt] using hcount
    rw [hwpos] at hcell
    exact (toInt32_natCast_iff _).1 hcell
  -- the cursors survive the narrowing
  have hrow : ∀ k lane, lanes[k]? = some lane → ∃ words, streamWords symbols freq precision K fuel k = .ok words ∧
      (lane.row.map toInt32).take words.length = words ∧ toInt32 lane.wpos = (words.length : ℤ) ∧
      words.length ≤ ceilDiv symbols.length K + 2 := by
    intro k lane hk
    have hkK : k < K := by
      rw [← hlen]
      exact (List.getElem?_eq_some_iff.1 hk).1
    obtain ⟨words, hwords, htake, hwpos, hle, -⟩ := hdone k lane hk
    refine ⟨words, hwords, htake, ?_, hle⟩
    rw [hwpos]
    exact (toInt32_natCast_iff _).2 (hfit k hkK words hwords)
  constructor
  · intro k hk
    have hlt : k < lanes.length := by rwa [hlen]
    obtain ⟨words, hwords, htake, hwpos, hle⟩ := hrow k _ (List.getElem?_eq_getElem hlt)
    refine ⟨words, lanes[k].row.map toInt32, hwords, by simp [hlt], ?_, htake, hle⟩
    rw [← hwpos]
    simp [hlt]
  · have hrows : Each (RowHolds freq precision (paddedSymbols symbols freq K) K (ceilDiv symbols.length K) fuel)
        ((lanes.map fun lane => lane.row.map toInt32).zip (lanes.map fun lane => toInt32 lane.wpos)) := by
      intro k row hk
      rw [List.zip_map', List.getElem?_map, Option.map_eq_some_iff] at hk
      obtain ⟨lane, hlane, rfl⟩ := hk
      obtain ⟨words, hwords, htake, hwpos, -⟩ := hrow k lane hlane
      exact ⟨words, hwords, htake ▸ List.take_prefix _ _, hwpos⟩
    obtain ⟨read, hread, hreadLen, hout⟩ := decodeLanes_spec symbols hK ht hfuel (by simp [hlen]) hrows
    rw [ransDecodeGpu, hread, ok_map, flatMap_streams hK hreadLen hout]

/-- Five symbols on two streams, the second one padded. -/
theorem ransDecodeGpu_ransEncodeGpu_two :
    ∃ lanes code lut, encodeLanes [0, 1, 0, 1, 1] [2, 2] (0 :: cumsumInt [2, 2]) 2 2 = .ok lanes ∧
      (∀ lane ∈ lanes, ∀ q ∈ lane.writes, q ≤ ceilDiv 5 2 + 1) ∧
      ransEncodeGpu [0, 1, 0, 1, 1] [2, 2] (0 :: cumsumInt [2, 2]) 2 2 = .ok code ∧ slotToSymbol [2, 2] 2 = .ok lut ∧
      (∀ k < 2, ∃ words row, streamWords [0, 1, 0, 1, 1] [2, 2] 2 2 2 k = .ok words ∧ code.out[k]? = some row ∧
        code.wpos[k]? = some (words.length : ℤ) ∧ row.take words.length = words ∧ words.length ≤ ceilDiv 5 2 + 2) ∧
      ransDecodeGpu code.out code.wpos [2, 2] (0 :: cumsumInt [2, 2]) lut code.n code.len 2 = .ok (ints [0, 1, 0, 1, 1]) := by
  have hnonneg : ∀ s, 0 ≤ cell ([2, 2] : List ℤ) s := by
    rintro (_ | _ | s) <;> simp [cell]
  have hv : ValidTable [2, 2] 2 := ⟨hnonneg, by decide⟩
  have hshort := words_short [0, 1, 0, 1, 1] [2, 2] 2 2 2 (by decide) (by decide) (by decide) hv (by decide) (by decide)
  obtain ⟨lanes, code, lut, hlanes, hwrites, hcode, hlut, hiff⟩ :=
    ransDecodeGpu_ransEncodeGpu [0, 1, 0, 1, 1] [2, 2] 2 2 2 (by decide) (by decide) (by decide) hv (by decide)
  obtain ⟨hcounts, hdecoded⟩ := hiff.2 hshort
  exact ⟨lanes, code, lut, hlanes, hwrites, hcode, hlut, hcounts, hdecoded⟩

/-! ### A stream that is too long -/

/-- A symbol with one slot of `2 ^ 16` moves a word out every time. -/
theorem length_out_replicate {lut : List ℤ} {s : ℕ}
    (ht : ∃ sh : Rans.Share (ransCoder 16 (le_refl 16)), Tabled freq (0 :: cumsumInt freq) lut s sh ∧ sh.f = 1) (hfuel : 2 ≤ fuel)
    (n : ℕ) {e : Encoder} (he : encodeSymbols fuel freq (0 :: cumsumInt freq) 16 (List.replicate n s) = .ok e) :
    e.out.length = n := by
  obtain ⟨sh, hsh, hf⟩ := ht
  have hall : ∀ u ∈ [s], ∃ sh : Rans.Share (ransCoder 16 (le_refl 16)), Tabled freq (0 :: cumsumInt freq) lut u sh := by
    intro u hu
    rw [List.mem_singleton.1 hu]
    exact ⟨sh, hsh⟩
  induction n generalizing e with
  | zero =>
    obtain rfl := Except.ok.inj he
    rfl
  | succ n ih =>
    obtain ⟨e₀, he₀, hx₀⟩ := encodeSymbols_ok hall hfuel (l := List.replicate n s) fun u hu =>
      List.mem_singleton.2 (List.eq_of_mem_replicate hu)
    rw [List.replicate_succ', encodeSymbols_snoc he₀, encodeSymbol_eq hsh hx₀ hfuel] at he
    obtain rfl := Except.ok.inj he
    have hb : sh.bound ≤ e₀.x := by
      have hlow := hx₀.1
      rw [ransCoder_lower 16 (le_refl 16)] at hlow
      rw [Rans.Share.bound, hf]
      exact (by norm_num [ransCoder, renormBits, ransL] : _ = ransL).le.trans hlow
    show (e₀.out ++ digitOut sh e₀.x).length = n + 1
    rw [digitOut, if_pos hb, List.length_append, ih he₀, List.length_singleton]

/-- In one lane one symbol repeated is the stream. -/
theorem streamOf_one (n s : ℕ) (freq : List ℤ) :
    streamOf (paddedSymbols (List.replicate n s) freq 1) 1 (ceilDiv (List.replicate n s).length 1) 0 = List.replicate n s := by
  rw [ceilDiv_one, List.length_replicate, streamOf, tabulate, paddedSymbols, ceilDiv_one, List.length_replicate, Nat.mul_one,
    Nat.sub_self, List.replicate_zero, List.append_nil]
  refine List.eq_replicate_iff.2 ⟨by rw [List.length_map, List.length_range], fun u hu => ?_⟩
  obtain ⟨t, ht, rfl⟩ := List.mem_map.1 hu
  rw [Nat.mul_one, Nat.add_zero, List.getD_eq_getElem _ _ (by simpa using ht), List.getElem_replicate]

/-- One stream of `2 ^ 31` words: its count wraps to a negative number, and the decoder reads outside the row. -/
theorem long_stream_not_decoded :
    ∃ code lut, ransEncodeGpu (List.replicate (2 ^ 31 - 2) 1) [65535, 1] (0 :: cumsumInt [65535, 1]) 16 1 = .ok code ∧
      slotToSymbol [65535, 1] 16 = .ok lut ∧ code.wpos = [-2 ^ 31] ∧
      ransDecodeGpu code.out code.wpos [65535, 1] (0 :: cumsumInt [65535, 1]) lut code.n code.len 16 = .error .indexError := by
  generalize hn : 2 ^ 31 - 2 = n
  have hnonneg : ∀ s, 0 ≤ cell ([65535, 1] : List ℤ) s := by
    rintro (_ | _ | s) <;> simp [cell]
  have hv : ValidTable [65535, 1] 16 := ⟨hnonneg, by decide⟩
  obtain ⟨lut, hlut, hfill⟩ := slotToSymbol_spec hv.nonneg hv.sum
  have hused : ∀ s ∈ List.replicate n 1, 1 ≤ cell ([65535, 1] : List ℤ) s := by
    intro s hs
    rw [List.eq_of_mem_replicate hs]
    decide
  have ht : AllTabled (le_refl 16) [65535, 1] lut (paddedSymbols (List.replicate n 1) [65535, 1] 1) :=
    hv.allTabled (le_refl 16) hused hfill
  obtain ⟨lanes, hlanes, hlen, hdone⟩ := encodeLanes_spec (List.replicate n 1) (le_refl 1) ht (le_refl 2)
  obtain ⟨lane, rfl⟩ := List.length_eq_one_iff.1 hlen
  obtain ⟨words, hwords, -, htracks⟩ := hdone 0 lane rfl
  rw [streamOf_one, ransEncodeScalar] at hwords
  obtain ⟨e, he, rfl⟩ := map_eq_ok.1 hwords
  rw [List.reverse_replicate] at he
  have hshare : ∃ sh : Rans.Share (ransCoder 16 (le_refl 16)), Tabled [65535, 1] (0 :: cumsumInt [65535, 1]) lut 1 sh ∧ sh.f = 1 := by
    obtain ⟨sh, hsh⟩ : ∃ sh : Rans.Share (ransCoder 16 (le_refl 16)), Tabled [65535, 1] (0 :: cumsumInt [65535, 1]) lut 1 sh :=
      tabled_of_filled hv.nonneg hv.sum hfill (by decide)
    exact ⟨sh, hsh, (Except.ok.inj ((show itemAt [65535, 1] ((1 : ℕ) : ℤ) = .ok 1 from rfl).symm.trans hsh.freq)).symm⟩
  have hout := length_out_replicate hshare (le_refl 2) n he
  have hwpos : lane.wpos = n + 2 := by
    rw [show lane.wpos = _ from htracks.wpos, List.length_append, hout]
    rfl
  have hwidth : lane.row.length = n + 2 := by
    rw [show lane.row.length = _ from htracks.width, ceilDiv_one, List.length_replicate]
  have hwrap : toInt32 lane.wpos = -2 ^ 31 := by
    rw [hwpos, ← hn]
    norm_num [toInt32]
  refine ⟨_, lut, by rw [ransEncodeGpu, if_neg one_ne_zero, hlanes, ok_map], hlut, ?_, ?_⟩
  · simp only [List.map_cons, List.map_nil, hwrap]
  · have hread : itemAt (lane.row.map toInt32) (-2 ^ 31 - 1) = .error .indexError := by
      rw [itemAt, axisIndex, List.length_map, hwidth, ← hn]
      rfl
    simp only [ransDecodeGpu, decodeLanes, List.map_cons, List.map_nil, List.zip_cons_cons, List.zip_nil_left, hwrap, mapM_cons_eq,
      ReadLane.start, hread, error_bind, error_map]

end Orka
