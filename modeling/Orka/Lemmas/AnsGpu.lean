import Orka.AnsGpu
import Orka.Lib.Lanes
import Orka.Lemmas.Ans

/-!
# One stream of the interleaved coder

A lane does what the scalar coder does to the symbols of its stream: where the reference loops until its state is in the interval
again, one word is always enough.
-/

namespace Orka.AnsAux

open Flat Steps Rans Lanes

variable {precision : ℕ} {h16 : precision ≤ 16} {freq cum lut : List ℤ} {symbols : List ℕ} {K : ℕ}

/-! ## One symbol -/

/-- The tables a lane reads are those of the scalar coder. -/
theorem Tabled.trim {s : ℕ} {sh : Share (ransCoder precision h16)} (h : Tabled freq (0 :: cumsumInt freq) lut s sh)
    (hs : s < freq.length) : Tabled freq (trimCum freq (0 :: cumsumInt freq)) lut s sh := by
  have hlen : (0 :: cumsumInt freq).length = freq.length + 1 := by simp [cumsumInt]
  refine ⟨h.freq, ?_, h.slot⟩
  have hfull := h.cum
  rw [itemAt_natCast (by omega)] at hfull
  rw [trimCum, if_pos hlen, itemAt_natCast (by rw [List.length_dropLast]; omega), List.dropLast_eq_take, cell_take (by omega)]
  exact hfull

/-- What sheds a word comes back by that word, and nothing else comes back. -/
theorem shed_cases (sh : Share (ransCoder precision h16)) {x : ℤ} (hx : (ransCoder precision h16).Normal x) :
    (sh.shed x < ransL ∧ digitOut sh x = [lowBits renormBits x] ∧ sh.shed x * 2 ^ renormBits + lowBits renormBits x = x) ∨
      (¬ sh.shed x < ransL ∧ digitOut sh x = [] ∧ sh.shed x = x) := by
  have hl := ransCoder_lower precision h16
  by_cases hlt : sh.shed x < ransL
  · have hb : sh.bound ≤ x := (sh.shed_lt_lower_iff hx).1 (by rwa [hl])
    exact .inl ⟨hlt, if_pos hb, sh.refill hx (by rwa [hl])⟩
  · have hb : ¬ sh.bound ≤ x := by
      rw [← sh.shed_lt_lower_iff hx, hl]
      exact hlt
    exact .inr ⟨hlt, if_neg hb, sh.keep hx (by rwa [hl])⟩

/-! ## The encoder -/

/-- A lane holds what the scalar encoder holds, in a row of a width. -/
structure Tracks (width : ℕ) (e : Encoder) (lane : Lane) : Prop where
  x : lane.x = e.x
  wpos : lane.wpos = e.out.length
  row : lane.row.take lane.wpos = e.out
  width : lane.row.length = width
  writes : ∀ q ∈ lane.writes, q < lane.wpos

/-- A lane with room puts the word the encoder puts. -/
theorem Tracks.put {width : ℕ} {e : Encoder} {lane : Lane} (h : Tracks width e lane) (hroom : e.out.length < width) :
    ∃ lane', lane.put = .ok lane' ∧ Tracks width ⟨e.x / 2 ^ renormBits, e.out ++ [lowBits renormBits e.x]⟩ lane' := by
  have hlt : lane.wpos < lane.row.length := by
    rw [h.wpos, h.width]
    exact hroom
  refine ⟨_, if_pos hlt, ?_, ?_, ?_, ?_, ?_⟩
  · show lane.x / _ = _
    rw [h.x]
  · show lane.wpos + 1 = _
    rw [h.wpos, List.length_append, List.length_singleton]
  · show (lane.row.set lane.wpos _).take (lane.wpos + 1) = _
    rw [List.take_succ_eq_append_getElem (by rw [List.length_set]; exact hlt), List.getElem_set_self, List.take_set_of_le (le_refl _),
      h.row, h.x]
  · show (lane.row.set _ _).length = _
    rw [List.length_set, h.width]
  · intro q hq
    show q < lane.wpos + 1
    rcases List.mem_append.1 hq with hq | hq
    · exact (h.writes q hq).trans (Nat.lt_succ_self _)
    · rw [List.mem_singleton.1 hq]
      exact Nat.lt_succ_self _

/-- **One symbol of a lane** is one symbol of the scalar encoder. -/
theorem Tracks.encode {width s fuel : ℕ} {e : Encoder} {lane : Lane} {sh : Share (ransCoder precision h16)}
    {cum' : List ℤ} (ht : Tabled freq cum lut s sh) (ht' : Tabled freq cum' lut s sh)
    (hx : (ransCoder precision h16).Normal e.x) (hfuel : 2 ≤ fuel) (h : Tracks width e lane) (hroom : e.out.length < width) :
    ∃ e' lane', encodeSymbol fuel freq cum precision e s = .ok e' ∧ lane.encode freq cum' precision s = .ok lane' ∧
      Tracks width e' lane' ∧ (ransCoder precision h16).Normal e'.x ∧ e'.out.length ≤ e.out.length + 1 := by
  have hb : ransL / 2 ^ precision * 2 ^ renormBits * sh.f = sh.bound := by
    rw [ransL_div h16]
    rfl
  have hshed : ∃ lane', (if ransL / 2 ^ precision * 2 ^ renormBits * sh.f ≤ lane.x then lane.put else .ok lane) = .ok lane' ∧
      Tracks width ⟨sh.shed e.x, e.out ++ digitOut sh e.x⟩ lane' := by
    rw [hb, h.x]
    by_cases hle : sh.bound ≤ e.x
    · rw [if_pos hle, digitOut, if_pos hle, Share.shed, if_neg (not_lt.2 hle)]
      exact h.put hroom
    · rw [if_neg hle, digitOut, if_neg hle, Share.shed, if_pos (not_le.1 hle), List.append_nil]
      exact ⟨lane, rfl, h⟩
  obtain ⟨lane', hlane', hl⟩ := hshed
  refine ⟨_, { lane' with x := sh.push (sh.shed e.x) }, encodeSymbol_eq ht hx hfuel, ?_, ⟨rfl, hl.wpos, hl.row, hl.width, hl.writes⟩,
    sh.normal_push_shed hx, ?_⟩
  · simp only [Lane.encode, ht'.freq, ht'.cum, ok_bind, hlane']
    rw [if_neg sh.f_pos.ne', Int.fdiv_eq_ediv_of_nonneg _ sh.f_pos.le, Int.fmod_eq_emod_of_nonneg _ sh.f_pos.le, hl.x]
    rfl
  · show (e.out ++ digitOut sh e.x).length ≤ _
    rw [List.length_append, digitOut]
    split <;> simp

/-! ## All symbols -/

/-- Every symbol of an array has its share of the tables. -/
def AllTabled (h16 : precision ≤ 16) (freq lut : List ℤ) (symbols : List ℕ) : Prop :=
  ∀ s ∈ symbols, s < freq.length ∧ ∃ sh : Share (ransCoder precision h16), Tabled freq (0 :: cumsumInt freq) lut s sh

theorem getD_streamOf {padded : List ℕ} {len k t : ℕ} (ht : t < len) :
    (streamOf padded K len k).getD t 0 = padded.getD (t * K + k) 0 := cell_tabulate _ ht

variable (symbols freq) in
theorem length_padded (hK : 1 ≤ K) : (paddedSymbols symbols freq K).length = ceilDiv symbols.length K * K := by
  have hle := ceilDiv_mul (n := symbols.length) hK
  rw [paddedSymbols, List.length_append, List.length_replicate]
  omega

/-- Symbol `t` of stream `k` is one of the padded array. -/
theorem getD_padded_mem (hK : 1 ≤ K) {t k : ℕ} (ht : t < ceilDiv symbols.length K) (hk : k < K) :
    (paddedSymbols symbols freq K).getD (t * K + k) 0 ∈ paddedSymbols symbols freq K := by
  refine cell_mem ?_
  rw [length_padded _ _ hK]
  calc t * K + k < t * K + K := by omega
    _ = (t + 1) * K := by ring
    _ ≤ _ := Nat.mul_le_mul_right K ht

/-- What lane `k` holds once the columns from `t` on are encoded. -/
def LaneAt (h16 : precision ≤ 16) (freq : List ℤ) (padded : List ℕ) (K len fuel t k : ℕ) (lane : Lane) : Prop :=
  ∃ e, encodeSymbols fuel freq (0 :: cumsumInt freq) precision ((streamOf padded K len k).drop t).reverse = .ok e ∧
    (ransCoder precision h16).Normal e.x ∧ e.out.length ≤ len - t ∧ Tracks (len + 2) e lane

/-- **One column of the encoder.** -/
theorem encodeColumn_spec (hK : 1 ≤ K) (ht : AllTabled h16 freq lut (paddedSymbols symbols freq K)) {fuel : ℕ} (hfuel : 2 ≤ fuel)
    {t : ℕ} (hlt : t < ceilDiv symbols.length K) {lanes : List Lane} (hlen : lanes.length = K)
    (h : Each (LaneAt h16 freq (paddedSymbols symbols freq K) K (ceilDiv symbols.length K) fuel (t + 1)) lanes) :
    ∃ lanes', encodeColumn freq (trimCum freq (0 :: cumsumInt freq)) precision (paddedSymbols symbols freq K) K t lanes = .ok lanes' ∧
      lanes'.length = K ∧ Each (LaneAt h16 freq (paddedSymbols symbols freq K) K (ceilDiv symbols.length K) fuel t) lanes' := by
  have hknown : Each (fun k lane => k < K ∧
      LaneAt h16 freq (paddedSymbols symbols freq K) K (ceilDiv symbols.length K) fuel (t + 1) k lane) lanes := by
    refine fun k lane hk => ⟨?_, h k lane hk⟩
    rw [← hlen]
    exact (List.getElem?_eq_some_iff.1 hk).1
  have hstep : ∀ k lane, (k < K ∧ LaneAt h16 freq (paddedSymbols symbols freq K) K (ceilDiv symbols.length K) fuel (t + 1) k lane) →
      ∃ lane', lane.encode freq (trimCum freq (0 :: cumsumInt freq)) precision
        ((paddedSymbols symbols freq K).getD (t * K + k) 0) = .ok lane' ∧
        LaneAt h16 freq (paddedSymbols symbols freq K) K (ceilDiv symbols.length K) fuel t k lane' := by
    rintro k lane ⟨hk, e, he, hx, hout, htracks⟩
    obtain ⟨hs, sh, hsh⟩ := ht _ (getD_padded_mem hK hlt hk)
    obtain ⟨e', lane', he', hlane', htracks', hx', hout'⟩ := htracks.encode hsh (hsh.trim hs) hx hfuel (by omega)
    refine ⟨lane', hlane', e', ?_, hx', by omega, htracks'⟩
    have hdrop : (streamOf (paddedSymbols symbols freq K) K (ceilDiv symbols.length K) k).drop t =
        (paddedSymbols symbols freq K).getD (t * K + k) 0 ::
          (streamOf (paddedSymbols symbols freq K) K (ceilDiv symbols.length K) k).drop (t + 1) := by
      have hl : t < (streamOf (paddedSymbols symbols freq K) K (ceilDiv symbols.length K) k).length := by
        rw [streamOf, length_tabulate]
        exact hlt
      rw [List.drop_eq_getElem_cons hl, ← getD_streamOf hlt]
      simp [List.getD, hl]
    rw [hdrop, List.reverse_cons, encodeSymbols_snoc he]
    exact he'
  obtain ⟨lanes', hl, hlen', heach⟩ := exists_mapM_zipIdx_each
    (f := fun lane => lane.1.encode freq (trimCum freq (0 :: cumsumInt freq)) precision
      ((paddedSymbols symbols freq K).getD (t * K + lane.2) 0)) hknown hstep
  exact ⟨lanes', hl, hlen'.trans hlen, heach⟩

/-- What a lane holds at the end: the words of the scalar coder for its stream, from the first column on. -/
def LaneDone (freq : List ℤ) (precision : ℕ) (padded : List ℕ) (K len fuel k : ℕ) (lane : Lane) : Prop :=
  ∃ words, ransEncodeScalar fuel (streamOf padded K len k) freq (0 :: cumsumInt freq) precision = .ok words ∧
    words.length ≤ len + 2 ∧ Tracks (len + 2) ⟨0, words⟩ { lane with x := 0 }

variable (symbols) in
/-- **The encoder, stream by stream.** -/
theorem encodeLanes_spec (hK : 1 ≤ K) (ht : AllTabled h16 freq lut (paddedSymbols symbols freq K)) {fuel : ℕ} (hfuel : 2 ≤ fuel) :
    ∃ lanes, encodeLanes symbols freq (0 :: cumsumInt freq) precision K = .ok lanes ∧ lanes.length = K ∧
      Each (LaneDone freq precision (paddedSymbols symbols freq K) K (ceilDiv symbols.length K) fuel) lanes := by
  -- the columns are encoded from the last to the first; `d` of them are done
  have columns : ∀ d ≤ ceilDiv symbols.length K, ∃ lanes,
      ((List.range (ceilDiv symbols.length K)).drop (ceilDiv symbols.length K - d)).reverse.foldlM
        (fun lanes t => encodeColumn freq (trimCum freq (0 :: cumsumInt freq)) precision (paddedSymbols symbols freq K) K t lanes)
        (List.replicate K ⟨ransL, List.replicate (ceilDiv symbols.length K + 2) 0, 0, []⟩) = .ok lanes ∧ lanes.length = K ∧
      Each (LaneAt h16 freq (paddedSymbols symbols freq K) K (ceilDiv symbols.length K) fuel (ceilDiv symbols.length K - d))
        lanes := by
    intro d
    induction d with
    | zero =>
      intro _
      refine ⟨_, by rw [Nat.sub_zero, List.drop_of_length_le (by simp)]; rfl, List.length_replicate, ?_⟩
      refine each_replicate fun k _ => ⟨⟨ransL, []⟩, ?_, ?_, Nat.zero_le _, rfl, rfl, rfl, List.length_replicate, nofun⟩
      · rw [Nat.sub_zero, List.drop_of_length_le (by rw [streamOf, length_tabulate])]
        rfl
      · rw [← ransCoder_lower precision h16]
        exact Coder.normal_lower _ (by norm_num [ransCoder, renormBits])
    | succ d ih =>
      intro hd
      obtain ⟨lanes, hrun, hlen, heach⟩ := ih (by omega)
      obtain ⟨t, htd, hlt⟩ : ∃ t, ceilDiv symbols.length K - d = t + 1 ∧ t < ceilDiv symbols.length K :=
        ⟨ceilDiv symbols.length K - d - 1, by omega, by omega⟩
      rw [htd] at hrun heach
      obtain ⟨lanes', hcol, hlen', heach'⟩ := encodeColumn_spec hK ht hfuel hlt hlen heach
      have hdrop : (List.range (ceilDiv symbols.length K)).drop t = t :: (List.range (ceilDiv symbols.length K)).drop (t + 1) := by
        rw [List.drop_eq_getElem_cons (by simpa using hlt), List.getElem_range]
      rw [show ceilDiv symbols.length K - (d + 1) = t by omega]
      refine ⟨lanes', ?_, hlen', heach'⟩
      rw [hdrop, List.reverse_cons, List.foldlM_append, hrun]
      show Except.bind (.ok lanes) _ = _
      rw [ok_bind, foldlM_cons_eq, hcol]
      rfl
  obtain ⟨lanes, hrun, hlen, heach⟩ := columns _ (le_refl _)
  rw [Nat.sub_self, List.drop_zero] at hrun
  rw [Nat.sub_self] at heach
  have hflush : ∀ k lane, LaneAt h16 freq (paddedSymbols symbols freq K) K (ceilDiv symbols.length K) fuel 0 k lane →
      ∃ lane', lane.put.bind Lane.put = .ok lane' ∧
        LaneDone freq precision (paddedSymbols symbols freq K) K (ceilDiv symbols.length K) fuel k lane' := by
    rintro k lane ⟨e, he, -, hout, htracks⟩
    obtain ⟨lane₁, h₁, ht₁⟩ := htracks.put (by omega)
    obtain ⟨lane₂, h₂, ht₂⟩ := ht₁.put (by rw [List.length_append, List.length_singleton]; omega)
    refine ⟨lane₂, by rw [h₁, ok_bind, h₂], e.out ++ [lowBits renormBits e.x] ++ [lowBits renormBits (e.x / 2 ^ renormBits)], ?_, ?_,
      rfl, ht₂.wpos, ht₂.row, ht₂.width, ht₂.writes⟩
    · rw [ransEncodeScalar, ← List.drop_zero (l := (streamOf _ _ _ _)), he, ok_map, List.append_assoc]
      rfl
    · simp only [List.length_append, List.length_singleton]
      omega
  obtain ⟨lanes', hl, hlen', hdone⟩ := exists_mapM_each heach hflush
  refine ⟨lanes', ?_, hlen'.trans hlen, hdone⟩
  rw [encodeLanes, hrun, ok_bind, hl]

/-! ## The decoder -/

/-- What a lane has left to read is what the scalar encoder had written. -/
structure ReadsBack (row : List ℤ) (e : Encoder) (lane : ReadLane) : Prop where
  x : lane.x = e.x
  rpos : lane.rpos = e.out.length - 1
  left : e.out <+: row
  row : lane.row = row

/-- A word the encoder has written, read from a row that holds more. -/
theorem itemAt_of_isPrefix {out row : List ℤ} {w : ℤ} (h : out ++ [w] <+: row) : itemAt row out.length = .ok w := by
  obtain ⟨rest, rfl⟩ := h
  rw [itemAt_natCast (by simp), List.append_assoc, cell_append_right (le_refl _), Nat.sub_self]
  rfl

/-- A lane starts from the two words the encoder ends with. -/
theorem readsBack_start {row : List ℤ} {e : Encoder} (hx : 0 ≤ e.x) (hx' : e.x < 2 ^ 32)
    (h : e.out ++ [lowBits renormBits e.x, lowBits renormBits (e.x / 2 ^ renormBits)] <+: row) :
    ∃ lane, ReadLane.start row (e.out.length + 2 : ℕ) = .ok lane ∧ ReadsBack row e lane ∧ lane.out = [] := by
  have hlo : itemAt row e.out.length = .ok (lowBits renormBits e.x) := by
    refine itemAt_of_isPrefix (List.IsPrefix.trans ?_ h)
    exact ⟨[lowBits renormBits (e.x / 2 ^ renormBits)], by rw [List.append_assoc]; rfl⟩
  have hhi : itemAt row ((e.out ++ [lowBits renormBits e.x]).length : ℕ) = .ok (lowBits renormBits (e.x / 2 ^ renormBits)) := by
    refine itemAt_of_isPrefix ?_
    rw [List.append_assoc]
    exact h
  have hback : lowBits renormBits (e.x / 2 ^ renormBits) * 2 ^ renormBits + lowBits renormBits e.x = e.x := by
    simp only [lowBits, renormBits]
    omega
  have h1 : ((e.out.length + 2 : ℕ) : ℤ) - 1 = ((e.out ++ [lowBits renormBits e.x]).length : ℕ) := by
    rw [List.length_append, List.length_singleton]
    push_cast
    ring
  have h2 : ((e.out.length + 2 : ℕ) : ℤ) - 2 = (e.out.length : ℕ) := by
    push_cast
    ring
  refine ⟨⟨e.x, row, e.out.length - 1, []⟩, ?_, ⟨rfl, rfl, (List.prefix_append _ _).trans h, rfl⟩, rfl⟩
  simp only [ReadLane.start, h1, hhi, h2, hlo, ok_bind, ok_map, hback]
  congr 2
  push_cast
  ring

/-- **One symbol of a reading lane** undoes one symbol of the scalar encoder. -/
theorem ReadsBack.decode {row : List ℤ} {s fuel : ℕ} {e e' : Encoder} {lane : ReadLane} {sh : Share (ransCoder precision h16)}
    {cum' : List ℤ} (ht : Tabled freq cum lut s sh) (ht' : Tabled freq cum' lut s sh) (hx : (ransCoder precision h16).Normal e.x)
    (hfuel : 2 ≤ fuel) (he : encodeSymbol fuel freq cum precision e s = .ok e') (h : ReadsBack row e' lane) :
    ∃ lane', lane.decode freq cum' lut precision = .ok lane' ∧ ReadsBack row e lane' ∧ lane'.out = lane.out ++ [(s : ℤ)] := by
  rw [encodeSymbol_eq ht hx hfuel] at he
  obtain rfl := Except.ok.inj he
  have hslot := sh.push_slot (sh.shed e.x)
  have hlut : itemAt lut (lowBits precision lane.x) = .ok s := by
    rw [h.x]
    exact ht.slot _ hslot.1 hslot.2
  have hpop : sh.f * (lane.x / 2 ^ precision) + lowBits precision lane.x - sh.c = sh.shed e.x := by
    rw [h.x]
    exact sh.pop_push _
  simp only [ReadLane.decode, hlut, ht'.freq, ht'.cum, ok_bind, hpop]
  obtain ⟨hlt, hdig, hback⟩ | ⟨hge, hdig, hkeep⟩ := shed_cases sh hx
  · have hleft := h.left
    rw [hdig] at hleft
    have hrpos : lane.rpos = (e.out.length : ℕ) := by
      rw [h.rpos, hdig]
      simp
    have hw : itemAt lane.row lane.rpos = .ok (lowBits renormBits e.x) := by
      rw [hrpos, h.row]
      exact itemAt_of_isPrefix hleft
    rw [if_pos hlt, hw, ok_map, hback]
    refine ⟨_, rfl, ⟨rfl, ?_, (List.prefix_append _ _).trans hleft, h.row⟩, rfl⟩
    show lane.rpos - 1 = _
    rw [hrpos]
  · rw [if_neg hge, hkeep]
    have hleft := h.left
    have hrpos := h.rpos
    rw [hdig, List.append_nil] at hleft hrpos
    exact ⟨_, rfl, ⟨rfl, hrpos, hleft, h.row⟩, rfl⟩

/-- A row that holds the words of a stream, with their number. -/
def RowHolds (freq : List ℤ) (precision : ℕ) (padded : List ℕ) (K len fuel k : ℕ) (row : List ℤ × ℤ) : Prop :=
  ∃ words, ransEncodeScalar fuel (streamOf padded K len k) freq (0 :: cumsumInt freq) precision = .ok words ∧
    words <+: row.1 ∧ row.2 = (words.length : ℕ)

/-- What lane `k` holds once `t` symbols are decoded. -/
def ReadLaneAt (h16 : precision ≤ 16) (freq : List ℤ) (padded : List ℕ) (K len fuel t k : ℕ) (lane : ReadLane) : Prop :=
  ∃ e row, encodeSymbols fuel freq (0 :: cumsumInt freq) precision ((streamOf padded K len k).drop t).reverse = .ok e ∧
    (ransCoder precision h16).Normal e.x ∧ ReadsBack row e lane ∧ lane.out = ints ((streamOf padded K len k).take t)

variable (symbols) in
/-- **The decoder, stream by stream.** -/
theorem decodeLanes_spec (hK : 1 ≤ K) (ht : AllTabled h16 freq lut (paddedSymbols symbols freq K)) {fuel : ℕ} (hfuel : 2 ≤ fuel)
    {out : List (List ℤ)} {wpos : List ℤ} (hlen : (out.zip wpos).length = K)
    (h : Each (RowHolds freq precision (paddedSymbols symbols freq K) K (ceilDiv symbols.length K) fuel) (out.zip wpos)) :
    ∃ lanes, decodeLanes out wpos freq (0 :: cumsumInt freq) lut (ceilDiv symbols.length K) precision = .ok lanes ∧
      lanes.length = K ∧ Each (fun k (lane : ReadLane) =>
        lane.out = ints (streamOf (paddedSymbols symbols freq K) K (ceilDiv symbols.length K) k)) lanes := by
  set padded := paddedSymbols symbols freq K with hpadded
  set len := ceilDiv symbols.length K with hlenDef
  have hmem : ∀ k < K, ∀ s ∈ streamOf padded K len k, s ∈ padded := by
    intro k hk s hs
    obtain ⟨t, htlt, rfl⟩ := List.mem_map.1 hs
    exact getD_padded_mem hK (List.mem_range.1 htlt) hk
  have run : ∀ k < K, ∀ t, ∃ e, encodeSymbols fuel freq (0 :: cumsumInt freq) precision
      ((streamOf padded K len k).drop t).reverse = .ok e ∧ (ransCoder precision h16).Normal e.x := by
    intro k hk t
    refine encodeSymbols_ok (fun s (hs : s ∈ padded) => (ht s hs).2) hfuel fun s hs => ?_
    exact hmem k hk s (List.mem_of_mem_drop (List.mem_reverse.1 hs))
  have hstart : ∀ k row, (k < K ∧ RowHolds freq precision padded K len fuel k row) →
      ∃ lane, ReadLane.start row.1 row.2 = .ok lane ∧ (k < K ∧ ReadLaneAt h16 freq padded K len fuel 0 k lane) := by
    rintro k ⟨row, w⟩ ⟨hk, words, hwords, hpre, rfl⟩
    obtain ⟨e, he, hx⟩ := run k hk 0
    have h32 : ransL * (ransCoder precision h16).B = 2 ^ 32 := by norm_num [ransL, ransCoder, renormBits]
    have hx0 : 0 ≤ e.x := (Coder.lower_pos _).le.trans hx.1
    have hx1 : e.x < 2 ^ 32 := by
      rw [← h32, ← ransCoder_lower precision h16]
      exact hx.2
    rw [ransEncodeScalar, ← List.drop_zero (l := streamOf _ _ _ _), he, ok_map] at hwords
    obtain rfl := Except.ok.inj hwords
    obtain ⟨lane, hl, hback, hout⟩ := readsBack_start hx0 hx1 hpre
    refine ⟨lane, ?_, hk, e, row, he, hx, hback, hout⟩
    rw [List.length_append]
    exact hl
  have hknown : Each (fun k row => k < K ∧ RowHolds freq precision padded K len fuel k row) (out.zip wpos) := by
    refine fun k row hk => ⟨?_, h k row hk⟩
    rw [← hlen]
    exact (List.getElem?_eq_some_iff.1 hk).1
  obtain ⟨lanes₀, hl₀, hlen₀, heach₀⟩ := exists_mapM_each hknown hstart
  have columns : ∀ t ≤ len, ∃ lanes, (List.range t).foldlM
      (fun lanes _ => lanes.mapM fun lane : ReadLane => lane.decode freq (trimCum freq (0 :: cumsumInt freq)) lut precision) lanes₀ =
        .ok lanes ∧ lanes.length = K ∧ Each (fun k lane => k < K ∧ ReadLaneAt h16 freq padded K len fuel t k lane) lanes := by
    intro t
    induction t with
    | zero => exact fun _ => ⟨lanes₀, rfl, hlen₀.trans hlen, heach₀⟩
    | succ t ih =>
      intro hlt
      obtain ⟨lanes, hrun, hlanes, heach⟩ := ih (by omega)
      have hstep : ∀ k lane, (k < K ∧ ReadLaneAt h16 freq padded K len fuel t k lane) →
          ∃ lane', lane.decode freq (trimCum freq (0 :: cumsumInt freq)) lut precision = .ok lane' ∧
            (k < K ∧ ReadLaneAt h16 freq padded K len fuel (t + 1) k lane') := by
        rintro k lane ⟨hk, e', row, he', -, hback, hout⟩
        obtain ⟨e, he, hx⟩ := run k hk (t + 1)
        have hl : t < (streamOf padded K len k).length := by
          rw [streamOf, length_tabulate]
          exact hlt
        obtain ⟨hs, sh, hsh⟩ := ht _ (hmem k hk _ (List.getElem_mem hl))
        rw [List.drop_eq_getElem_cons hl, List.reverse_cons, encodeSymbols_snoc he] at he'
        obtain ⟨lane', hlane', hback', hout'⟩ := hback.decode hsh (hsh.trim hs) hx hfuel he'
        refine ⟨lane', hlane', hk, e, row, he, hx, hback', ?_⟩
        rw [hout', hout, List.take_succ_eq_append_getElem hl, ints, ints, List.map_append]
        rfl
      obtain ⟨lanes', hl', hlen', heach'⟩ := exists_mapM_each heach hstep
      refine ⟨lanes', ?_, hlen'.trans hlanes, heach'⟩
      rw [List.range_succ, List.foldlM_append, hrun]
      show Except.bind (.ok lanes) _ = _
      rw [ok_bind, foldlM_cons_eq, hl']
      rfl
  obtain ⟨lanes, hrun, hlanes, heach⟩ := columns len (le_refl _)
  refine ⟨lanes, ?_, hlanes, fun k lane hk => ?_⟩
  · rw [decodeLanes, hl₀, ok_bind, hrun]
  · obtain ⟨-, e, row, -, -, -, hout⟩ := heach k lane hk
    rw [hout, List.take_of_length_le (by rw [streamOf, length_tabulate])]

end Orka.AnsAux
