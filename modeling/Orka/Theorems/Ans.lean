import Orka.Lemmas.Ans

/-!
# The rANS coder is a stack

The encoder pushes the symbols last first and the decoder pops them first to last. Between any two symbols both hold the same
state, in the interval of `RANS_L` to `2 ^ 32`, and what the decoder has not read is what the encoder had written.
-/

namespace Orka

open Flat Steps AnsAux

/-- What the encoder and the decoder hold with `k` symbols decoded. -/
theorem decodeSymbols_run {symbols : List ℕ} {freq cum lut words : List ℤ} {precision fuel : ℕ} {h16 : precision ≤ 16}
    (ht : ∀ s ∈ symbols, ∃ sh : Rans.Share (ransCoder precision h16), Tabled freq cum lut s sh) (hfuel : 2 ≤ fuel)
    (hw : ransEncodeScalar fuel symbols freq cum precision = .ok words) {k : ℕ} (hk : k ≤ symbols.length) :
    ∃ e d, encodeSymbols fuel freq cum precision (symbols.drop k).reverse = .ok e ∧ (ransCoder precision h16).Normal e.x ∧
      decodeSymbols fuel words freq cum lut precision k = .ok d ∧ Mirrors words e d ∧ d.out = ints (symbols.take k) := by
  have run : ∀ k, ∃ e, encodeSymbols fuel freq cum precision (symbols.drop k).reverse = .ok e ∧
      (ransCoder precision h16).Normal e.x := fun k =>
    encodeSymbols_ok ht hfuel fun s hs => List.mem_of_mem_drop (List.mem_reverse.1 hs)
  induction k with
  | zero =>
    obtain ⟨e, he, hx⟩ := run 0
    have hlow := ransCoder_lower precision h16
    have h32 : ransL * (ransCoder precision h16).B = 2 ^ 32 := by norm_num [ransL, ransCoder, renormBits]
    rw [ransEncodeScalar, show symbols.reverse = (symbols.drop 0).reverse from rfl, he, ok_map] at hw
    obtain rfl := Except.ok.inj hw
    have h0 : 0 ≤ e.x := (Rans.Coder.lower_pos _).le.trans hx.1
    obtain ⟨d, hd, hm, ho⟩ := startDecoder_mirrors (e := e) h0 (by rw [← h32, ← hlow]; exact hx.2)
    exact ⟨e, d, he, hx, hd, hm, ho⟩
  | succ k ih =>
    obtain ⟨e', d, he', -, hd, hm, ho⟩ := ih (by omega)
    obtain ⟨e, he, hx⟩ := run (k + 1)
    have hdrop : (symbols.drop k).reverse = (symbols.drop (k + 1)).reverse ++ [symbols[k]] := by
      rw [List.drop_eq_getElem_cons hk, List.reverse_cons]
    rw [hdrop, encodeSymbols_snoc he] at he'
    obtain ⟨sh, hsh⟩ := ht symbols[k] (List.getElem_mem _)
    obtain ⟨d', hd', hm', ho'⟩ := decodeSymbol_undoes hsh hx hfuel he' hm
    refine ⟨e, d', he, hx, ?_, hm', ?_⟩
    · rw [decodeSymbols, hd, ok_bind, hd']
    · rw [ho', ho, List.take_succ_eq_append_getElem hk, ints, ints, List.map_append]
      rfl

/-- **The scalar coder round-trips.** The table gives every symbol that occurs a slot, no other symbol any, and all slots to
some; the encoder and the decoder return, and the decoder returns the symbols; after any number of symbols both hold a state
of the interval, and the decoder has read no place before the first word. -/
theorem ransDecodeScalar_ransEncodeScalar (round : ℤ → ℤ → ℤ) (symbols : List ℕ) (precision fuel : ℕ) (hne : symbols ≠ [])
    (hp : 1 ≤ precision ∧ precision ≤ 16) (hd : symbols.dedup.length ≤ 2 ^ precision) (hfuel : 2 ≤ fuel) :
    ∃ freq cum nSym lut words, buildFreqTable round symbols precision = .ok (freq, cum, nSym) ∧ freq.sum = 2 ^ precision ∧
      (∀ s ∈ symbols, 1 ≤ cell freq s) ∧ (∀ s, s ∉ symbols → cell freq s = 0) ∧ slotToSymbol freq precision = .ok lut ∧
      ransEncodeScalar fuel symbols freq cum precision = .ok words ∧
      ransDecodeScalar fuel words freq cum lut symbols.length precision = .ok (ints symbols) ∧
      ∀ k ≤ symbols.length, ∃ e d, encodeSymbols fuel freq cum precision (symbols.drop k).reverse = .ok e ∧
        decodeSymbols fuel words freq cum lut precision k = .ok d ∧ d.x = e.x ∧ 2 ^ 16 ≤ e.x ∧ e.x < 2 ^ 32 ∧
        ∀ q ∈ d.reads, 0 ≤ q := by
  obtain ⟨freq, hbuild, hc, hsum⟩ := buildFreqTable_spec round hne hp.1 hp.2 hd
  obtain ⟨lut, hlut, hfill⟩ := slotToSymbol_spec hc.nonneg hsum
  have ht : ∀ s ∈ symbols, ∃ sh : Rans.Share (ransCoder precision hp.2), Tabled freq (0 :: cumsumInt freq) lut s sh :=
    fun s hs => tabled_of_filled hc.nonneg hsum hfill (hc.used s hs)
  obtain ⟨words, hwords⟩ : ∃ words, ransEncodeScalar fuel symbols freq (0 :: cumsumInt freq) precision = .ok words := by
    obtain ⟨e, he, -⟩ := encodeSymbols_ok ht hfuel (l := symbols.reverse) fun s hs => List.mem_reverse.1 hs
    exact ⟨_, by rw [ransEncodeScalar, he, ok_map]⟩
  have hlow := ransCoder_lower precision hp.2
  refine ⟨freq, 0 :: cumsumInt freq, _, lut, words, hbuild, hsum, hc.used, hc.absent, hlut, hwords, ?_, fun k hk => ?_⟩
  · obtain ⟨e, d, -, -, hd, -, ho⟩ := decodeSymbols_run ht hfuel hwords (le_refl _)
    rw [ransDecodeScalar, hd, ok_map, ho, List.take_length]
  · obtain ⟨e, d, he, hx, hd, hm, -⟩ := decodeSymbols_run ht hfuel hwords hk
    have h32 : ransL * (ransCoder precision hp.2).B = 2 ^ 32 := by norm_num [ransL, ransCoder, renormBits]
    refine ⟨e, d, he, hd, hm.x, ?_, ?_, hm.reads⟩
    · exact hlow.symm.le.trans hx.1
    · rw [← h32, ← hlow]
      exact hx.2

/-- Seven symbols of three kinds at the smallest precision that has a slot for each. -/
theorem ransDecodeScalar_ransEncodeScalar_seven :
    ∃ freq cum nSym lut words, buildFreqTable (fun h total => (2 * h * 4 + total) / (2 * total)) [0, 5, 0, 0, 2, 0, 5] 2 =
        .ok (freq, cum, nSym) ∧ freq.sum = 2 ^ 2 ∧
      (∀ s ∈ [0, 5, 0, 0, 2, 0, 5], 1 ≤ cell freq s) ∧ (∀ s, s ∉ [0, 5, 0, 0, 2, 0, 5] → cell freq s = 0) ∧
      slotToSymbol freq 2 = .ok lut ∧ ransEncodeScalar 2 [0, 5, 0, 0, 2, 0, 5] freq cum 2 = .ok words ∧
      ransDecodeScalar 2 words freq cum lut 7 2 = .ok (ints [0, 5, 0, 0, 2, 0, 5]) ∧
      ∀ k ≤ 7, ∃ e d, encodeSymbols 2 freq cum 2 ([0, 5, 0, 0, 2, 0, 5].drop k).reverse = .ok e ∧
        decodeSymbols 2 words freq cum lut 2 k = .ok d ∧ d.x = e.x ∧ 2 ^ 16 ≤ e.x ∧ e.x < 2 ^ 32 ∧ ∀ q ∈ d.reads, 0 ≤ q :=
  ransDecodeScalar_ransEncodeScalar _ [0, 5, 0, 0, 2, 0, 5] 2 2 (by decide) (by decide) (by decide) (by decide)

end Orka
