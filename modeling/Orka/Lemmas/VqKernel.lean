import Orka.Lemmas.Decode
import Orka.Lemmas.Readers
import Orka.VqKernel

/-!
# The C kernel, step by step

Every loop of the kernel leaves what the step of `_decode_tensor` that it mirrors returns.
-/

set_option linter.unusedSectionVars false

namespace Orka

open Flat Steps Buffer

namespace KernelAux

/-- The kernel rounds up as Python does. -/
theorem ceilDivC_natCast (n g : ℕ) (hg : 0 < g) : ceilDivC n g = (ceilDiv n g : ℕ) := by
  have hcast : (n : ℤ) + g - 1 = (n + g - 1 : ℕ) := by omega
  rw [ceilDivC, hcast, ceilDiv]
  exact Int.ofNat_tdiv ..

/-- Indices that are not negative are natural numbers. -/
theorem exists_ints {idxs : List ℤ} (h : ∀ i ∈ idxs, 0 ≤ i) : ∃ ns : List ℕ, idxs = ints ns := by
  refine ⟨idxs.map Int.toNat, ?_⟩
  rw [ints, List.map_map]
  calc idxs = idxs.map id := (List.map_id idxs).symm
    _ = idxs.map (Int.ofNat ∘ Int.toNat) := List.map_congr_left fun i hi => (Int.toNat_of_nonneg (h i hi)).symm

/-- The entry of a list of C integers that holds naturals. -/
theorem peek_ints {is : List CInt} {ns : List ℕ} (h : is.map Subtype.val = ints ns) {v : ℕ} (hv : v < ns.length) :
    ∃ i : CInt, peek is (v : ℤ) = .ok i ∧ (i : ℤ) = (cell ns v : ℕ) := by
  have hlen : is.length = ns.length := by
    rw [← length_ints, ← h, List.length_map]
  have hv' : v < is.length := by omega
  have hget : (is.map Subtype.val)[v]? = (ints ns)[v]? := congrArg (·[v]?) h
  rw [ints, List.getElem?_map, List.getElem?_map, List.getElem?_eq_getElem hv', List.getElem?_eq_getElem hv] at hget
  refine ⟨is[v], peek_getElem hv', ?_⟩
  rw [cell_eq_getElem hv]
  exact Option.some.inj hget

section Stages

variable {α : Type} [Field α] [LinearOrder α] [IsStrictOrderedRing α] [FloorRing α]

/-- One row of a stage is added to the cells of its group. -/
theorem addRow_ok {g v idx : ℕ} {codebook acc : List α} {is : List CInt} {i : CInt} (hpeek : peek is (v : ℤ) = .ok i)
    (hi : (i : ℤ) = idx) (hrow : idx * g + g ≤ codebook.length) (hacc : v * g + g ≤ acc.length) :
    addRow g codebook is v acc = .ok (overlay (v * g) g (fun j a => a + cell codebook (idx * g + j)) acc) := by
  rw [addRow, hpeek, ok_bind, hi]
  refine sweep hacc fun j hj b hb => ?_
  have hdst : (v : ℤ) * g + j = (v * g + j : ℕ) := by push_cast; rfl
  have hsrc : (idx : ℤ) * g + j = (idx * g + j : ℕ) := by push_cast; rfl
  rw [hdst, hsrc, peek_ok (by omega), ok_bind, peek_ok (by omega), ok_bind, poke_ok (by omega)]

/-- One stage adds the rows its indices name. -/
theorem addStage_ok {st : KernelStage α} {cb : List (List α)} {is : List CInt} {ns : List ℕ} {padded g : ℕ} {acc : List α}
    (hg : 0 < g) (hgroup : (st.groupSize : ℤ) = g) (hcb : st.codebook = some cb.flatten) (his : st.indices = some is)
    (hns : is.map Subtype.val = ints ns) (hw : ∀ row ∈ cb, row.length = g) (hlt : ∀ j ∈ ns, j < cb.length)
    (hcount : ns.length = ceilDiv padded g) (hacc : acc.length = ns.length * g) :
    addStage padded st acc = .ok (List.zipWith (· + ·) acc (ns.map fun j => cb.getD j []).flatten) := by
  have hsum : (ns.map fun j => cb.getD j []).flatten.length = ns.length * g := length_gather hw hlt
  have hrows : Buffer.loop (ns.length : ℕ) (addRow g cb.flatten is) acc =
      .ok (overlay 0 (ns.length * g) (fun p a => a + cell (ns.map fun j => cb.getD j []).flatten p) acc) := by
    refine sweep_rows hg hacc.ge fun v hv b hb => ?_
    obtain ⟨i, hpeek, hi⟩ := peek_ints hns hv
    have hidx : cell ns v < cb.length := hlt _ (cell_mem hv)
    have hrow : cell ns v * g + g ≤ cb.flatten.length := by
      rw [length_flatten_of_width hw, ← Nat.succ_mul]
      exact Nat.mul_le_mul_right g hidx
    have hgroups : v * g + g ≤ ns.length * g := by
      rw [← Nat.succ_mul]
      exact Nat.mul_le_mul_right g hv
    rw [addRow_ok hpeek hi hrow (by omega)]
    refine congrArg Except.ok (overlay_congr fun j hj => funext fun a => ?_)
    obtain ⟨hdiv, hmod⟩ := DecodeAux.salient_place (b := v) hj
    obtain ⟨hdiv', hmod'⟩ := DecodeAux.salient_place (b := cell ns v) hj
    rw [cell_gather hg hw hlt (by omega), cell_flatten hg hw, hdiv, hmod, hdiv', hmod']
  rw [addStage, hgroup, if_neg (by omega), hcb, his]
  simp only
  rw [ceilDivC_natCast padded g hg, ← hcount, hrows]
  refine congrArg Except.ok (ext_cell (by rw [length_overlay, List.length_zipWith, hsum, hacc, Nat.min_self]) fun p hp => ?_)
  have hp : p < acc.length := by simpa using hp
  rw [cell_overlay hp, if_pos (by omega), cell_zipWith hp (by omega), Nat.sub_zero]

/-- The loop over the stages, against the loop of the decoder. -/
theorem stages_ok {num : Numerics α} {store : Store α} {tm : TensorMeta} {metas : List StageMeta} {stages : List (KernelStage α)}
    (h : List.Forall₂ (SameStage num store tm) metas stages)
    (hdvd : ∀ stage ∈ metas, stage.groupSize.getD tm.groupSize ∣ tm.paddedValues)
    (hwidth : ∀ stage ∈ metas, 0 < stage.groupSize.getD tm.groupSize)
    (hread : ∀ stage ∈ metas, ∀ cb idxs, readStageArrays num store stage tm.groupSize tm.paddedValues = .ok (cb, idxs) →
      (∀ row ∈ cb, row.length = stage.groupSize.getD tm.groupSize) ∧ ∀ i ∈ idxs, 0 ≤ i)
    {acc sum : List α} (hacc : acc.length = tm.paddedValues)
    (hsum : metas.foldlM (fun acc stage =>
      (readStageArrays num store stage tm.groupSize tm.paddedValues).bind fun (cb, idxs) =>
        (takeRows cb idxs).bind fun rows => addInto acc rows.flatten) acc = .ok sum) :
    stages.foldlM (fun acc st => addStage tm.paddedValues st acc) acc = .ok sum ∧ sum.length = tm.paddedValues := by
  induction h generalizing acc with
  | nil =>
    obtain rfl := Except.ok.inj hsum
    exact ⟨rfl, hacc⟩
  | @cons stage st metas stages hstage _ ih =>
    rw [foldlM_cons_eq] at hsum ⊢
    obtain ⟨mid, hmid, hsum⟩ := bind_eq_ok.1 hsum
    obtain ⟨⟨cb, idxs⟩, harrays, hmid⟩ := bind_eq_ok.1 hmid
    obtain ⟨rows, hrows, hadd⟩ := bind_eq_ok.1 hmid
    obtain ⟨cb', idxs', is, hsame, hg, hcb, his, hidx⟩ := hstage
    obtain ⟨rfl, rfl⟩ : cb = cb' ∧ idxs = idxs' := by
      rw [harrays] at hsame
      exact Prod.mk.inj (Except.ok.inj hsame)
    obtain ⟨hw, hnonneg⟩ := hread stage (by simp) cb idxs harrays
    obtain ⟨ns, rfl⟩ := exists_ints hnonneg
    have hpos : 0 < stage.groupSize.getD tm.groupSize := hwidth stage (by simp)
    have hcount : ns.length = ceilDiv tm.paddedValues (stage.groupSize.getD tm.groupSize) := by
      rw [← length_ints]
      exact length_of_readStageArrays harrays
    have hlen : acc.length = ns.length * stage.groupSize.getD tm.groupSize := by
      rw [hcount, ceilDiv_mul hpos, padding_eq_zero (hdvd stage (by simp)), Nat.add_zero, hacc]
    have hlt : ∀ j ∈ ns, j < cb.length := fun j hj => by
      have := (exists_takeRows_iff.1 ⟨rows, hrows⟩ j (List.mem_map_of_mem (f := Int.ofNat) hj)).2
      omega
    have hstep : addStage tm.paddedValues st acc = .ok mid := by
      rw [takeRows_ints hlt] at hrows
      obtain rfl := Except.ok.inj hrows
      have hfit : acc.length = (ns.map fun j => cb.getD j []).flatten.length := by rw [length_gather hw hlt, hlen]
      unfold addInto at hadd
      rw [if_pos hfit] at hadd
      obtain rfl := Except.ok.inj hadd
      exact addStage_ok hpos hg hcb his hidx hw hlt hcount hlen
    rw [hstep, ok_bind]
    refine ih (fun s hs => hdvd s (List.mem_cons_of_mem _ hs)) (fun s hs => hwidth s (List.mem_cons_of_mem _ hs))
      (fun s hs => hread s (List.mem_cons_of_mem _ hs)) ?_ hsum
    rw [length_of_addInto hadd, hacc]

end Stages

/-! ## The steps on the values kept -/

section Values

variable {α : Type} [Field α] [LinearOrder α] [IsStrictOrderedRing α] [FloorRing α]
variable {num : Numerics α} {store : Store α} {tm : TensorMeta} {t : KernelTensor α}

/-- The copy into the output. -/
theorem copy_ok {sum out : List α} (h : out.length ≤ sum.length) :
    Buffer.loop out.length (fun i out => (peek sum i).bind fun a => poke out i a) out = .ok (sum.take out.length) := by
  have hsweep : Buffer.loop out.length (fun i out => (peek sum i).bind fun a => poke out i a) out =
      .ok (overlay 0 out.length (fun i _ => cell sum i) out) := by
    refine sweep (by omega) fun i hi b hb => ?_
    rw [peek_ok (by omega), ok_bind, poke_ok (by omega), Nat.zero_add]
  rw [hsweep]
  refine congrArg Except.ok (ext_cell (by rw [length_overlay, List.length_take, Nat.min_eq_left h]) fun p hp => ?_)
  have hp : p < out.length := by simpa using hp
  rw [cell_overlay hp, if_pos (by omega), cell_take hp, Nat.sub_zero]

/-- Where every write lies inside the array, none is left out. -/
theorem filter_writes {ps : List ℕ} {vals : List α} {n : ℕ} (hlen : ps.length = vals.length) (h : ∀ p ∈ ps, p < n) :
    (((List.range ps.length).map fun b => (cell ps b, cell vals b)).filter fun w => w.1 < n) = ps.zip vals := by
  have hzip : ((List.range ps.length).map fun b => (cell ps b, cell vals b)) = ps.zip vals := by
    rw [← List.zip_map']
    exact congrArg₂ List.zip (tabulate_cell ps) (by rw [hlen]; exact tabulate_cell vals)
  rw [hzip, List.filter_eq_self]
  rintro ⟨p, v⟩ hw
  exact decide_eq_true (h p (List.of_mem_zip hw).1)

/-- Assigning at positions that are not negative. -/
theorem assignAt_ints_inv {x r : List α} {ps : List ℕ} {vals : List α} (hlen : ps.length = vals.length)
    (h : assignAt x (ints ps) vals = .ok r) : (∀ p ∈ ps, p < x.length) ∧ r = scatter x (ps.zip vals) := by
  have hlt : ∀ p ∈ ps, p < x.length := fun p hp => by
    unfold assignAt at h
    rw [length_ints, if_pos hlen] at h
    obtain ⟨qs, hqs, -⟩ := map_eq_ok.1 h
    have := (exists_axisIndex_iff.1 (exists_mapM_eq_ok.1 ⟨qs, hqs⟩ p (List.mem_map_of_mem (f := Int.ofNat) hp))).2
    omega
  rw [assignAt_ints hlen hlt] at h
  exact ⟨hlt, (Except.ok.inj h).symm⟩

/-- The kernel writes the outliers the decoder writes. -/
theorem putOutliers_ok (hentry : KernelEntry num store tm) (hsame : SameInputs num store tm t) {x r : List α}
    (hx : x.length = tm.packedValues) (h : decodeOutliers num store tm x = .ok r) :
    putOutliers t x = .ok r ∧ r.length = tm.packedValues := by
  have ho := hsame.outliers
  unfold SameOutliers at ho
  unfold decodeOutliers at h
  cases hm : tm.outliers with
  | none =>
    rw [hm] at ho h
    obtain rfl := Except.ok.inj h
    refine ⟨?_, hx⟩
    unfold putOutliers
    rw [ho]
  | some m =>
    simp only [hm] at ho h
    obtain ⟨pos, vals, hread, hpos, hval, hcount⟩ := ho
    simp only [hread, ok_bind] at h
    have hlen : pos.length = vals.length := length_of_readOutliers hread
    obtain ⟨ps, rfl⟩ := exists_ints (hentry.outliers m hm pos vals hread)
    rw [length_ints] at hlen hcount
    have hscatter : r = scatter x (ps.zip vals) ∧ ∀ p ∈ ps, p < x.length := by
      cases ps with
      | nil =>
        obtain rfl := Except.ok.inj h
        exact ⟨rfl, by simp⟩
      | cons p ps => exact (assignAt_ints_inv hlen h).symm
    obtain ⟨rfl, hlt⟩ := hscatter
    refine ⟨?_, by rw [length_scatter, hx]⟩
    unfold putOutliers
    simp only [hpos, hval]
    rw [hcount, ← filter_writes hlen hlt]
    refine loop_scatter fun o ho s hs => ?_
    have hp : cell ps o < x.length := hlt _ (cell_mem ho)
    rw [peek_ok (by rw [length_ints]; exact ho), ok_bind, ints, cell_map ho, hsame.packed, if_pos (by simp; omega), if_pos hp,
      peek_ok (by omega), ok_bind]
    exact poke_ok (by omega) _

/-- What the block scales that `apply_block_scales` accepts give. -/
theorem applyBlockScales_inv {x ss r : List α} {bs : ℕ} (h : applyBlockScales .numpy x ss bs = .ok r) :
    0 < bs ∧ ss.length = ceilDiv x.length bs ∧ r = tabulate x.length fun i => cell x i * cell ss (i / bs) := by
  rcases Nat.eq_zero_or_pos bs with rfl | hbs
  · cases h
  have hpad : (x ++ List.replicate (padding x.length bs) (0 : α)).length = ceilDiv x.length bs * bs := by
    rw [List.length_append, List.length_replicate, ceilDiv_mul hbs]
  have hlen : ss.length = ceilDiv x.length bs := by
    by_contra hne
    simp only [applyBlockScales, applyBlockMaxScalesNumpy, if_neg hbs.ne', hpad, Nat.mul_div_cancel _ hbs] at h
    rw [if_pos hne] at h
    cases h
  have hroom : ss.length * bs ≤ (x ++ List.replicate (padding x.length bs) (0 : α)).length := by rw [hpad, hlen]
  have hcover : x.length ≤ ss.length * bs := hlen ▸ le_ceilDiv_mul hbs
  rw [DecodeAux.applyBlockScales_ok .numpy hbs rfl hlen] at h
  obtain rfl := Except.ok.inj h
  refine ⟨hbs, hlen, ext_cell ?_ fun i hi => ?_⟩
  · rw [List.length_take, length_scaleRows hroom, length_tabulate, Nat.min_eq_left hcover]
  · have hi : i < x.length := by
      rw [List.length_take] at hi
      omega
    rw [cell_take hi, cell_scaleRows hbs hroom (by omega), cell_append_left hi, cell_tabulate _ hi]

/-- The block scales multiplied in place. -/
theorem scaleBlocks_block {x ss r : List α} {bs : ℕ} (hx : (x.length : ℤ) = t.packedValues) (hss : t.scales = some ss)
    (hcount : (t.scaleCount : ℤ) = ss.length) (hbs : (t.blockScaleSize : ℤ) = bs) (h : applyBlockScales .numpy x ss bs = .ok r) :
    scaleBlocks t x = .ok r := by
  obtain ⟨hpos, hlen, rfl⟩ := applyBlockScales_inv h
  have hsweep : Buffer.loop x.length (fun i out =>
      (if Int.tdiv i bs < ss.length then peek ss (Int.tdiv i bs) else .ok 1).bind fun scale =>
        (peek out i).bind fun x => poke out i (x * scale)) x =
      .ok (overlay 0 x.length (fun i a => a * cell ss (i / bs)) x) := by
    refine sweep (by omega) fun i hi b hb => ?_
    have hblock : i / bs < ss.length := by
      rw [hlen]
      exact div_lt_ceilDiv hpos hi
    have hdiv : Int.tdiv (i : ℤ) bs = (i / bs : ℕ) := Int.ofNat_tdiv ..
    rw [hdiv, if_pos (by omega), peek_ok hblock, ok_bind, peek_ok (by omega), ok_bind, poke_ok (by omega), Nat.zero_add]
  have hover : overlay 0 x.length (fun i a => a * cell ss (i / bs)) x = tabulate x.length fun i => cell x i * cell ss (i / bs) :=
    tabulate_congr fun p hp => if_pos (by omega)
  unfold scaleBlocks
  simp only [hss, hcount, hbs, ← hx]
  by_cases hzero : 0 < ss.length
  · rw [if_pos (by omega), hsweep, hover]
  · have hnil : x = [] := by
      have hcover : x.length ≤ ss.length * bs := hlen ▸ le_ceilDiv_mul hpos
      rw [Nat.eq_zero_of_not_pos hzero, Nat.zero_mul] at hcover
      exact List.eq_nil_of_length_eq_zero (Nat.le_zero.1 hcover)
    rw [if_neg (by omega), hnil]
    rfl

/-- The kernel applies the scales the decoder applies. -/
theorem scaleBlocks_ok (hentry : KernelEntry num store tm) (hsame : SameInputs num store tm t) {x r : List α}
    (hx : x.length = tm.packedValues) (h : decodeScales num store tm x = .ok r) :
    scaleBlocks t x = .ok r ∧ r.length = tm.packedValues := by
  have hs := hsame.scales
  unfold SameScales at hs
  have hblock : storesBlockScales tm.normalizationMode = true →
      ((readScales num store tm).bind fun scales => applyBlockScales .numpy x scales tm.blockSize) = .ok r →
      scaleBlocks t x = .ok r ∧ r.length = tm.packedValues := fun hmode h => by
    rw [if_pos hmode] at hs
    obtain ⟨scales, hread, hss, hcount, hbs⟩ := hs
    rw [hread, ok_bind] at h
    refine ⟨scaleBlocks_block (by rw [hx, hsame.packed]) hss hcount hbs h, ?_⟩
    rw [(applyBlockScales_inv h).2.2, length_tabulate, hx]
  unfold decodeScales at h
  rcases hentry.normalization with hn | hn | hn | hn
  · rw [hn] at hs h
    obtain rfl := Except.ok.inj h
    refine ⟨?_, hx⟩
    unfold scaleBlocks
    rw [hs.1]
  all_goals
    rw [hn] at h
    exact hblock (by rw [hn]; rfl) h

/-! ## Salient values -/

/-- The block size of the salient values: that of the scales, or the default both sides fall back to. -/
theorem salient_blockSize (hentry : KernelEntry num store tm) (hsame : SameInputs num store tm t) :
    (if 0 < (t.blockScaleSize : ℤ) then (t.blockScaleSize : ℤ) else 32) = tm.blockSize := by
  have hs := hsame.scales
  unfold SameScales at hs
  have hpos : 0 < tm.blockSize := tm.blockSize_pos
  rcases hentry.normalization with hn | hn | hn | hn
  · rw [hn] at hs
    rw [hs.2, if_neg (lt_irrefl _), TensorMeta.blockSize, hentry.blockScaleSize hn]
    rfl
  all_goals
    rw [hn] at hs
    obtain ⟨-, -, -, -, hbs⟩ := hs
    rw [hbs, if_pos (by omega)]

/-- The kernel puts back the salient values the decoder does. -/
theorem putSalient_ok (hentry : KernelEntry num store tm) (hsame : SameInputs num store tm t) {x r : List α}
    (hx : x.length = tm.packedValues) (h : decodeSalient num store tm x = .ok r) :
    putSalient t x = .ok r ∧ r.length = tm.packedValues := by
  have hs := hsame.salient
  unfold SameSalient at hs
  unfold decodeSalient at h
  cases hm : tm.salient with
  | none =>
    rw [hm] at hs h
    obtain rfl := Except.ok.inj h
    refine ⟨?_, hx⟩
    unfold putSalient
    rw [hs]
  | some m =>
    simp only [hm] at hs h
    obtain ⟨sIdx, is, vals, hread, his, hidx, hval, hcount⟩ := hs
    simp only [hread, ok_bind] at h
    obtain ⟨ns, rfl⟩ := exists_ints (hentry.salient m hm sIdx vals hread)
    rw [length_ints] at hcount
    have hscatter : r = scatter x (salientWrites x.length tm.blockSize ns vals) ∧ (ns ≠ [] → vals.length = ns.length) := by
      cases ns with
      | nil =>
        obtain rfl := Except.ok.inj h
        exact ⟨rfl, by simp⟩
      | cons n ns =>
        have hlen : vals.length = (n :: ns).length := by
          by_contra hne
          rw [DecodeAux.ints_isEmpty, if_neg (by simp), injectSalient, length_ints, if_pos (Ne.symm hne)] at h
          cases h
        rw [DecodeAux.ints_isEmpty, if_neg (by simp), DecodeAux.injectSalient_eq hlen] at h
        exact ⟨(Except.ok.inj h).symm, fun _ => hlen⟩
    obtain ⟨rfl, hlen⟩ := hscatter
    refine ⟨?_, by rw [length_scatter, hx]⟩
    unfold putSalient
    simp only [his, hval, salient_blockSize hentry hsame]
    rw [hcount]
    refine loop_scatter fun b hb s hs => ?_
    obtain ⟨i, hpeek, hi⟩ := peek_ints hidx hb
    have hvals : vals.length = ns.length := hlen (List.ne_nil_of_length_pos (by omega))
    have hflat : (b : ℤ) * tm.blockSize + i = (b * tm.blockSize + cell ns b : ℕ) := by rw [hi]; push_cast; rfl
    rw [hpeek, ok_bind, hflat, hsame.packed]
    by_cases hlt : b * tm.blockSize + cell ns b < x.length
    · rw [if_pos hlt, if_pos (by omega), peek_ok (by omega), ok_bind]
      exact poke_ok (by omega) _
    · rw [if_neg hlt, if_neg (by omega)]

/-! ## The low-rank correction -/

/-- A row of one factor against a row of the other. -/
theorem dotC_ok {r i j : ℕ} {a b : List α} (ha : i * r + r ≤ a.length) (hb : j * r + r ≤ b.length) :
    dotC r a b i j = .ok ((List.range r).map fun k => cell a (i * r + k) * cell b (j * r + k)).sum := by
  have hterm : ∀ k ∈ List.range r, ∀ dot : α, ((peek a ((i : ℤ) * r + (k : ℕ))).bind fun x =>
      (peek b ((j : ℤ) * r + (k : ℕ))).map fun y => dot + x * y) = .ok (dot + cell a (i * r + k) * cell b (j * r + k)) := by
    intro k hk dot
    have hk : k < r := List.mem_range.1 hk
    have hi : (i : ℤ) * r + k = (i * r + k : ℕ) := by push_cast; rfl
    have hj : (j : ℤ) * r + k = (j * r + k : ℕ) := by push_cast; rfl
    rw [hi, hj, peek_ok (by omega), ok_bind, peek_ok (by omega), ok_map]
  rw [dotC, Buffer.loop, Int.toNat_natCast, foldlM_add hterm, zero_add]

/-- The correction added in place. -/
theorem lowrank_loop {rows cols r : ℕ} {a b x : List α} (ha : a.length = rows * r) (hb : b.length = cols * r)
    (hx : x.length = rows * cols) :
    Buffer.loop rows (fun i out => Buffer.loop cols (fun jc out => (dotC r a b i jc).bind fun dot =>
      (peek out (i * cols + jc)).bind fun x => poke out (i * cols + jc) (x + dot)) out) x =
      .ok (List.zipWith (· + ·) x (matmulT rows r cols a b)) := by
  have hlen : (List.zipWith (· + ·) x (matmulT rows r cols a b)).length = rows * cols := by
    rw [List.length_zipWith, DecodeAux.length_matmulT, hx, Nat.min_self]
  rcases Nat.eq_zero_or_pos cols with rfl | hcols
  · have hnil : x = [] := List.eq_nil_of_length_eq_zero (by rw [hx, Nat.mul_zero])
    subst hnil
    exact loop_skip fun i _ => loop_of_nonpos (le_refl _)
  refine (sweep_rows (g := fun p y => y + cell (matmulT rows r cols a b) p) hcols hx.ge ?_).trans ?_
  rotate_left
  · refine congrArg Except.ok (ext_cell (by rw [length_overlay, hlen, hx]) fun p hp => ?_)
    have hp : p < x.length := by simpa using hp
    rw [cell_overlay hp, if_pos (by omega), cell_zipWith hp (by rw [DecodeAux.length_matmulT]; omega), Nat.sub_zero]
  · intro i hi buf hbuf
    have hroom : i * cols + cols ≤ rows * cols := by
      rw [← Nat.succ_mul]
      exact Nat.mul_le_mul_right cols hi
    have hrowA : i * r + r ≤ a.length := by
      rw [ha, ← Nat.succ_mul]
      exact Nat.mul_le_mul_right r hi
    refine sweep (by omega) fun j hj s hs => ?_
    have hrowB : j * r + r ≤ b.length := by
      rw [hb, ← Nat.succ_mul]
      exact Nat.mul_le_mul_right r hj
    have hdst : (i : ℤ) * cols + j = (i * cols + j : ℕ) := by push_cast; rfl
    obtain ⟨hdiv, hmod⟩ := DecodeAux.salient_place (b := i) hj
    rw [dotC_ok hrowA hrowB, ok_bind, hdst, peek_ok (by omega), ok_bind, poke_ok (by omega), matmulT, cell_tabulate _ (by omega),
      hdiv, hmod]

/-- What `_read_lowrank` reads has rows of the rank. -/
theorem readLowrank_spec {lr : LowrankMeta} {a b : List (List α)} (h : readLowrank num store lr = .ok (a, b)) :
    0 < lr.rank ∧ a.flatten.length = a.length * lr.rank ∧ b.flatten.length = b.length * lr.rank := by
  obtain ⟨fa, -, h⟩ := bind_eq_ok.1 h
  obtain ⟨fb, -, h⟩ := bind_eq_ok.1 h
  obtain ⟨a', ha, h⟩ := bind_eq_ok.1 h
  obtain ⟨b', hb, h⟩ := map_eq_ok.1 h
  obtain ⟨rfl, rfl⟩ := Prod.mk.inj h
  exact ⟨(reshapeAuto_inv ha).1, length_flatten_of_width (reshapeAuto_inv ha).2.2, length_flatten_of_width (reshapeAuto_inv hb).2.2⟩

/-- The kernel adds the correction the decoder adds. -/
theorem addLowrank_ok (hentry : KernelEntry num store tm) (hsame : SameInputs num store tm t) {x r : List α}
    (hx : x.length = tm.packedValues) (h : decodeLowrank num store tm x = .ok r) : addLowrank t x = .ok r := by
  have hl := hsame.lowrank
  unfold SameLowrank at hl
  unfold decodeLowrank at h
  cases hm : tm.lowrank with
  | none =>
    rw [hm] at hl h
    obtain rfl := Except.ok.inj h
    unfold addLowrank
    rw [hl]
  | some lr =>
    simp only [hm] at hl h
    obtain ⟨a, b, hread, hrank, ha, hb⟩ := hl
    obtain ⟨hpos, hla, hlb⟩ := readLowrank_spec hread
    have hshape := hentry.lowrank lr hm a b hread
    obtain ⟨rows, cols, hrc, hrows, hcols⟩ := hsame.shape
    obtain ⟨rfl, rfl⟩ : rows = a.length ∧ cols = b.length := by
      rw [hshape] at hrc
      exact Prod.mk.inj (Except.ok.inj hrc.symm)
    rw [hread, ok_bind] at h
    simp only [applyLowrankNumpy, hshape, ok_bind] at h
    obtain ⟨mat, hmat, h⟩ := bind_eq_ok.1 h
    have htake : (x.take (a.length * b.length)).length = a.length * b.length := by
      by_contra hne
      rw [reshape, if_neg hne] at hmat
      cases hmat
    have hfit : x.length = a.length * b.length := by
      have hle := hentry.packed_le_shape
      rw [DecodeAux.rowsCols_prod hshape] at hle
      rw [List.length_take] at htake
      omega
    rw [List.take_of_length_le hfit.le, reshape_ok hfit] at hmat
    obtain rfl := Except.ok.inj hmat
    rw [flatten_rowsOf hfit, DecodeAux.broadcastMatrix_same hfit (by simp)] at h
    obtain rfl := Except.ok.inj h
    have hpacked : (a.length : ℤ) * b.length = t.packedValues := by
      rw [hsame.packed, ← hx, hfit]
      push_cast
      rfl
    unfold addLowrank
    simp only [ha, hb]
    rw [hrank, hrows, hcols, if_pos ⟨by omega, hpacked.le⟩]
    exact lowrank_loop hla hlb hfit

end Values

end KernelAux

end Orka
