import Orka.Giant
import Orka.Lemmas.Runtime
import Orka.Theorems.EmAq

/-!
# Giant candidates get the values of the others

The close-out of a stage in blocks of rows leaves the sum and the residual that decoding all rows at once does, stage after stage.
The sum and the residual are never the tensor of the vectors, so a block that is written is not read again.
-/

namespace Orka

open Flat Steps

set_option linter.unusedSectionVars false

variable {α : Type} [Field α] [LinearOrder α] [IsStrictOrderedRing α] {g : ℕ}

/-! ## Tensors -/

/-- Writing one tensor leaves the others. -/
theorem tensorAt_set {memory : List (List (Fin g → α))} {b : ℕ} (hb : b < memory.length) (t : List (Fin g → α)) (b' : ℕ) :
    tensorAt (memory.set b t) b' = if b' = b then t else tensorAt memory b' := by
  unfold tensorAt
  rw [List.getD_eq_getElem?_getD, List.getD_eq_getElem?_getD, List.getElem?_set]
  by_cases h : b = b'
  · subst h
    simp [hb]
  · simp [h, Ne.symm h]

/-- What writing the rows `i` to `j` of a tensor leaves. -/
theorem writeRows_ok {memory : List (List (Fin g → α))} {b i j : ℕ} {block : List (Fin g → α)} (hij : i ≤ j)
    (hj : j ≤ (tensorAt memory b).length) (hblock : block.length = j - i) :
    ∃ t, writeRows memory b i j block = .ok (memory.set b t) ∧ t.length = (tensorAt memory b).length ∧
      ∀ r, cell t r = if i ≤ r ∧ r < j then cell block (r - i) else cell (tensorAt memory b) r := by
  refine ⟨(tensorAt memory b).take i ++ block ++ (tensorAt memory b).drop j, ?_, ?_, fun r => ?_⟩
  · rw [writeRows, setSlice_ok hj hblock hij, ok_map]
  · simp only [List.length_append, List.length_take, List.length_drop]
    omega
  · have htake : ((tensorAt memory b).take i).length = i := by
      rw [List.length_take]
      omega
    rcases lt_or_ge r i with hr | hr
    · rw [if_neg (by omega), List.append_assoc, cell_append_left (by omega), cell_take hr]
    · rcases lt_or_ge r j with hrj | hrj
      · rw [if_pos ⟨hr, hrj⟩, List.append_assoc, cell_append_right (by omega), htake, cell_append_left (by omega)]
      · rw [if_neg (by omega), cell_append_right (by rw [List.length_append]; omega), cell_drop, List.length_append, htake, hblock]
        congr 1
        omega

/-! ## Decoding a block -/

variable {sd : StageData α g} {n : ℕ}

/-- An index past the codebook raises. -/
theorem gatherRows_error {w : ℕ} {cb : List (Fin w → α)} {idx : List ℕ} {r : ℕ} (hr : r < idx.length) (h : cb.length ≤ cell idx r) :
    gatherRows cb idx = .error .indexError := by
  refine if_pos (List.any_eq_true.2 ⟨idx[r], List.getElem_mem hr, ?_⟩)
  rw [← cell_eq_getElem hr]
  exact decide_eq_true h

/-- The indices of the rows `i` to `j`. -/
def blockIndices (sd : StageData α g) (i j : ℕ) : List ℕ :=
  match sd.kind with
  | .vector => slice sd.indices i j
  | .scalar => slice sd.indices (i * g) (j * g)

/-- A block gathers its part of the indices and is unviewed. -/
theorem decodeBlock_eq (sd : StageData α g) (i j : ℕ) :
    decodeBlock sd i j = (gatherRows sd.cb (blockIndices sd i j)).bind (stageUnview sd.kind (j - i)) := by
  obtain ⟨_ | _, cb, indices, size⟩ := sd
  · show gatherRows cb (slice indices i j) = _
    unfold blockIndices stageUnview
    cases gatherRows cb (slice indices i j) <;> rfl
  · rfl

/-- The part of the index stream that a block of rows has. -/
def streamPart (g : ℕ) (kind : StageKind) (i j : ℕ) : ℕ × ℕ :=
  match kind with
  | .vector => (i, j)
  | .scalar => (i * g, j * g)

/-- The indices of a block are a slice of the stage's. -/
theorem blockIndices_eq (sd : StageData α g) (i j : ℕ) :
    blockIndices sd i j = slice sd.indices (streamPart g sd.kind i j).1 (streamPart g sd.kind i j).2 := by
  unfold blockIndices streamPart
  cases sd.kind <;> rfl

/-- A block's part has as many indices as the view of its rows. -/
theorem streamPart_sub (kind : StageKind) (i j : ℕ) :
    (streamPart g kind i j).2 - (streamPart g kind i j).1 = viewRows g (j - i) kind := by
  cases kind with
  | vector => rfl
  | scalar => exact (Nat.sub_mul j i g).symm

/-- A block's part lies inside the stage's indices. -/
theorem streamPart_le (kind : StageKind) (i : ℕ) {j n : ℕ} (hj : j ≤ n) : (streamPart g kind i j).2 ≤ viewRows g n kind := by
  cases kind with
  | vector => exact hj
  | scalar => exact Nat.mul_le_mul_right g hj

/-- A block has as many indices as the view of its rows. -/
theorem length_blockIndices (hidx : sd.indices.length = viewRows g n sd.kind) {i j : ℕ} (hj : j ≤ n) :
    (blockIndices sd i j).length = viewRows g (j - i) sd.kind := by
  rw [blockIndices_eq, length_slice (by rw [hidx]; exact streamPart_le _ _ hj), streamPart_sub]

/-- A block decodes to its rows of what the stage decodes to. -/
theorem decodeBlock_ok (hidx : sd.indices.length = viewRows g n sd.kind)
    (hrange : ∀ r < sd.indices.length, cell sd.indices r < sd.cb.length) {i j : ℕ} (hij : i ≤ j) (hj : j ≤ n) :
    decodeBlock sd i j = .ok (slice (sd.decoded n) i j) := by
  have hlength := length_blockIndices hidx (i := i) hj
  have hcell : ∀ r < (blockIndices sd i j).length,
      cell (blockIndices sd i j) r = cell sd.indices ((streamPart g sd.kind i j).1 + r) := fun r hr => by
    rw [hlength, ← streamPart_sub] at hr
    rw [blockIndices_eq, cell_slice hr]
  have hgather : gatherRows sd.cb (blockIndices sd i j) = .ok ((blockIndices sd i j).map (cell sd.cb)) := by
    refine gatherRows_ok fun r hr => ?_
    rw [hcell r hr]
    refine hrange _ ?_
    have hle := streamPart_le (g := g) sd.kind i hj
    have hsub := streamPart_sub (g := g) sd.kind i j
    omega
  rw [decodeBlock_eq, hgather, ok_bind, stageUnview_ok (by rw [List.length_map, hlength])]
  congr 1
  obtain ⟨kind, cb, indices, size⟩ := sd
  cases kind with
  | vector =>
    show (slice indices i j).map (cell cb) = slice (indices.map (cell cb)) i j
    rw [slice, slice, List.map_take, List.map_drop]
  | scalar =>
    refine ext_cell ?_ fun r hr => ?_
    · rw [length_slice (by rw [StageData.decoded, unviewed, length_tabulate]; exact hj), unviewed, length_tabulate]
    · rw [unviewed, length_tabulate] at hr
      rw [cell_slice hr, StageData.decoded, unviewed, unviewed, cell_tabulate _ hr, cell_tabulate _ (by omega)]
      funext e
      have hlt : r * g + e < (blockIndices ⟨.scalar, cb, indices, size⟩ i j).length := by
        rw [hlength]
        exact flat_lt hr e.isLt
      have hlt' : (i + r) * g + e < indices.length := by
        rw [show indices.length = n * g from hidx]
        exact flat_lt (by omega) e.isLt
      rw [cell_map hlt, cell_map hlt', hcell _ hlt, streamPart, show i * g + (r * g + e) = (i + r) * g + e by ring]

/-- An index outside the codebook fails the block of its row, and nothing else fails. -/
theorem decodeBlock_error (hidx : sd.indices.length = viewRows g n sd.kind) {i j : ℕ} (hj : j ≤ n) {e : PyErr}
    (h : decodeBlock sd i j = .error e) : e = .indexError := by
  rw [decodeBlock_eq] at h
  cases hgather : gatherRows sd.cb (blockIndices sd i j) with
  | error e' =>
    rw [hgather] at h
    obtain rfl : e' = e := Except.error.inj h
    unfold gatherRows at hgather
    split at hgather
    · exact (Except.error.inj hgather).symm
    · cases hgather
  | ok raw =>
    have hraw : raw.length = (blockIndices sd i j).length := by
      unfold gatherRows at hgather
      split at hgather
      · cases hgather
      · rw [← Except.ok.inj hgather, List.length_map]
    rw [hgather, ok_bind, stageUnview_ok (by rw [hraw, length_blockIndices hidx hj])] at h
    cases h

/-- The row of an index. -/
def rowOfIndex (g : ℕ) (kind : StageKind) (q : ℕ) : ℕ :=
  match kind with
  | .vector => q
  | .scalar => q / g

/-- A block that reaches an index past the codebook raises. -/
theorem decodeBlock_out (hidx : sd.indices.length = viewRows g n sd.kind) {q : ℕ} (hq : q < sd.indices.length)
    (hout : sd.cb.length ≤ cell sd.indices q) {i j : ℕ} (hi : i ≤ rowOfIndex g sd.kind q) (hj : rowOfIndex g sd.kind q < j)
    (hjn : j ≤ n) (v : List (Fin g → α)) : decodeBlock sd i j ≠ .ok v := by
  have hpart : (streamPart g sd.kind i j).1 ≤ q ∧ q < (streamPart g sd.kind i j).2 := by
    revert hi hj
    cases hkind : sd.kind with
    | vector => exact fun hi hj => ⟨hi, hj⟩
    | scalar =>
      have hg : 0 < g := by
        rw [hidx, hkind, viewRows] at hq
        exact Nat.pos_of_mul_pos_left (Nat.zero_lt_of_lt hq)
      exact fun hi hj => ⟨(Nat.le_div_iff_mul_le hg).1 hi, (Nat.div_lt_iff_lt_mul hg).1 hj⟩
  have hsub := streamPart_sub (g := g) sd.kind i j
  have hlt : q - (streamPart g sd.kind i j).1 < (blockIndices sd i j).length := by
    rw [length_blockIndices hidx hjn]
    omega
  have hcell : cell (blockIndices sd i j) (q - (streamPart g sd.kind i j).1) = cell sd.indices q := by
    rw [blockIndices_eq, cell_slice (by omega)]
    congr 1
    omega
  rw [decodeBlock_eq, gatherRows_error hlt (by rw [hcell]; exact hout)]
  intro h
  cases h

/-- A block decodes to its rows. -/
theorem length_decodeBlock (hidx : sd.indices.length = viewRows g n sd.kind) {i j : ℕ} (hj : j ≤ n) {dblk : List (Fin g → α)}
    (h : decodeBlock sd i j = .ok dblk) : dblk.length = j - i := by
  rw [decodeBlock_eq] at h
  obtain ⟨raw, hgather, h⟩ := bind_eq_ok.1 h
  have hraw : raw.length = viewRows g (j - i) sd.kind := by
    unfold gatherRows at hgather
    split at hgather
    · cases hgather
    · rw [← Except.ok.inj hgather, List.length_map, length_blockIndices hidx hj]
  rw [stageUnview_ok hraw] at h
  rw [← Except.ok.inj h, length_unviewed hraw]

/-! ## The loop over the blocks -/

/-- Three tensors of a memory, apart and of `n` rows. -/
structure Laid (n vo ds res : ℕ) (memory : List (List (Fin g → α))) : Prop where
  sumApart : ds ≠ vo
  residualApart : res ≠ vo ∧ res ≠ ds
  origHeld : vo < memory.length
  sumHeld : ds < memory.length
  residualHeld : res < memory.length
  origRows : (tensorAt memory vo).length = n
  sumRows : (tensorAt memory ds).length = n
  residualRows : (tensorAt memory res).length = n

variable {vo ds res chunkRows : ℕ} {memory : List (List (Fin g → α))}

/-- What the close-out of a block changes. -/
theorem Laid.closeBlock (h : Laid n vo ds res memory) {i : ℕ} (hi : i ≤ n) {dblk : List (Fin g → α)}
    (hidx : sd.indices.length = viewRows g n sd.kind) (hdec : decodeBlock sd i (min (i + chunkRows) n) = .ok dblk) :
    ∃ memory', closeBlock sd chunkRows n vo ds res memory i = .ok memory' ∧ Laid n vo ds res memory' ∧
      tensorAt memory' vo = tensorAt memory vo ∧
      (∀ r, cell (tensorAt memory' ds) r = if i ≤ r ∧ r < min (i + chunkRows) n then cell (tensorAt memory ds) r + cell dblk (r - i)
        else cell (tensorAt memory ds) r) ∧
      ∀ r, cell (tensorAt memory' res) r = if i ≤ r ∧ r < min (i + chunkRows) n then
        cell (tensorAt memory vo) r - cell (tensorAt memory' ds) r else cell (tensorAt memory res) r := by
  generalize hj : min (i + chunkRows) n = j at hdec
  have hij : i ≤ j := by omega
  have hjn : j ≤ n := by omega
  have hdblk := length_decodeBlock hidx hjn hdec
  have hadd : (addRows (slice (tensorAt memory ds) i j) dblk).length = j - i := by
    rw [length_addRows, length_slice (by rw [h.sumRows]; exact hjn), hdblk, min_self]
  obtain ⟨sum, hsum, hsumlen, hsumcell⟩ := writeRows_ok hij (by rw [h.sumRows]; exact hjn) hadd
  -- the second write reads the block of the sum that the first has written
  have hvo : tensorAt (memory.set ds sum) vo = tensorAt memory vo := by rw [tensorAt_set h.sumHeld, if_neg h.sumApart.symm]
  have hds : tensorAt (memory.set ds sum) ds = sum := by rw [tensorAt_set h.sumHeld, if_pos rfl]
  have hres : tensorAt (memory.set ds sum) res = tensorAt memory res := by rw [tensorAt_set h.sumHeld, if_neg h.residualApart.2]
  have hsub : (vectorsSubtract (slice (tensorAt (memory.set ds sum) vo) i j) (slice (tensorAt (memory.set ds sum) ds) i j)).length =
      j - i := by
    rw [length_vectorsSubtract, hvo, hds, length_slice (by rw [h.origRows]; exact hjn),
      length_slice (by rw [hsumlen, h.sumRows]; exact hjn), min_self]
  obtain ⟨residual, hresidual, hreslen, hrescell⟩ := writeRows_ok hij (by rw [hres, h.residualRows]; exact hjn) hsub
  have hheld : res < (memory.set ds sum).length := by rw [List.length_set]; exact h.residualHeld
  have hvo' : tensorAt ((memory.set ds sum).set res residual) vo = tensorAt memory vo := by
    rw [tensorAt_set hheld, if_neg h.residualApart.1.symm, hvo]
  have hds' : tensorAt ((memory.set ds sum).set res residual) ds = sum := by
    rw [tensorAt_set hheld, if_neg h.residualApart.2.symm, hds]
  have hres' : tensorAt ((memory.set ds sum).set res residual) res = residual := by rw [tensorAt_set hheld, if_pos rfl]
  refine ⟨(memory.set ds sum).set res residual, ?_, ⟨h.sumApart, h.residualApart, ?_, ?_, ?_, ?_, ?_, ?_⟩, hvo', fun r => ?_, fun r => ?_⟩
  · unfold Orka.closeBlock
    simp only [hj]
    rw [hdec, ok_bind, hsum, ok_bind, hresidual]
  · rw [List.length_set, List.length_set]
    exact h.origHeld
  · rw [List.length_set, List.length_set]
    exact h.sumHeld
  · rw [List.length_set, List.length_set]
    exact h.residualHeld
  · rw [hvo', h.origRows]
  · rw [hds', hsumlen, h.sumRows]
  · rw [hres', hreslen, hres, h.residualRows]
  · rw [hds', hsumcell]
    split
    · next hr =>
      have hr' : r - i < j - i := by omega
      rw [cell_addRows (by rw [length_slice (by rw [h.sumRows]; exact hjn)]; exact hr') (by rw [hdblk]; exact hr'), cell_slice hr',
        Nat.add_sub_cancel' hr.1]
    · rfl
  · rw [hres', hds', hrescell, hres]
    split
    · next hr =>
      have hr' : r - i < j - i := by omega
      rw [cell_vectorsSubtract (by rw [hvo, length_slice (by rw [h.origRows]; exact hjn)]; exact hr')
        (by rw [hds, length_slice (by rw [hsumlen, h.sumRows]; exact hjn)]; exact hr'), cell_slice hr', cell_slice hr', hvo, hds,
        Nat.add_sub_cancel' hr.1]
    · rfl

/-- The rows before `m` are closed. -/
structure ClosedUpTo (n vo ds res : ℕ) (orig sum decoded : List (Fin g → α)) (m : ℕ) (memory : List (List (Fin g → α))) : Prop where
  laid : Laid n vo ds res memory
  origKept : tensorAt memory vo = orig
  sumAt : ∀ r < n, cell (tensorAt memory ds) r = if r < m then cell sum r + cell decoded r else cell sum r
  residualAt : ∀ r < n, r < m → cell (tensorAt memory res) r = cell orig r - (cell sum r + cell decoded r)

/-- Where every index names a row the blocks close one after the other. -/
theorem closeBlocks_ok {orig sum : List (Fin g → α)} (hchunk : 0 < chunkRows) (hidx : sd.indices.length = viewRows g n sd.kind)
    (hrange : ∀ r < sd.indices.length, cell sd.indices r < sd.cb.length)
    (h : ClosedUpTo n vo ds res orig sum (sd.decoded n) 0 memory) {k : ℕ} (hk : k ≤ ceilDiv n chunkRows) :
    ∃ memory', ((List.range k).map (· * chunkRows)).foldlM (closeBlock sd chunkRows n vo ds res) memory = .ok memory' ∧
      ClosedUpTo n vo ds res orig sum (sd.decoded n) (k * chunkRows) memory' := by
  induction k with
  | zero => exact ⟨memory, rfl, by rwa [Nat.zero_mul]⟩
  | succ k ih =>
    obtain ⟨before, hbefore, hclosed⟩ := ih (by omega)
    have hlt := mul_lt_of_lt_ceilDiv hchunk (show k < ceilDiv n chunkRows by omega)
    have hj : min (k * chunkRows + chunkRows) n ≤ n := min_le_right _ _
    obtain ⟨memory', hstep, hlaid, hvo, hds, hres⟩ :=
      hclosed.laid.closeBlock hlt.le hidx (decodeBlock_ok hidx hrange (by omega) hj)
    have hrow : ∀ r < n, (k * chunkRows ≤ r ∧ r < min (k * chunkRows + chunkRows) n) ↔
        (¬ r < k * chunkRows ∧ r < (k + 1) * chunkRows) := fun r hr => by
      rw [Nat.succ_mul]
      omega
    have hcell : ∀ r < n, k * chunkRows ≤ r ∧ r < min (k * chunkRows + chunkRows) n →
        cell (slice (sd.decoded n) (k * chunkRows) (min (k * chunkRows + chunkRows) n)) (r - k * chunkRows) =
          cell (sd.decoded n) r := fun r _ hin => by
      rw [cell_slice (by omega), Nat.add_sub_cancel' hin.1]
    have hsum : ∀ r < n, cell (tensorAt memory' ds) r =
        if r < (k + 1) * chunkRows then cell sum r + cell (sd.decoded n) r else cell sum r := fun r hr => by
      rw [hds, hclosed.sumAt r hr]
      have hsucc : (k + 1) * chunkRows = k * chunkRows + chunkRows := Nat.succ_mul k chunkRows
      by_cases hin : k * chunkRows ≤ r ∧ r < min (k * chunkRows + chunkRows) n
      · rw [if_pos hin, hcell r hr hin, if_neg (by omega), if_pos (by omega)]
      · rw [if_neg hin]
        by_cases hr' : r < k * chunkRows
        · rw [if_pos hr', if_pos (by omega)]
        · rw [if_neg hr', if_neg fun hlt => hin ((hrow r hr).2 ⟨hr', hlt⟩)]
    refine ⟨memory', ?_, hlaid, hvo.trans hclosed.origKept, hsum, fun r hr hlt' => ?_⟩
    · rw [List.range_succ, List.map_append, List.foldlM_append, hbefore]
      show [k * chunkRows].foldlM (closeBlock sd chunkRows n vo ds res) before = _
      rw [foldlM_cons_eq, hstep]
      rfl
    · rw [hres, hclosed.origKept, hsum r hr, if_pos hlt']
      by_cases hin : k * chunkRows ≤ r ∧ r < min (k * chunkRows + chunkRows) n
      · rw [if_pos hin]
      · rw [if_neg hin]
        refine hclosed.residualAt r hr ?_
        by_contra hr'
        exact hin ((hrow r hr).2 ⟨hr', hlt'⟩)

/-- With an index outside the codebook the loop fails as the gather of all rows does. -/
theorem closeBlocks_error (hchunk : 0 < chunkRows) (hidx : sd.indices.length = viewRows g n sd.kind) {q : ℕ}
    (hq : q < sd.indices.length) (hout : sd.cb.length ≤ cell sd.indices q) (h : Laid n vo ds res memory) :
    ((List.range (ceilDiv n chunkRows)).map (· * chunkRows)).foldlM (closeBlock sd chunkRows n vo ds res) memory =
      .error .indexError := by
  have hrow : rowOfIndex g sd.kind q < n := by
    rw [hidx] at hq
    revert hq
    cases sd.kind with
    | vector => exact id
    | scalar => exact Nat.div_lt_of_lt_mul ∘ fun hq => by rwa [viewRows, Nat.mul_comm] at hq
  have hstart : ∀ i ∈ (List.range (ceilDiv n chunkRows)).map (· * chunkRows), i < n := fun i hi => by
    obtain ⟨k, hk, rfl⟩ := List.mem_map.1 hi
    exact mul_lt_of_lt_ceilDiv hchunk (List.mem_range.1 hk)
  have hblock : rowOfIndex g sd.kind q / chunkRows * chunkRows ∈ (List.range (ceilDiv n chunkRows)).map (· * chunkRows) :=
    List.mem_map_of_mem (List.mem_range.2 (div_lt_ceilDiv hchunk hrow))
  have hfails : ∀ memory v, closeBlock sd chunkRows n vo ds res memory (rowOfIndex g sd.kind q / chunkRows * chunkRows) ≠ .ok v := by
    intro memory v hv
    obtain ⟨dblk, hdec, -⟩ := bind_eq_ok.1 hv
    refine decodeBlock_out hidx hq hout (Nat.div_mul_le_self _ _) ?_ (min_le_right _ _) dblk hdec
    have := Nat.lt_div_mul_add hchunk (a := rowOfIndex g sd.kind q)
    omega
  cases hrun : ((List.range (ceilDiv n chunkRows)).map (· * chunkRows)).foldlM (closeBlock sd chunkRows n vo ds res) memory with
  | ok v => exact absurd hrun (foldlM_fault hblock hfails memory v)
  | error e =>
    refine congrArg _ (foldlM_error (P := Laid n vo ds res) (fun i hi a b ha hb => ?_) (fun i hi a e ha he => ?_) h hrun)
    · obtain ⟨dblk, hdec, -⟩ := bind_eq_ok.1 hb
      obtain ⟨memory', hok, hlaid, -⟩ := ha.closeBlock (hstart i hi).le hidx hdec
      exact Except.ok.inj (hok.symm.trans hb) ▸ hlaid
    · cases hdec : decodeBlock sd i (min (i + chunkRows) n) with
      | ok dblk =>
        obtain ⟨memory', hok, -⟩ := ha.closeBlock (hstart i hi).le hidx hdec
        rw [he] at hok
        cases hok
      | error e' =>
        have hstep : closeBlock sd chunkRows n vo ds res a i = .error e' := by
          unfold closeBlock
          simp only [hdec]
          rfl
        rw [← Except.error.inj (hstep.symm.trans he)]
        exact decodeBlock_error hidx (min_le_right _ _) hdec

/-! ## A stage -/

/-- The entries of a candidate are tensors of its memory, and the sum is another tensor than the vectors, of their shape. -/
structure GiantCandidate.Sound (c : GiantCandidate α g) : Prop where
  origHeld : c.vectorsOrig < c.memory.length
  sum : ∀ b ∈ c.decodedSum, b < c.memory.length ∧ b ≠ c.vectorsOrig ∧
    (tensorAt c.memory b).length = (tensorAt c.memory c.vectorsOrig).length
  residual : ∀ b ∈ c.vectorsResidual, b < c.memory.length

/-- New tensors come after the old ones. -/
theorem tensorAt_append {memory more : List (List (Fin g → α))} {b : ℕ} (hb : b < memory.length) :
    tensorAt (memory ++ more) b = tensorAt memory b := List.getD_append _ _ _ _ hb

/-- The tensor appended is the last one. -/
theorem tensorAt_concat (memory : List (List (Fin g → α))) (t : List (Fin g → α)) : tensorAt (memory ++ [t]) memory.length = t := by
  simp [tensorAt]

variable {c : GiantCandidate α g}

/-- The sum a close-out starts from. -/
def startSum (n : ℕ) (decodedSum : Option (List (Fin g → α))) : List (Fin g → α) := decodedSum.getD (List.replicate n 0)

/-- The sum's buffer: the one given, or zeros of the same size. -/
theorem sumBuffer_spec (h : c.Sound) :
    let alloc := sumBuffer (tensorAt c.memory c.vectorsOrig).length c.decodedSum c.memory
    alloc.1 < alloc.2.length ∧ alloc.1 ≠ c.vectorsOrig ∧
      tensorAt alloc.2 alloc.1 = startSum (tensorAt c.memory c.vectorsOrig).length (c.decodedSum.map (tensorAt c.memory)) ∧
      (tensorAt alloc.2 alloc.1).length = (tensorAt c.memory c.vectorsOrig).length ∧
      ∀ b < c.memory.length, b < alloc.2.length ∧ tensorAt alloc.2 b = tensorAt c.memory b := by
  cases hsum : c.decodedSum with
  | some b =>
    obtain ⟨hb, hne, hlen⟩ := h.sum b hsum
    exact ⟨hb, hne, rfl, hlen, fun b hb => ⟨hb, rfl⟩⟩
  | none =>
    refine ⟨by simp [sumBuffer], h.origHeld.ne', tensorAt_concat _ _, ?_, fun b hb => ⟨?_, tensorAt_append hb⟩⟩
    · rw [sumBuffer, tensorAt_concat, List.length_replicate]
    · rw [sumBuffer, List.length_append]
      omega

/-- The residual's buffer has `n` rows and is neither of the others. -/
theorem residualBuffer_spec (empty : ℕ → Fin g → α) (n : ℕ) {vo ds : ℕ} (vectorsResidual : Option ℕ)
    (hres : ∀ b ∈ vectorsResidual, b < memory.length) (hvo : vo < memory.length) (hds : ds < memory.length) :
    let alloc := residualBuffer empty n vo ds vectorsResidual memory
    alloc.1 < alloc.2.length ∧ alloc.1 ≠ vo ∧ alloc.1 ≠ ds ∧ (tensorAt alloc.2 alloc.1).length = n ∧
      ∀ b < memory.length, b < alloc.2.length ∧ tensorAt alloc.2 b = tensorAt memory b := by
  unfold residualBuffer
  cases hfilter : vectorsResidual.filter fun res => (tensorAt memory res).length = n ∧ res ≠ vo ∧ res ≠ ds with
  | some b =>
    obtain ⟨hb, htest⟩ := Option.filter_eq_some_iff.1 hfilter
    obtain ⟨hlen, hbvo, hbds⟩ := of_decide_eq_true htest
    exact ⟨hres b hb, hbvo, hbds, hlen, fun b hb => ⟨hb, rfl⟩⟩
  | none =>
    refine ⟨by simp, hvo.ne', hds.ne', ?_, fun b hb => ⟨?_, tensorAt_append hb⟩⟩
    · show (tensorAt (memory ++ [_]) memory.length).length = n
      rw [tensorAt_concat, length_tabulate]
    · rw [List.length_append]
      omega

/-- The three buffers are apart and as long as the vectors. -/
theorem buffers_laid (empty : ℕ → Fin g → α) (h : c.Sound) :
    let n := (tensorAt c.memory c.vectorsOrig).length
    let sum := sumBuffer n c.decodedSum c.memory
    let residual := residualBuffer empty n c.vectorsOrig sum.1 c.vectorsResidual sum.2
    Laid n c.vectorsOrig sum.1 residual.1 residual.2 ∧ tensorAt residual.2 c.vectorsOrig = tensorAt c.memory c.vectorsOrig ∧
      tensorAt residual.2 sum.1 = startSum n (c.decodedSum.map (tensorAt c.memory)) := by
  obtain ⟨hds, hdsvo, hsum, hsumlen, hkept⟩ := sumBuffer_spec h
  obtain ⟨hres, hresvo, hresds, hreslen, hkept'⟩ := residualBuffer_spec empty (tensorAt c.memory c.vectorsOrig).length
    c.vectorsResidual (fun b hb => (hkept b (h.residual b hb)).1) (hkept _ h.origHeld).1 hds
  have horig := (hkept' _ (hkept _ h.origHeld).1).2.trans (hkept _ h.origHeld).2
  refine ⟨⟨hdsvo, ⟨hresvo, hresds⟩, (hkept' _ (hkept _ h.origHeld).1).1, (hkept' _ hds).1, hres, ?_, ?_, hreslen⟩, horig,
    (hkept' _ hds).2.trans hsum⟩
  · exact congrArg List.length horig
  · exact (congrArg List.length (hkept' _ hds).2).trans hsumlen

/-- When the last row is closed. -/
theorem ClosedUpTo.eq {V D : List (Fin g → α)} {decodedSum : Option (List (Fin g → α))} {m : ℕ} (hn : n ≤ m)
    (h : ClosedUpTo n vo ds res V (startSum n decodedSum) D m memory) (hD : D.length = n)
    (hlen : ∀ sum ∈ decodedSum, sum.length = n) :
    tensorAt memory ds = accumulate decodedSum D ∧ tensorAt memory res = vectorsSubtract V (accumulate decodedSum D) := by
  have hV : V.length = n := by rw [← h.origKept, h.laid.origRows]
  have hacc : (accumulate decodedSum D).length = n := by
    cases decodedSum with
    | none => exact hD
    | some sum =>
      rw [accumulate, length_addRows, hlen sum rfl, hD, min_self]
  have hcell : ∀ r < n, cell (accumulate decodedSum D) r = cell (startSum n decodedSum) r + cell D r := fun r hr => by
    cases decodedSum with
    | none => rw [accumulate, startSum, Option.getD_none, cell_replicate hr, zero_add]
    | some sum => rw [accumulate, startSum, Option.getD_some, cell_addRows (by rw [hlen sum rfl]; exact hr) (by rw [hD]; exact hr)]
  constructor
  · refine ext_cell (by rw [h.laid.sumRows, hacc]) fun r hr => ?_
    rw [h.laid.sumRows] at hr
    rw [h.sumAt r hr, if_pos (by omega), hcell r hr]
  · refine ext_cell (by rw [h.laid.residualRows, length_vectorsSubtract, hV, hacc, min_self]) fun r hr => ?_
    rw [h.laid.residualRows] at hr
    rw [h.residualAt r hr (by omega), cell_vectorsSubtract (by rw [hV]; exact hr) (by rw [hacc]; exact hr), hcell r hr]

/-- **One stage**: the blocks leave what decoding all rows does, and the tensors as apart as they were. -/
theorem stageDecodeAccumulateBlocked_eq (empty : ℕ → Fin g → α) (h : c.Sound) (hchunk : 0 < chunkRows)
    (hidx : sd.indices.length = viewRows g (tensorAt c.memory c.vectorsOrig).length sd.kind) :
    (stageDecodeAccumulateBlocked empty c chunkRows sd).map GiantCandidate.held = closeHeld c.held sd ∧
      ∀ c', stageDecodeAccumulateBlocked empty c chunkRows sd = .ok c' → c'.Sound := by
  obtain ⟨hlaid, horig, hsum⟩ := buffers_laid empty h
  have hstarts : pyRange (tensorAt c.memory c.vectorsOrig).length chunkRows =
      .ok ((List.range (ceilDiv (tensorAt c.memory c.vectorsOrig).length chunkRows)).map (· * chunkRows)) := if_neg hchunk.ne'
  unfold stageDecodeAccumulateBlocked closeHeld closeStage
  simp only [hstarts, ok_bind]
  generalize sumBuffer (tensorAt c.memory c.vectorsOrig).length c.decodedSum c.memory = sum at hlaid horig hsum ⊢
  generalize residualBuffer empty (tensorAt c.memory c.vectorsOrig).length c.vectorsOrig sum.1 c.vectorsResidual sum.2 = residual
    at hlaid horig hsum ⊢
  show Except.map _ (Except.map _ _) = Except.map _ (Except.map _ (decodeStage (tensorAt c.memory c.vectorsOrig).length sd)) ∧ _
  by_cases hrange : ∀ r < sd.indices.length, cell sd.indices r < sd.cb.length
  · have hstart : ClosedUpTo (tensorAt c.memory c.vectorsOrig).length c.vectorsOrig sum.1 residual.1 (tensorAt c.memory c.vectorsOrig)
        (startSum (tensorAt c.memory c.vectorsOrig).length (c.decodedSum.map (tensorAt c.memory)))
        (sd.decoded (tensorAt c.memory c.vectorsOrig).length) 0 residual.2 :=
      ⟨hlaid, horig, fun r _ => by rw [hsum, if_neg (Nat.not_lt_zero r)], fun r _ hr => absurd hr (Nat.not_lt_zero r)⟩
    obtain ⟨memory', hloop, hclosed⟩ := closeBlocks_ok hchunk hidx hrange hstart le_rfl
    have hlen : ∀ s ∈ c.decodedSum.map (tensorAt c.memory), s.length = (tensorAt c.memory c.vectorsOrig).length := by
      intro s hs
      obtain ⟨b, hb, rfl⟩ := Option.mem_map.1 hs
      exact (h.sum b hb).2.2
    have hdecoded : (sd.decoded (tensorAt c.memory c.vectorsOrig).length).length = (tensorAt c.memory c.vectorsOrig).length :=
      length_unviewed (by rw [List.length_map, hidx])
    obtain ⟨hds, hres⟩ := hclosed.eq (le_ceilDiv_mul hchunk) hdecoded hlen
    have hplain : decodeStage (tensorAt c.memory c.vectorsOrig).length sd =
        .ok (sd.decoded (tensorAt c.memory c.vectorsOrig).length) := by
      rw [decodeStage, gatherRows_ok hrange, ok_bind]
      exact stageUnview_ok (by rw [List.length_map, hidx])
    rw [hloop, hplain, ok_map, ok_map, ok_map, ok_map]
    refine ⟨congrArg _ ?_, ?_⟩
    · show (tensorAt memory' c.vectorsOrig, some (tensorAt memory' sum.1), some (tensorAt memory' residual.1)) = _
      rw [hclosed.origKept, hds, hres]
      rfl
    · intro c' hc'
      obtain rfl := Except.ok.inj hc'
      refine ⟨hclosed.laid.origHeld, ?_, ?_⟩
      · rintro b ⟨⟩
        exact ⟨hclosed.laid.sumHeld, hclosed.laid.sumApart, by rw [hclosed.laid.sumRows, hclosed.laid.origRows]⟩
      · rintro b ⟨⟩
        exact hclosed.laid.residualHeld
  · push Not at hrange
    obtain ⟨q, hq, hout⟩ := hrange
    rw [closeBlocks_error hchunk hidx hq hout hlaid, decodeStage, gatherRows_error hq hout]
    exact ⟨rfl, fun c' hc' => by cases hc'⟩

/-! ## Any number of stages -/

/-- **The stages of a giant candidate**: closed in blocks of any numbers of rows they leave the vectors, the sum and the residual that
closing each stage at once leaves, and fail where that fails. -/
theorem stagesBlocked_eq (empty : ℕ → Fin g → α) (c : GiantCandidate α g) (h : c.Sound) (stages : List (ℕ × StageData α g))
    (hstages : ∀ s ∈ stages, 0 < s.1 ∧ s.2.indices.length = viewRows g (tensorAt c.memory c.vectorsOrig).length s.2.kind) :
    (stages.foldlM (fun c s => stageDecodeAccumulateBlocked empty c s.1 s.2) c).map GiantCandidate.held =
      stages.foldlM (fun held s => closeHeld held s.2) c.held := by
  induction stages generalizing c with
  | nil => rfl
  | cons s stages ih =>
    obtain ⟨hchunk, hidx⟩ := hstages s (by simp)
    obtain ⟨heq, hsound⟩ := stageDecodeAccumulateBlocked_eq empty h hchunk hidx
    rw [foldlM_cons_eq, foldlM_cons_eq, ← heq]
    cases hc' : stageDecodeAccumulateBlocked empty c s.1 s.2 with
    | error e => rfl
    | ok c' =>
      rw [ok_bind, ok_map, ok_bind]
      have horig : tensorAt c'.memory c'.vectorsOrig = tensorAt c.memory c.vectorsOrig := by
        rw [hc', ok_map] at heq
        obtain ⟨closed, -, hheld⟩ := map_eq_ok.1 heq.symm
        exact (congrArg Prod.fst hheld).symm
      exact ih c' (hsound c' hc') fun s hs => by
        rw [horig]
        exact hstages s (List.mem_cons_of_mem _ hs)

/-- A giant of three vectors without a sum, whose residual is the tensor of its vectors. -/
def threeRows : GiantCandidate ℚ 2 := ⟨[[![1, 2], ![3, 5], ![8, 13]]], 0, none, some 0⟩

/-- A stage of vectors in blocks of two rows, then one of scalars row by row. -/
def threeRowsStages : List (ℕ × StageData ℚ 2) :=
  [(2, ⟨.vector, [![1, 1], ![8, 8]], [0, 0, 1], 2⟩), (1, ⟨.scalar, [![0], ![4]], [0, 0, 1, 1, 0, 1], 2⟩)]

/-- Three rows in blocks of two, through two stages. -/
theorem stagesBlocked_eq_threeRows : threeRows.Sound ∧
    (threeRowsStages.foldlM (fun c s => stageDecodeAccumulateBlocked (fun _ _ => 7) c s.1 s.2) threeRows).map GiantCandidate.held =
      threeRowsStages.foldlM (fun held s => closeHeld held s.2) threeRows.held := by
  have hsound : threeRows.Sound := ⟨by decide, by simp [threeRows], by simp [threeRows]⟩
  exact ⟨hsound, stagesBlocked_eq _ threeRows hsound threeRowsStages (by decide)⟩

/-- What `_quantize_and_record_stage` does with a candidate that is no giant is to close the stage at once. -/
theorem quantizeAndRecordStage_eq (run : EmRun α) (c : EmCandidate α g) (st : StagedCandidate α g) (stageI : ℕ) (spec : SpecStage)
    (h : st.residual.length = c.vectorsOrig.length) :
    quantizeAndRecordStage run c st stageI spec =
      (stageCodebook run c stageI (stageSize spec).1 (stageSize spec).2 (stageView (stageSize spec).1 st.residual)).bind fun cb =>
        (quantizeVectorsAuto run.learner (stageView (stageSize spec).1 st.residual) cb (greedyWeights c (stageSize spec).1).1 false).bind
          fun (indices, _) =>
            (closeStage c.vectorsOrig st.decodedSum ⟨(stageSize spec).1, cb, indices, cb.length⟩).map fun (decodedSum, residual) =>
              ⟨residual, some decodedSum, st.stages ++ [⟨(stageSize spec).1, cb, indices, cb.length⟩]⟩ := by
  unfold quantizeAndRecordStage closeStage
  simp only [h]
  congr 1
  funext cb
  congr 1
  funext chosen
  cases decodeStage c.vectorsOrig.length (⟨(stageSize spec).1, cb, chosen.1, cb.length⟩ : StageData α g) <;> rfl

end Orka
