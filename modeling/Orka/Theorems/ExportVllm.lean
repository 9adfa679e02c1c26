import Orka.ExportVllm
import Orka.Lemmas.DecodeLength
import Orka.Lemmas.Lowrank
import Orka.Runtime

/-!
# The two exports of a correction

A correction is merged into the dense weight, or left to an adapter whose entries are under the module of the tensor. The exports agree,
up to the rounding of the weights to the dtype of the export, when no two tensors that differ in their correction share a module.
-/

namespace Orka

open Flat Steps

/-! ## The keys of an adapter -/

/-- Texts equal between equal ends are equal. -/
theorem eq_of_affixes {before after m n : String} (h : before ++ m ++ after = before ++ n ++ after) : m = n := by
  have h := congrArg String.toList h
  rw [String.toList_append, String.toList_append, String.toList_append, String.toList_append] at h
  exact String.toList_injective (List.append_cancel_left (List.append_cancel_right h))

theorem suffix_eq_of_append {m n s t : String} (h : m ++ s = n ++ t) (hlen : s.toList.length = t.toList.length) : s = t := by
  have h := congrArg String.toList h
  rw [String.toList_append, String.toList_append] at h
  exact String.toList_injective (List.append_inj_right' h hlen)

theorem loraAKey_ne_loraBKey (m n : String) : loraAKey m ≠ loraBKey n := fun h =>
  absurd (suffix_eq_of_append h (by decide)) (by decide)

theorem loraAKey_inj {m n : String} : loraAKey m = loraAKey n ↔ m = n := ⟨eq_of_affixes, congrArg loraAKey⟩

theorem loraBKey_inj {m n : String} : loraBKey m = loraBKey n ↔ m = n := ⟨eq_of_affixes, congrArg loraBKey⟩

section Export

variable {α : Type} [Field α]

/-! ## The factors of an adapter -/

/-- `A @ B.T` of a correction. -/
def Correction.product (c : Correction α) : List α := matmulT c.a.length c.rank c.b.length c.a.flatten c.b.flatten

theorem flat_div {width k : ℕ} (i : ℕ) (hk : k < width) : (i * width + k) / width = i := by
  rw [Nat.add_comm, Nat.add_mul_div_right _ _ (by omega), Nat.div_eq_of_lt hk, Nat.zero_add]

theorem cell_padColumns {rows rank width i k : ℕ} (flat : List α) (hi : i < rows) (hk : k < width) :
    cell (padColumns rows rank width flat) (i * width + k) = if k < rank then cell flat (i * rank + k) else 0 := by
  rw [padColumns, cell_tabulate _ (flat_lt hi hk), Nat.mul_add_mod_of_lt hk, flat_div i hk]

theorem cell_transposed {rows width k j : ℕ} (flat : List α) (hk : k < width) (hj : j < rows) :
    cell (transposed rows width flat) (k * rows + j) = cell flat (j * width + k) := by
  rw [transposed, cell_tabulate _ (flat_lt hk hj), Nat.mul_add_mod_of_lt hj, flat_div k hj]

/-- Columns of zeros add nothing to a product. -/
theorem sum_padded {rank width : ℕ} (h : rank ≤ width) (f : ℕ → α) :
    ((List.range width).map fun k => if k < rank then f k else 0).sum = ((List.range rank).map f).sum := by
  obtain ⟨d, rfl⟩ := Nat.exists_eq_add_of_le h
  rw [List.range_add, List.map_append, List.sum_append, List.map_map]
  have hfirst : (List.range rank).map (fun k => if k < rank then f k else 0) = (List.range rank).map f :=
    List.map_congr_left fun k hk => if_pos (List.mem_range.1 hk)
  have hlast : ((List.range d).map ((fun k => if k < rank then f k else 0) ∘ fun k => rank + k)).sum = 0 := by
    refine List.sum_eq_zero fun x hx => ?_
    obtain ⟨k, -, rfl⟩ := List.mem_map.1 hx
    exact if_neg (Nat.not_lt.2 (Nat.le_add_right rank k))
  rw [hfirst, hlast, add_zero]

/-- The factors are as wide as their rank, and the cast to float16 leaves them. -/
structure Correction.Fits (c : Correction α) (half : α → α) : Prop where
  rank : 0 < c.rank
  half_a : ∀ v ∈ c.a.flatten, half v = v
  half_b : ∀ v ∈ c.b.flatten, half v = v

/-- A list the cast leaves keeps its cells. -/
theorem half_cell {half : α → α} {flat : List α} (hzero : half 0 = 0) (h : ∀ v ∈ flat, half v = v) (i : ℕ) :
    half (cell flat i) = cell flat i := by
  by_cases hi : i < flat.length
  · exact h _ (cell_mem hi)
  · rw [cell_of_le (Nat.le_of_not_lt hi), hzero]

/-! ## The entries of an adapter -/

/-- A store of two writes for each key, at the first of the two. -/
theorem get_flatMap_first {μ κ γ ν : Type} [DecidableEq μ] [DecidableEq κ] {first second : μ → κ} {f g : γ → ν}
    (hinj : ∀ {m n}, first m = first n ↔ m = n) (hne : ∀ m n, first m ≠ second n) (ws : List (μ × γ)) (m : μ) :
    Journal.get (ws.flatMap fun w => [(first w.1, f w.2), (second w.1, g w.2)]) (first m) = (Journal.get ws m).map f := by
  induction ws with
  | nil => rfl
  | cons w ws ih =>
    rw [List.flatMap_cons, Journal.get_append, ih, Journal.get_cons, Journal.get_cons, Journal.get_cons, Journal.get_nil,
      if_neg (fun h => hne m w.1 h.symm), Option.none_or, Option.none_or]
    simp only [hinj]
    cases Journal.get ws m with
    | some c => rfl
    | none => split <;> rfl

/-- A store of two writes for each key, at the second of the two. -/
theorem get_flatMap_second {μ κ γ ν : Type} [DecidableEq μ] [DecidableEq κ] {first second : μ → κ} {f g : γ → ν}
    (hinj : ∀ {m n}, second m = second n ↔ m = n) (hne : ∀ m n, first m ≠ second n) (ws : List (μ × γ)) (m : μ) :
    Journal.get (ws.flatMap fun w => [(first w.1, f w.2), (second w.1, g w.2)]) (second m) = (Journal.get ws m).map g := by
  induction ws with
  | nil => rfl
  | cons w ws ih =>
    rw [List.flatMap_cons, Journal.get_append, ih, Journal.get_cons, Journal.get_cons, Journal.get_cons, Journal.get_nil,
      if_neg (hne w.1 m), Option.or_none, Option.none_or]
    simp only [hinj]
    cases Journal.get ws m with
    | some c => rfl
    | none => split <;> rfl

/-- Corrections under the modules of their tensors. -/
def byModule (corrections : List (String × Correction α)) : List (String × Correction α) :=
  corrections.map fun w => (modulePath w.1, w.2)

/-- The rank of an adapter. -/
def maxRank (corrections : List (String × Correction α)) : ℕ := (corrections.map fun c => c.2.rank).foldr max 0

/-- The entries of a correction. -/
def loraA (half : α → α) (width : ℕ) (c : Correction α) : Dense α :=
  ⟨[width, c.b.length], (transposed c.b.length width (padColumns c.b.length c.rank width c.b.flatten)).map half⟩

def loraB (half : α → α) (width : ℕ) (c : Correction α) : Dense α :=
  ⟨[c.a.length, width], (padColumns c.a.length c.rank width c.a.flatten).map half⟩

/-- The adapter's first factor of a module is the one its correction gives. -/
theorem get_loraA (half : α → α) (corrections : List (String × Correction α)) (module : String) :
    Journal.get (writePeftAdapter half corrections).tensors (loraAKey module) =
      (Journal.get (byModule corrections) module).map (loraA half (maxRank corrections)) := by
  rw [← get_flatMap_first loraAKey_inj loraAKey_ne_loraBKey (g := loraB half (maxRank corrections)), byModule, List.flatMap_map]
  rfl

/-- The adapter's second factor of a module is the one its correction gives. -/
theorem get_loraB (half : α → α) (corrections : List (String × Correction α)) (module : String) :
    Journal.get (writePeftAdapter half corrections).tensors (loraBKey module) =
      (Journal.get (byModule corrections) module).map (loraB half (maxRank corrections)) := by
  rw [← get_flatMap_second loraBKey_inj loraAKey_ne_loraBKey (f := loraA half (maxRank corrections)), byModule, List.flatMap_map]
  rfl

/-- A module without a correction has no delta. -/
theorem delta_of_none {half : α → α} {corrections : List (String × Correction α)} {name : String}
    (h : Journal.get (byModule corrections) (modulePath name) = none) : (writePeftAdapter half corrections).delta name = none := by
  rw [PeftAdapter.delta, get_loraB, h]
  rfl

/-- **What an adapter adds** to a tensor is the product of the last correction of its module. -/
theorem delta_of_some [CharZero α] {half : α → α} (hzero : half 0 = 0) {corrections : List (String × Correction α)} {name : String}
    {c : Correction α} (h : Journal.get (byModule corrections) (modulePath name) = some c) (hc : c.Fits half) :
    (writePeftAdapter half corrections).delta name = some ⟨[c.a.length, c.b.length], c.product⟩ := by
  have hle : c.rank ≤ maxRank corrections := by
    obtain ⟨w, hw, he⟩ := List.mem_map.1 (Journal.mem_of_get h)
    rw [← show w.2 = c from (Prod.mk.inj he).2]
    exact List.le_max_of_le (List.mem_map_of_mem hw) le_rfl
  have hscale : ((writePeftAdapter half corrections).loraAlpha : α) / (writePeftAdapter half corrections).r = 1 :=
    div_self (Nat.cast_ne_zero.2 (by have := hc.rank; change maxRank corrections ≠ 0; omega))
  rw [PeftAdapter.delta, get_loraA, get_loraB, h, Option.map_some, Option.map_some, loraA, loraB]
  simp only [hscale, mul_one]
  refine congrArg some (congrArg (Dense.mk _) (tabulate_congr fun i hi => ?_))
  have hcols : 0 < c.b.length := Nat.pos_of_mul_pos_left (Nat.zero_lt_of_lt hi)
  have hrow : i / c.b.length < c.a.length := Nat.div_lt_of_lt_mul (by rwa [Nat.mul_comm])
  have hcol : i % c.b.length < c.b.length := Nat.mod_lt _ hcols
  rw [← sum_padded hle]
  refine congrArg List.sum (List.map_congr_left fun k hk => ?_)
  have hk := List.mem_range.1 hk
  rw [cell_map_zero hzero, cell_map_zero hzero, cell_padColumns _ hrow hk, cell_transposed _ hk hcol, cell_padColumns _ hcol hk]
  split
  · rw [half_cell hzero hc.half_a, half_cell hzero hc.half_b]
  · rw [hzero, zero_mul]

/-! ## The tensors that are not packed -/

/-- What the loops over the passthrough file and the source add, by the names that are there. -/
def missing (cast : α → α) : List (SourceTensor (List α)) → List String → List (String × Dense α)
  | [], _ => []
  | t :: ts, names =>
    if t.name ∈ names then missing cast ts names else (t.name, ⟨t.shape, t.value.map cast⟩) :: missing cast ts (names ++ [t.name])

omit [Field α] in
/-- The missing tensors come after the weights. -/
theorem addMissing_eq (cast : α → α) (ts : List (SourceTensor (List α))) (weights : List (String × Dense α)) :
    addMissing cast ts weights = weights ++ missing cast ts (weights.map Prod.fst) := by
  induction ts generalizing weights with
  | nil => rw [addMissing, missing, List.append_nil]
  | cons t ts ih =>
    rw [addMissing, missing]
    split
    · exact ih weights
    · rw [ih, List.map_append, List.append_assoc]
      rfl

omit [Field α] in
/-- A missing tensor has a name the weights do not have. -/
theorem missing_not_mem (cast : α → α) {ts : List (SourceTensor (List α))} {names : List String} {w : String × Dense α}
    (h : w ∈ missing cast ts names) : w.1 ∉ names := by
  induction ts generalizing names with
  | nil => cases h
  | cons t ts ih =>
    rw [missing] at h
    split at h
    · exact ih h
    · next hnew =>
      rcases List.mem_cons.1 h with rfl | h
      · exact hnew
      · exact fun hw => ih h (List.mem_append_left _ hw)

omit [Field α] in
/-- A weight that is there is kept, and what is added depends on the names that are there only. -/
theorem get_addMissing (cast : α → α) (ts : List (SourceTensor (List α))) (weights : List (String × Dense α)) (name : String) :
    Journal.get (addMissing cast ts weights) name =
      (Journal.get weights name).or (Journal.get (missing cast ts (weights.map Prod.fst)) name) := by
  rw [addMissing_eq, Journal.get_append]
  cases hw : Journal.get weights name with
  | none => rw [Option.or_none, Option.none_or]
  | some v =>
    rw [Journal.get_eq_none.2, Option.none_or, Option.some_or]
    intro hmem
    obtain ⟨w, hadded, hname⟩ := List.mem_map.1 hmem
    have hthere : name ∈ weights.map Prod.fst := List.mem_map_of_mem (f := Prod.fst) (Journal.mem_of_get hw)
    exact missing_not_mem cast hadded (hname ▸ hthere)

/-! ## One packed tensor -/

/-- The packed tensors by their names. -/
def packedItems (tensors : List TensorMeta) : List (String × TensorMeta) := Journal.items (tensors.map fun tm => (tm.name, tm))

variable (num : Numerics α) (half : α → α) (store : Store α)

/-- The factors an export reads of a tensor. -/
def correctionOf (tm : TensorMeta) : Option (Correction α) :=
  tm.lowrank.bind fun lr => (readLowrank num store lr).toOption.map fun (a, b) => ⟨lr.rank, a, b⟩

/-- What the correction of a tensor adds: nothing where there is none. -/
def lowrankProduct (tm : TensorMeta) : List α :=
  match correctionOf num store tm with
  | none => List.replicate tm.shape.prod 0
  | some c => c.product

/-- A matrix that is stored whole and decodes, and whose correction, if it has one, is as a correction leaves it. -/
structure StoredMatrix (tm : TensorMeta) : Prop where
  full : tm.packedValues = tm.shape.prod
  packed_le : tm.packedValues ≤ tm.paddedValues
  decodes : ∃ decoded, decodeTensor num store { tm with lowrank := none } = .ok decoded
  matrix : ∃ rows cols, tm.shape = [rows, cols] ∧ ∀ lr, tm.lowrank = some lr →
    ∃ a b, SidecarsHold store lr rows cols a b ∧ (∀ v ∈ a, half v = v) ∧ ∀ v ∈ b, half v = v

variable {num half store} {tm : TensorMeta}

/-- The merged export decodes the entry as it is. -/
theorem decodeForExport_merged (tm : TensorMeta) :
    decodeForExport num store false tm = (decodeTensor num store tm).map fun decoded => (decoded, none) := by
  simp only [decodeForExport]

/-- Without a correction the base export decodes the entry as it is. -/
theorem decodeForExport_uncorrected (h : tm.lowrank = none) :
    decodeForExport num store true tm = (decodeTensor num store tm).map fun decoded => (decoded, none) := by
  simp only [decodeForExport, h]

/-- With a correction the base export decodes the entry without it and hands out the factors. -/
theorem decodeForExport_corrected {lr : LowrankMeta} (h : tm.lowrank = some lr) :
    decodeForExport num store true tm = (readLowrank num store lr).bind fun (a, b) =>
      (decodeTensor num store { tm with lowrank := none }).map fun decoded => (decoded, some ⟨lr.rank, a, b⟩) := by
  simp only [decodeForExport, h]

/-- Adding zeros changes nothing. -/
theorem zipWith_add_zeros {xs : List α} {n : ℕ} (h : xs.length = n) : List.zipWith (· + ·) xs (List.replicate n 0) = xs := by
  subst h
  induction xs with
  | nil => rfl
  | cons x xs ih => rw [List.length_cons, List.replicate_succ, List.zipWith_cons_cons, ih, add_zero]

/-- What is added can be told from the sum. -/
theorem zipWith_add_left_cancel {xs ys zs : List α} (hy : ys.length = xs.length) (hz : zs.length = xs.length)
    (h : List.zipWith (· + ·) xs ys = List.zipWith (· + ·) xs zs) : ys = zs := by
  induction xs generalizing ys zs with
  | nil => rw [List.eq_nil_of_length_eq_zero hy, List.eq_nil_of_length_eq_zero hz]
  | cons x xs ih =>
    obtain ⟨y, ys, rfl⟩ := List.exists_cons_of_length_eq_add_one hy
    obtain ⟨z, zs, rfl⟩ := List.exists_cons_of_length_eq_add_one hz
    rw [List.zipWith_cons_cons, List.zipWith_cons_cons, List.cons.injEq, add_right_inj] at h
    rw [h.1, ih (Nat.succ.inj hy) (Nat.succ.inj hz) h.2]

variable [LinearOrder α] [IsStrictOrderedRing α] [FloorRing α]

/-- The two ways such a matrix is stored. -/
theorem StoredMatrix.cases (h : StoredMatrix num half store tm) :
    ∃ decoded, decodeTensor num store { tm with lowrank := none } = .ok decoded ∧ decoded.length = tm.shape.prod ∧
      ((tm.lowrank = none ∧ correctionOf num store tm = none) ∨
        ∃ lr c, tm.lowrank = some lr ∧ readLowrank num store lr = .ok (c.a, c.b) ∧ c.rank = lr.rank ∧
          correctionOf num store tm = some c ∧ c.Fits half ∧ tm.shape = [c.a.length, c.b.length] ∧
          decodeTensor num store tm = .ok (List.zipWith (· + ·) decoded c.product)) := by
  obtain ⟨decoded, hdecoded⟩ := h.decodes
  have hlength : ∀ bare : TensorMeta, bare = { tm with lowrank := none } → decoded.length = bare.shape.prod := by
    intro bare he
    rw [← he] at hdecoded
    exact length_of_decodeTensor (by rw [he]; exact h.full) (by rw [he]; exact h.packed_le)
      (fun lr hlr => by rw [he] at hlr; cases hlr) hdecoded
  have hlength : decoded.length = tm.shape.prod := hlength { tm with lowrank := none } rfl
  refine ⟨decoded, hdecoded, hlength, ?_⟩
  cases hlowrank : tm.lowrank with
  | none => exact .inl ⟨rfl, by rw [correctionOf, hlowrank, Option.bind_none]⟩
  | some lr =>
    obtain ⟨rows, cols, hshape, hsidecars⟩ := h.matrix
    obtain ⟨a, b, hhold, ha, hb⟩ := hsidecars lr hlowrank
    have hread : readLowrank num store lr = .ok (rowsOf rows lr.rank a, rowsOf cols lr.rank b) := hhold.readLowrank_ok
    have hflat_a := flatten_rowsOf hhold.lengthA
    have hflat_b := flatten_rowsOf hhold.lengthB
    have hdims : rowsCols tm.shape = .ok (rows, cols) := by
      rw [hshape]
      exact congrArg Except.ok (Prod.ext rfl (List.prod_singleton))
    refine .inr ⟨lr, ⟨lr.rank, rowsOf rows lr.rank a, rowsOf cols lr.rank b⟩, rfl, hread, rfl, ?_, ?_, ?_, ?_⟩
    · rw [correctionOf, hlowrank, Option.bind_some, hread]
      rfl
    · exact ⟨hhold.rank, by rwa [hflat_a], by rwa [hflat_b]⟩
    · rw [hshape, length_rowsOf, length_rowsOf]
    · rw [hhold.decodeTensor_ok hlowrank hdims hdecoded (by rw [hlength, hshape]; simp), Correction.product]
      simp only [length_rowsOf, hflat_a, hflat_b]

/-- The values of a tensor without its correction. -/
def baseValues (num : Numerics α) (store : Store α) (tm : TensorMeta) : List α :=
  (decodeTensor num store { tm with lowrank := none }).toOption.getD []

/-- The weight of a tensor without its correction, cast. -/
def baseWeight (num : Numerics α) (cast : α → α) (store : Store α) (tm : TensorMeta) : Dense α :=
  ⟨tm.shape, (baseValues num store tm).map cast⟩

/-- The weight of a tensor with its correction merged, cast. -/
def mergedWeight (num : Numerics α) (cast : α → α) (store : Store α) (tm : TensorMeta) : Dense α :=
  ⟨tm.shape, (List.zipWith (· + ·) (baseValues num store tm) (lowrankProduct num store tm)).map cast⟩

/-- What both exports make of such a matrix. -/
theorem StoredMatrix.exportWeight_ok (h : StoredMatrix num half store tm) (cast : α → α) :
    (baseValues num store tm).length = tm.shape.prod ∧ (lowrankProduct num store tm).length = tm.shape.prod ∧
      exportWeight num cast store false tm = .ok (mergedWeight num cast store tm, none) ∧
      exportWeight num cast store true tm = .ok (baseWeight num cast store tm, correctionOf num store tm) := by
  obtain ⟨base, hbase, hlength, hcases⟩ := h.cases
  have hvalues : baseValues num store tm = base := by rw [baseValues, hbase]; rfl
  rw [mergedWeight, baseWeight, hvalues]
  obtain ⟨hlowrank, hnone⟩ | ⟨lr, c, hlowrank, hread, hrank, hc, -, hshape, hdecode⟩ := hcases
  · have hsame : { tm with lowrank := none } = tm := by rw [← hlowrank]
    rw [hsame] at hbase
    refine ⟨hlength, ?_, ?_, ?_⟩
    · rw [lowrankProduct, hnone, List.length_replicate]
    · rw [lowrankProduct, hnone, exportWeight, decodeForExport_merged, hbase]
      simp only [ok_map, ok_bind, hlength, if_true, zipWith_add_zeros]
    · rw [hnone, exportWeight, decodeForExport_uncorrected hlowrank, hbase]
      simp only [ok_map, ok_bind, hlength, if_true]
  · have hproduct : c.product.length = tm.shape.prod := by
      rw [Correction.product, matmulT, length_tabulate, hshape, List.prod_cons, List.prod_singleton]
    have hsum : (List.zipWith (· + ·) base c.product).length = tm.shape.prod := by
      rw [List.length_zipWith, hlength, hproduct, Nat.min_self]
    refine ⟨hlength, ?_, ?_, ?_⟩
    · rw [lowrankProduct, hc, hproduct]
    · rw [lowrankProduct, hc, exportWeight, decodeForExport_merged, hdecode]
      simp only [ok_map, ok_bind, hsum, if_true]
    · rw [hc, exportWeight, decodeForExport_corrected hlowrank]
      simp only [hread, ok_bind, hbase, ok_map, hlength, if_true]
      rw [← hrank]

/-! ## All packed tensors -/

/-- The last corrected tensor of a module: the one whose factors are in the adapter. -/
def moduleTensor (tensors : List TensorMeta) (module : String) : Option TensorMeta :=
  Journal.get (((packedItems tensors).filter fun w => w.2.lowrank.isSome).map fun w => (modulePath w.1, w.2)) module

/-- The corrections an export splits off. -/
def splitOff (num : Numerics α) (store : Store α) (items : List (String × TensorMeta)) : List (String × Correction α) :=
  items.filterMap fun w => (correctionOf num store w.2).map fun c => (w.1, c)

omit [Field α] [LinearOrder α] [IsStrictOrderedRing α] [FloorRing α] in
/-- The correction split off for a module is that of its last corrected tensor. -/
theorem get_byModule_splitOff {items : List (String × TensorMeta)}
    (h : ∀ w ∈ items, correctionOf num store w.2 = none ↔ w.2.lowrank = none) (module : String) :
    Journal.get (byModule (splitOff num store items)) module =
      (Journal.get ((items.filter fun w => w.2.lowrank.isSome).map fun w => (modulePath w.1, w.2)) module).bind
        (correctionOf num store) := by
  rw [← Journal.get_filterMap]
  · refine congrArg (Journal.get · module) ?_
    rw [byModule, splitOff, List.map_filterMap, List.filterMap_map, List.filterMap_filter]
    refine List.filterMap_congr fun w hw => ?_
    split
    · rw [Option.map_map]
      rfl
    · next hnone => rw [(h w hw).2 (Option.not_isSome_iff_eq_none.1 hnone), Option.map_none, Option.map_none]
  · intro w hw hnone
    obtain ⟨item, hitem, rfl⟩ := List.mem_map.1 hw
    obtain ⟨hmem, hsome⟩ := List.mem_filter.1 hitem
    rw [(h item hmem).1 hnone] at hsome
    cases hsome

/-- The tensors of an artifact are matrices stored whole. -/
def StoredMatrices (num : Numerics α) (half : α → α) (store : Store α) (tensors : List TensorMeta) : Prop :=
  ∀ tm ∈ tensors, StoredMatrix num half store tm

/-- A stored matrix has a correction to split off exactly when its entry names one. -/
theorem StoredMatrix.correctionOf_eq_none (h : StoredMatrix num half store tm) :
    correctionOf num store tm = none ↔ tm.lowrank = none := by
  obtain ⟨-, -, -, ⟨hlowrank, hnone⟩ | ⟨lr, c, hlowrank, -, -, hc, -⟩⟩ := h.cases
  · simp only [hlowrank, hnone]
  · simp only [hlowrank, hc, reduceCtorEq]

omit [Field α] [LinearOrder α] [IsStrictOrderedRing α] [FloorRing α] in
theorem mem_of_packedItems {tensors : List TensorMeta} {w : String × TensorMeta} (h : w ∈ packedItems tensors) : w.2 ∈ tensors := by
  obtain ⟨tm, htm, he⟩ := List.mem_map.1 (Journal.mem_of_get (Journal.mem_items.1 h))
  rwa [← show tm = w.2 from (Prod.mk.inj he).2]

/-- The adapter of the corrections that are split off. -/
def splitAdapter (num : Numerics α) (half : α → α) (store : Store α) (tensors : List TensorMeta) : Option (PeftAdapter α) :=
  if (splitOff num store (packedItems tensors)).isEmpty then none
  else some (writePeftAdapter half (splitOff num store (packedItems tensors)))

/-- What the adapter adds to a tensor is what the last corrected tensor of its module has. -/
theorem adapter_delta {tensors : List TensorMeta} (h : StoredMatrices num half store tensors) (hzero : half 0 = 0) (name : String) :
    (splitAdapter num half store tensors).bind (·.delta name) =
      (moduleTensor tensors (modulePath name)).map fun tm => ⟨tm.shape, lowrankProduct num store tm⟩ := by
  have hlookup : Journal.get (byModule (splitOff num store (packedItems tensors))) (modulePath name) =
      (moduleTensor tensors (modulePath name)).bind (correctionOf num store) :=
    get_byModule_splitOff (fun w hw => (h _ (mem_of_packedItems hw)).correctionOf_eq_none) _
  have hwritten : (splitAdapter num half store tensors).bind (·.delta name) =
      (writePeftAdapter half (splitOff num store (packedItems tensors))).delta name := by
    rw [splitAdapter]
    split
    · next hempty => rw [List.isEmpty_iff.1 hempty, delta_of_none rfl, Option.bind_none]
    · rfl
  rw [hwritten]
  cases hmodule : moduleTensor tensors (modulePath name) with
  | none =>
    rw [hmodule, Option.bind_none] at hlookup
    rw [delta_of_none hlookup, Option.map_none]
  | some tm =>
    rw [hmodule, Option.bind_some] at hlookup
    obtain ⟨w, hw, he⟩ := List.mem_map.1 (Journal.mem_of_get hmodule)
    obtain ⟨hmem, hsome⟩ := List.mem_filter.1 hw
    rw [show w.2 = tm from (Prod.mk.inj he).2] at hsome
    have hstored := h tm ((Prod.mk.inj he).2 ▸ mem_of_packedItems hmem)
    obtain ⟨-, -, -, ⟨hlowrank, -⟩ | ⟨lr, c, -, -, -, hc, hfits, hshape, -⟩⟩ := hstored.cases
    · rw [hlowrank] at hsome
      cases hsome
    · rw [hc] at hlookup
      rw [delta_of_some hzero hlookup hfits, Option.map_some, hshape, lowrankProduct, hc]

/-- A dense weight is the cast of the base values with what the adapter adds to them. -/
def AddsUp (cast : α → α) (adapter : Option (PeftAdapter α)) (name : String) (shape : List ℕ) (base : List α) (dense : Dense α) : Prop :=
  match adapter.bind (·.delta name) with
  | none => dense = ⟨shape, base.map cast⟩
  | some delta => delta.shape = shape ∧ dense = ⟨shape, (List.zipWith (· + ·) base delta.values).map cast⟩

/-- The exports of one artifact with the corrections merged and with an adapter: both are written, what is not packed is the same in
both, every base weight is the cast of what its tensor decodes to without its correction, and every merged weight is the cast of that
with what the adapter adds. -/
def ExportsAgree (num : Numerics α) (half cast : α → α) (store : Store α) (tensors : List TensorMeta)
    (passthrough source : Option (List (SourceTensor (List α)))) : Prop :=
  ∃ merged split, exportVllm num cast half store tensors passthrough source false = .ok merged ∧
    exportVllm num cast half store tensors passthrough source true = .ok split ∧ merged.adapter = none ∧
    (∀ name ∉ tensors.map TensorMeta.name, Journal.get merged.weights name = Journal.get split.weights name) ∧
    ∀ w ∈ packedItems tensors, ∃ base, decodeTensor num store { w.2 with lowrank := none } = .ok base ∧
      Journal.get split.weights w.1 = some ⟨w.2.shape, base.map cast⟩ ∧
      ∃ dense, Journal.get merged.weights w.1 = some dense ∧ AddsUp cast split.adapter w.1 w.2.shape base dense

omit [Field α] [LinearOrder α] [IsStrictOrderedRing α] [FloorRing α] in
/-- A tensor with a correction is not passed over in its module. -/
theorem moduleTensor_ne_none {tensors : List TensorMeta} {w : String × TensorMeta} (hw : w ∈ packedItems tensors)
    (hsome : w.2.lowrank.isSome) : moduleTensor tensors (modulePath w.1) ≠ none := by
  rw [moduleTensor, Ne, Journal.get_eq_none, not_not, List.map_map]
  exact List.mem_map_of_mem (f := Prod.fst ∘ fun w : String × TensorMeta => (modulePath w.1, w.2)) (List.mem_filter.2 ⟨hw, hsome⟩)

/-- Each packed tensor of the module of a corrected one has the shape and the correction of the last such tensor. -/
def SameCorrections (num : Numerics α) (store : Store α) (tensors : List TensorMeta) : Prop :=
  ∀ w ∈ packedItems tensors, ∀ tm, moduleTensor tensors (modulePath w.1) = some tm →
    tm.shape = w.2.shape ∧ lowrankProduct num store tm = lowrankProduct num store w.2

/-- A merged weight adds up where the tensor has the correction of its module. -/
theorem addsUp_of_same {tensors : List TensorMeta} (h : StoredMatrices num half store tensors) (hzero : half 0 = 0) (cast : α → α)
    {w : String × TensorMeta} (hw : w ∈ packedItems tensors) (hsame : ∀ tm, moduleTensor tensors (modulePath w.1) = some tm →
      tm.shape = w.2.shape ∧ lowrankProduct num store tm = lowrankProduct num store w.2) :
    AddsUp cast (splitAdapter num half store tensors) w.1 w.2.shape (baseValues num store w.2) (mergedWeight num cast store w.2) := by
  have hmem := mem_of_packedItems hw
  rw [AddsUp, adapter_delta h hzero w.1, mergedWeight]
  cases hmodule : moduleTensor tensors (modulePath w.1) with
  | none =>
    -- the tensor is not corrected, or its own factors were in the adapter
    have hnone : w.2.lowrank = none := by
      by_contra hsome
      exact moduleTensor_ne_none hw (Option.isSome_iff_ne_none.2 hsome) hmodule
    have hzeros : lowrankProduct num store w.2 = List.replicate w.2.shape.prod 0 := by
      rw [lowrankProduct, (h _ hmem).correctionOf_eq_none.2 hnone]
    rw [hzeros, zipWith_add_zeros ((h _ hmem).exportWeight_ok cast).1]
    rfl
  | some tm =>
    obtain ⟨hshape, hproduct⟩ := hsame tm hmodule
    exact ⟨hshape, by simp only [hproduct]⟩

/-- Where the cast keeps values apart, a merged weight that adds up is that of a tensor with the correction of its module. -/
theorem same_of_addsUp {tensors : List TensorMeta} (h : StoredMatrices num half store tensors) (hzero : half 0 = 0) {cast : α → α}
    (hcast : Function.Injective cast) {w : String × TensorMeta} (hw : w ∈ packedItems tensors)
    (hadds : AddsUp cast (splitAdapter num half store tensors) w.1 w.2.shape (baseValues num store w.2) (mergedWeight num cast store w.2))
    {tm : TensorMeta} (hmodule : moduleTensor tensors (modulePath w.1) = some tm) :
    tm.shape = w.2.shape ∧ lowrankProduct num store tm = lowrankProduct num store w.2 := by
  have htm : tm ∈ tensors := by
    obtain ⟨w', hw', he⟩ := List.mem_map.1 (Journal.mem_of_get hmodule)
    exact (Prod.mk.inj he).2 ▸ mem_of_packedItems (List.mem_filter.1 hw').1
  rw [AddsUp, adapter_delta h hzero w.1, hmodule] at hadds
  obtain ⟨hshape, hsum⟩ := hadds
  have hlength : ∀ t ∈ tensors, t.shape = w.2.shape → (lowrankProduct num store t).length = (baseValues num store w.2).length :=
    fun t ht he => by
      rw [((h t ht).exportWeight_ok cast).2.1, ((h _ (mem_of_packedItems hw)).exportWeight_ok cast).1, he]
  have hvalues := List.map_injective_iff.2 hcast (Dense.mk.inj hsum).2
  exact ⟨hshape, (zipWith_add_left_cancel (hlength _ (mem_of_packedItems hw) rfl) (hlength tm htm hshape) hvalues).symm⟩

/-! ## The two exports -/

/-- The weights of the packed tensors, with the tensors that are not packed. -/
def withMissing (cast : α → α) (tensors : List TensorMeta) (passthrough source : Option (List (SourceTensor (List α))))
    (weight : TensorMeta → Dense α) : List (String × Dense α) :=
  addMissing cast (source.getD []) (addMissing cast (passthrough.getD []) ((packedItems tensors).map fun w => (w.1, weight w.2)))

omit [Field α] [LinearOrder α] [IsStrictOrderedRing α] [FloorRing α] in
/-- Adding missing tensors leaves the packed ones as they were. -/
theorem get_withMissing (cast : α → α) {tensors : List TensorMeta} (passthrough source : Option (List (SourceTensor (List α))))
    (weight : TensorMeta → Dense α) {w : String × TensorMeta} (hw : w ∈ packedItems tensors) :
    Journal.get (withMissing cast tensors passthrough source weight) w.1 = some (weight w.2) := by
  rw [withMissing, get_addMissing, get_addMissing, Journal.get_map, packedItems, Journal.get_items, Journal.mem_items.1 hw,
    Option.map_some, Option.some_or, Option.some_or]

omit [Field α] [LinearOrder α] [IsStrictOrderedRing α] [FloorRing α] in
/-- What is not packed does not depend on the weights of what is. -/
theorem get_withMissing_of_not_mem (cast : α → α) {tensors : List TensorMeta} (passthrough source : Option (List (SourceTensor (List α))))
    (weight weight' : TensorMeta → Dense α) {name : String} (h : name ∉ tensors.map TensorMeta.name) :
    Journal.get (withMissing cast tensors passthrough source weight) name =
      Journal.get (withMissing cast tensors passthrough source weight') name := by
  have hnone (weight : TensorMeta → Dense α) : Journal.get ((packedItems tensors).map fun w => (w.1, weight w.2)) name = none := by
    rw [Journal.get_map, packedItems, Journal.get_items, Journal.get_eq_none.2, Option.map_none]
    rw [List.map_map]
    exact h
  have hnames (weight : TensorMeta → Dense α) : ((packedItems tensors).map fun w => (w.1, weight w.2)).map Prod.fst =
      (packedItems tensors).map Prod.fst := by
    rw [List.map_map]
    rfl
  simp only [withMissing, addMissing_eq, Journal.get_append, List.map_append, hnames, hnone]

/-- The export with the corrections merged. -/
theorem exportVllm_merged {tensors : List TensorMeta} (h : StoredMatrices num half store tensors) (cast : α → α)
    (passthrough source : Option (List (SourceTensor (List α)))) :
    exportVllm num cast half store tensors passthrough source false =
      .ok ⟨withMissing cast tensors passthrough source (mergedWeight num cast store), none⟩ := by
  rw [exportVllm, ← packedItems, mapM_ok (g := fun w => (w.1, (mergedWeight num cast store w.2, none))), ok_map, List.map_map]
  · rfl
  · intro w hw
    rw [((h _ (mem_of_packedItems hw)).exportWeight_ok cast).2.2.1, ok_map]

/-- The export with an adapter. -/
theorem exportVllm_split {tensors : List TensorMeta} (h : StoredMatrices num half store tensors) (cast : α → α)
    (passthrough source : Option (List (SourceTensor (List α)))) :
    exportVllm num cast half store tensors passthrough source true =
      .ok ⟨withMissing cast tensors passthrough source (baseWeight num cast store), splitAdapter num half store tensors⟩ := by
  rw [exportVllm, ← packedItems, mapM_ok (g := fun w => (w.1, (baseWeight num cast store w.2, correctionOf num store w.2))), ok_map,
    List.map_map, List.filterMap_map]
  · refine congrArg Except.ok (congrArg (VllmExport.mk _) ?_)
    change (if (true && !(splitOff num store (packedItems tensors)).isEmpty) = true then _ else _) = _
    cases hempty : (splitOff num store (packedItems tensors)).isEmpty with
    | true => simp only [splitAdapter, hempty]; rfl
    | false => simp only [splitAdapter, hempty]; rfl
  · intro w hw
    rw [((h _ (mem_of_packedItems hw)).exportWeight_ok cast).2.2.2, ok_map]

/-- **The exports agree**, whatever the weights are rounded to, when every packed tensor of the module of a corrected one has the
correction of the last such tensor; and only then where the rounding keeps values apart. -/
theorem exportsAgree_iff (num : Numerics α) (half cast : α → α) (store : Store α) (tensors : List TensorMeta)
    (passthrough source : Option (List (SourceTensor (List α)))) (h : StoredMatrices num half store tensors) (hzero : half 0 = 0) :
    (SameCorrections num store tensors → ExportsAgree num half cast store tensors passthrough source) ∧
      (Function.Injective cast → ExportsAgree num half cast store tensors passthrough source → SameCorrections num store tensors) := by
  have hdecodes {tm : TensorMeta} (htm : tm ∈ tensors) : decodeTensor num store { tm with lowrank := none } =
      .ok (baseValues num store tm) := by
    obtain ⟨base, hbase, -⟩ := (h tm htm).cases
    rw [baseValues, hbase]
    rfl
  constructor
  · intro hsame
    refine ⟨_, _, exportVllm_merged h cast passthrough source, exportVllm_split h cast passthrough source, rfl,
      fun name hname => get_withMissing_of_not_mem cast passthrough source _ _ hname, fun w hw => ?_⟩
    exact ⟨_, hdecodes (mem_of_packedItems hw), get_withMissing cast passthrough source _ hw, _,
      get_withMissing cast passthrough source _ hw, addsUp_of_same h hzero cast hw (hsame w hw)⟩
  · rintro hcast ⟨merged, split, hmerged, hsplit, -, -, hall⟩ w hw tm hmodule
    obtain rfl := Except.ok.inj ((exportVllm_merged h cast passthrough source).symm.trans hmerged)
    obtain rfl := Except.ok.inj ((exportVllm_split h cast passthrough source).symm.trans hsplit)
    obtain ⟨base, hbase, -, dense, hdense, hadds⟩ := hall w hw
    obtain rfl := Except.ok.inj ((hdecodes (mem_of_packedItems hw)).symm.trans hbase)
    obtain rfl := Option.some.inj ((get_withMissing cast passthrough source _ hw).symm.trans hdense)
    exact same_of_addsUp h hzero hcast hw hadds hmodule

end Export

/-! ## Two tensors, one of them corrected -/

/-- The files of two tensors of which every group is `[1, 2]`, and the factors of one of them. -/
def mixedStore : Store ℚ := fun path =>
  if path = "cb" then some (.floats .float16 [1, 2])
  else if path = "idx" then some (.stream .raw [0, 0])
  else if path = "a" then some (.floats .float16 [2, 0])
  else if path = "b" then some (.floats .float16 [1, 3])
  else none

def mixedEntry (name : String) (lowrank : Option LowrankMeta) : TensorMeta where
  name := name
  shape := [2, 2]
  packedValues := 4
  paddedValues := 4
  groupSize := 2
  stages := [{ codebook := "cb", codebookSize := 1, codebookDtype := some .float16, indexBits := 1, indices := "idx" }]
  codebook := "cb"
  codebookSize := 1
  indexBits := 1
  indices := "idx"
  lowrank := lowrank

/-- A rounding to whole numbers. -/
def wholeNumber (v : ℚ) : ℚ := ⌊v⌋

/-- The example stores both its matrices. -/
theorem storedMatrices_mixed : StoredMatrices rationalNumerics id mixedStore
    [mixedEntry "x.weight" (some ⟨1, some .float16, "a", "b"⟩), mixedEntry "y.weight" none] := by
  intro tm htm
  rcases List.mem_cons.1 htm with rfl | htm
  · refine ⟨rfl, le_refl _, ⟨[1, 2, 1, 2], by decide +kernel⟩, 2, 2, rfl, fun lr hlr => ?_⟩
    obtain rfl := Option.some.inj hlr
    exact ⟨[2, 0], [1, 3], ⟨rfl, by decide, rfl, rfl, rfl, rfl⟩, fun _ _ => rfl, fun _ _ => rfl⟩
  · obtain rfl := List.mem_singleton.1 htm
    exact ⟨rfl, le_refl _, ⟨[1, 2, 1, 2], by decide +kernel⟩, 2, 2, rfl, fun lr hlr => by cases hlr⟩

/-- The exports of a corrected tensor beside one that is not corrected agree, rounded to whole numbers. -/
theorem exportsAgree_iff_mixed :
    ExportsAgree rationalNumerics id wholeNumber mixedStore
      [mixedEntry "x.weight" (some ⟨1, some .float16, "a", "b"⟩), mixedEntry "y.weight" none] (some [⟨"n", [1], [7]⟩]) none := by
  refine (exportsAgree_iff rationalNumerics id wholeNumber mixedStore _ (some [⟨"n", [1], [7]⟩]) none storedMatrices_mixed rfl).1 ?_
  unfold SameCorrections
  decide +kernel

end Orka
