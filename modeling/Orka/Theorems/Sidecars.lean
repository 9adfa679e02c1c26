import Orka.Lemmas.StableSort
import Orka.Lemmas.Verify
import Orka.Sidecars

/-!
# Sidecars are read back

What the writers of the outlier and float sidecars leave is read back exactly, whatever the values: the format is chosen once when
values are rounded and once when they are written, and both choices agree.
-/

namespace Orka

open Flat Steps FloatBits Endian

namespace Bits

/-! ## The formats -/

/-- The vector does not fit into 16 bits: one of its values is larger than 65504, infinite or not a number. -/
def Overflows (values : List ℕ) : Prop := ∃ v ∈ values, halfMax < magnitude v

/-- The largest magnitude is past the half range exactly when some value is. -/
theorem halfMax_lt_maxAbs_iff (values : List ℕ) : halfMax < maxAbs values ↔ Overflows values := by
  unfold maxAbs Overflows
  induction values with
  | nil => simp
  | cons v values ih => simp [ih]

/-- Half precision is kept unless a value overflows it. -/
theorem compactFloatDtype_eq (values : List ℕ) [Decidable (Overflows values)] (dtype : FloatDtype) :
    compactFloatDtype values dtype = if dtype = .float16 ∧ ¬ Overflows values then .float16 else .float32 := by
  have hinf : (infinity ≤ maxAbs values ∨ halfMax < maxAbs values) ↔ Overflows values := by
    rw [← halfMax_lt_maxAbs_iff]
    exact or_iff_right_of_imp fun h => lt_of_lt_of_le (by decide) h
  unfold compactFloatDtype
  cases dtype with
  | float32 => simp
  | float16 =>
    simp only [ne_eq, not_true_eq_false, if_false, hinf, true_and]
    by_cases h0 : values.length = 0
    · obtain rfl := List.eq_nil_of_length_eq_zero h0
      simp [Overflows]
    · rw [if_neg h0]
      split <;> simp_all

/-- A value is read back from its bytes. -/
def Kept (dtype : FloatDtype) (v : ℕ) : Prop := floatOfBytes dtype (floatBytes dtype v) = v

theorem kept_float32 {v : ℕ} (h : v < 2 ^ 32) : Kept .float32 v := ofLE_toLE (by simpa using h)

/-- A value within the half range is kept once rounded. -/
theorem kept_float16 {v : ℕ} (h : v < 2 ^ 32) (hle : magnitude v ≤ halfMax) : Kept .float16 (ofHalf (toHalf v)) := by
  have hmod : toHalf v % 2 ^ 15 < 0x7C00 := by
    rw [toHalf_mod v hle]
    exact narrow_lt hle
  unfold Kept floatOfBytes floatBytes
  simp only
  rw [toHalf_ofHalf hmod, ofLE_toLE (by simpa using toHalf_lt h hle)]

/-- What the rounding leaves: 32-bit patterns, and 16-bit numbers if they all fit. -/
theorem fp16StorageRoundtrip_mem {values : List ℕ} (h : ∀ v ∈ values, v < 2 ^ 32) {v : ℕ} (hv : v ∈ fp16StorageRoundtrip values) :
    v < 2 ^ 32 ∧ (¬ Overflows (fp16StorageRoundtrip values) → Kept .float16 v) := by
  classical
  unfold fp16StorageRoundtrip at hv ⊢
  rw [compactFloatDtype_eq]
  rw [compactFloatDtype_eq] at hv
  by_cases ho : Overflows values
  · simp only [ho, not_true_eq_false, and_false, if_false, if_true] at hv ⊢
    exact ⟨h v hv, False.elim⟩
  · simp only [ho, not_false_eq_true, and_self, if_true, reduceCtorEq, if_false] at hv ⊢
    obtain ⟨u, hu, rfl⟩ := List.mem_map.1 hv
    have hle : magnitude u ≤ halfMax := not_lt.1 fun hlt => ho ⟨u, hu, hlt⟩
    have hmod : toHalf u % 2 ^ 15 < 0x7C00 := by
      rw [toHalf_mod u hle]
      exact narrow_lt hle
    exact ⟨ofHalf_lt (toHalf_lt (h u hu) hle) hmod, fun _ => kept_float16 (h u hu) hle⟩

/-- Patterns that the format chosen for all of them keeps. -/
def Storable (values : List ℕ) : Prop := ∀ v ∈ values, v < 2 ^ 32 ∧ (¬ Overflows values → Kept .float16 v)

theorem storable_roundtrip {values : List ℕ} (h : ∀ v ∈ values, v < 2 ^ 32) : Storable (fp16StorageRoundtrip values) :=
  fun _ hv => fp16StorageRoundtrip_mem h hv

/-- Storable lists append. -/
theorem Storable.append {xs ys : List ℕ} (hx : Storable xs) (hy : Storable ys) : Storable (xs ++ ys) := by
  have hleft : Overflows xs → Overflows (xs ++ ys) := fun ⟨u, hu, hlt⟩ => ⟨u, List.mem_append_left _ hu, hlt⟩
  have hright : Overflows ys → Overflows (xs ++ ys) := fun ⟨u, hu, hlt⟩ => ⟨u, List.mem_append_right _ hu, hlt⟩
  intro v hv
  rcases List.mem_append.1 hv with hv | hv
  · exact ⟨(hx v hv).1, fun ho => (hx v hv).2 (mt hleft ho)⟩
  · exact ⟨(hy v hv).1, fun ho => (hy v hv).2 (mt hright ho)⟩

/-- The format chosen at writing keeps them, in whatever order they are written. -/
theorem Storable.kept {values written : List ℕ} (h : Storable values) (hw : ∀ v, v ∈ written ↔ v ∈ values) (dtype : FloatDtype) :
    ∀ v ∈ written, Kept (compactFloatDtype written dtype) v := by
  classical
  intro v hv
  obtain ⟨hlt, hkept⟩ := h v ((hw v).1 hv)
  have hover : Overflows written ↔ Overflows values := exists_congr fun u => and_congr_left fun _ => hw u
  rw [compactFloatDtype_eq]
  split
  · next hc => exact hkept (mt hover.2 hc.2)
  · exact kept_float32 hlt

/-! ## Files -/

section Files

variable {compress : List ℕ → List ℕ} {decompress : List ℕ → Except PyErr (List ℕ)} {files : RawFiles}

/-- A blob reads back. -/
theorem readBlob_writeBlob (hzlib : ∀ raw, decompress (compress raw) = .ok raw) {path : String} {raw : List ℕ}
    (h : files path = some (writeBlob compress raw)) : readBlob (codec decompress) files path = .ok raw := by
  unfold readBlob readBytes
  rw [h]
  unfold writeBlob
  simp only
  split
  · exact hzlib raw
  · rfl

/-- An array of equally long entries is read back entry by entry. -/
theorem wholeBuffer_flatMap {β : Type} {size : ℕ} {value : List ℕ → β} {bytes : β → List ℕ} {xs : List β} (hsize : 0 < size)
    (hlen : ∀ x ∈ xs, (bytes x).length = size) (hvalue : ∀ x ∈ xs, value (bytes x) = x) :
    wholeBuffer size value (xs.flatMap bytes) = .ok xs := by
  have hrows : ∀ row ∈ xs.map bytes, row.length = size := by
    intro row hrow
    obtain ⟨x, hx, rfl⟩ := List.mem_map.1 hrow
    exact hlen x hx
  have htotal : (xs.flatMap bytes).length = xs.length * size := by
    rw [List.flatMap_def, length_flatten_of_width hrows, List.length_map]
  refine wholeBuffer_eq_ok.2 ⟨⟨xs.length, by rw [htotal, Nat.mul_comm]⟩, ?_⟩
  have hall := rowsOf_flatten hrows
  rw [List.length_map, ← List.flatMap_def] at hall
  rw [fromFile, htotal, Nat.mul_div_cancel _ hsize, hall, List.map_map]
  calc xs = xs.map id := (List.map_id xs).symm
    _ = xs.map (value ∘ bytes) := List.map_congr_left fun x hx => (hvalue x hx).symm

theorem length_floatBytes (dtype : FloatDtype) (v : ℕ) : (floatBytes dtype v).length = dtype.size := by
  cases dtype <;> simp [floatBytes, FloatDtype.size]

/-- A vector of values that its format keeps is read back. -/
theorem readFloatVector_of_kept (hzlib : ∀ raw, decompress (compress raw) = .ok raw) {path : String} {values : List ℕ}
    {dtype : FloatDtype} (hkept : ∀ v ∈ values, Kept (compactFloatDtype values dtype) v)
    (h : files path = some (writeFloatVector compress values dtype).1) :
    rawFloatVector (codec decompress) files path values.length (writeFloatVector compress values dtype).2 = .ok values := by
  have hbuffer : wholeBuffer (compactFloatDtype values dtype).size (floatOfBytes (compactFloatDtype values dtype))
      (values.flatMap (floatBytes (compactFloatDtype values dtype))) = .ok values :=
    wholeBuffer_flatMap (FloatDtype.size_pos _) (fun v _ => length_floatBytes _ v) hkept
  unfold rawFloatVector
  rw [readBlob_writeBlob hzlib h, ok_bind]
  simp only [writeFloatVector, codec, hbuffer, ok_bind]
  rw [if_neg (not_not.2 rfl)]

end Files

/-! ## Gaps between positions -/

theorem length_diff (prev : ℕ) (ps : List ℕ) : (diff prev ps).length = ps.length := by
  induction ps generalizing prev with
  | nil => rfl
  | cons p ps ih => rw [diff, List.length_cons, ih, List.length_cons]

/-- The gaps up to a position add up to it. -/
theorem sum_take_diff {prev : ℕ} {ps : List ℕ} (h : (prev :: ps).Pairwise (· ≤ ·)) {i : ℕ} (hi : i < ps.length) :
    prev + ((diff prev ps).take (i + 1)).sum = cell ps i := by
  induction ps generalizing prev i with
  | nil => exact absurd hi (Nat.not_lt_zero _)
  | cons p ps ih =>
    obtain ⟨hprev, hrest⟩ := List.pairwise_cons.1 h
    have hp := hprev p List.mem_cons_self
    rw [diff, List.take_succ_cons, List.sum_cons, ← Nat.add_assoc, Nat.add_sub_cancel' hp]
    cases i with
    | zero => simp
    | succ i =>
      rw [cell_cons_succ]
      exact ih hrest (Nat.lt_of_succ_lt_succ hi)

/-- The differences of ascending positions add up to them. -/
theorem cumsum_diff {ps : List ℕ} (h : ps.Pairwise (· ≤ ·)) (hlt : ∀ p ∈ ps, p < 2 ^ 64) : cumsum (diff 0 ps) = ps := by
  unfold cumsum
  rw [length_diff]
  conv_rhs => rw [← tabulate_cell ps]
  refine tabulate_congr fun i hi => ?_
  have hsum := sum_take_diff (List.pairwise_cons.2 ⟨fun p _ => Nat.zero_le p, h⟩) hi
  rw [Nat.zero_add] at hsum
  rw [hsum, Nat.mod_eq_of_lt (hlt _ (cell_mem hi))]

/-- A difference is no greater than a position. -/
theorem mem_diff_le {prev : ℕ} {ps : List ℕ} {d : ℕ} (h : d ∈ diff prev ps) : ∃ p ∈ ps, d ≤ p := by
  induction ps generalizing prev with
  | nil => cases h
  | cons p ps ih =>
    rcases List.mem_cons.1 h with rfl | h
    · exact ⟨p, List.mem_cons_self, Nat.sub_le _ _⟩
    · obtain ⟨q, hq, hle⟩ := ih h
      exact ⟨q, List.mem_cons_of_mem _ hq, hle⟩

/-- The format of the gaps holds every one of them. -/
theorem lt_of_smallestUnsignedDtype {xs : List ℕ} (hlt : ∀ x ∈ xs, x < 2 ^ 64) {x : ℕ} (h : x ∈ xs) :
    x < 256 ^ (smallestUnsignedDtype (xs.foldr max 0)).size := by
  have hle : x ≤ xs.foldr max 0 := List.le_max_of_le h le_rfl
  have hx := hlt x h
  unfold smallestUnsignedDtype
  split
  · simp only [UnsignedDtype.size]; omega
  split
  · simp only [UnsignedDtype.size]; omega
  split
  · simp only [UnsignedDtype.size]; omega
  · simp only [UnsignedDtype.size]; omega

/-! ## Outliers -/

/-- Inside the list gathering takes the cells. -/
theorem gather_eq {values order : List ℕ} (h : ∀ i ∈ order, i < values.length) :
    gather values order = .ok (order.map (cell values)) := by
  refine mapM_ok fun i hi => ?_
  rw [List.getElem?_eq_getElem (h i hi), cell_eq_getElem (h i hi)]

theorem mem_argsort {positions : List ℕ} {i : ℕ} : i ∈ argsort positions ↔ i < positions.length := by
  rw [argsort, List.mem_mergeSort, List.mem_range]

/-- The sorted positions and the values moved along are the sorted pairs. -/
theorem zip_argsort {positions values : List ℕ} (hlen : positions.length = values.length) :
    ((argsort positions).map (cell positions)).zip ((argsort positions).map (cell values)) =
      (positions.zip values).mergeSort fun v w => v.1 ≤ w.1 := by
  have hpairs : (List.range positions.length).map (fun i => (cell positions i, cell values i)) = positions.zip values := by
    rw [← List.zip_map', show (List.range positions.length).map (cell positions) = positions from tabulate_cell positions, hlen,
      show (List.range values.length).map (cell values) = values from tabulate_cell values]
  rw [List.zip_map', argsort, List.map_mergeSort (s := fun v w : ℕ × ℕ => decide (v.1 ≤ w.1)) (fun _ _ _ _ => rfl), hpairs]

theorem length_fp16StorageRoundtrip (values : List ℕ) : (fp16StorageRoundtrip values).length = values.length := by
  unfold fp16StorageRoundtrip
  split
  · rfl
  · exact List.length_map _

section RoundTrip

variable {compress : List ℕ → List ℕ} {decompress : List ℕ → Except PyErr (List ℕ)}

/-- Positions and values that have been written are read back as the sorted pairs. -/
theorem readOutliers_writeOutliers (hzlib : ∀ raw, decompress (compress raw) = .ok raw) {positions values : List ℕ}
    (hp : ∀ p ∈ positions, p < 2 ^ 64) (hv : Storable values) (hround : positions.length = values.length)
    (valueDtype : FloatDtype) :
    ∃ w, writeOutliers compress positions values valueDtype = .ok w ∧
      ∀ files idxPath valPath, files idxPath = some w.positions → files valPath = some w.values →
        ∃ ps vs, readOutliers decompress files idxPath valPath positions.length w.positionsDtype w.valuesDtype = .ok (ps, vs) ∧
          ps.length = vs.length ∧ StablySorted Prod.fst (positions.zip values) (ps.zip vs) := by
  have hindex : ∀ i ∈ argsort positions, i < positions.length := fun i hi => mem_argsort.1 hi
  generalize hps : (argsort positions).map (cell positions) = ps
  generalize hvs : (argsort positions).map (cell values) = vs
  have hcount : (argsort positions).length = positions.length := by rw [argsort, List.length_mergeSort, List.length_range]
  have hpslen : ps.length = positions.length := by rw [← hps, List.length_map, hcount]
  have hvslen : vs.length = positions.length := by rw [← hvs, List.length_map, hcount]
  -- what is written is a rearrangement of what there was
  have hposmem : ∀ p ∈ ps, p < 2 ^ 64 := by
    intro p hmem
    rw [← hps] at hmem
    obtain ⟨i, hi, rfl⟩ := List.mem_map.1 hmem
    exact hp _ (cell_mem (hindex i hi))
  have hvalmem : ∀ v, v ∈ vs ↔ v ∈ values := by
    intro v
    rw [← hvs, List.mem_map]
    constructor
    · rintro ⟨i, hi, rfl⟩
      exact cell_mem (hround ▸ hindex i hi)
    · intro hmem
      obtain ⟨i, hi, rfl⟩ := List.getElem_of_mem hmem
      exact ⟨i, mem_argsort.2 (hround ▸ hi), cell_eq_getElem hi⟩
  have hpairs : ps.zip vs = (positions.zip values).mergeSort fun v w => v.1 ≤ w.1 := by
    rw [← hps, ← hvs, zip_argsort hround]
  have hstable := stablySorted_mergeSort Prod.fst (positions.zip values)
  rw [← hpairs] at hstable
  have hsorted : ps.Pairwise (· ≤ ·) := by
    have hfst : (ps.zip vs).map Prod.fst = ps := List.map_fst_zip (by rw [hpslen, hvslen])
    rw [← hfst]
    exact List.pairwise_map.2 hstable.sorted
  have hdiff : ∀ d ∈ diff 0 ps, d < 2 ^ 64 := by
    intro d hd
    obtain ⟨p, hmem, hle⟩ := mem_diff_le hd
    exact lt_of_le_of_lt hle (hposmem p hmem)
  refine ⟨⟨writeBlob compress ((diff 0 ps).flatMap (toLE (smallestUnsignedDtype ((diff 0 ps).foldr max 0)).size)),
    (writeFloatVector compress vs valueDtype).1, smallestUnsignedDtype ((diff 0 ps).foldr max 0),
    (writeFloatVector compress vs valueDtype).2⟩, ?_, fun files idxPath valPath hidx hval => ⟨ps, vs, ?_, ?_, hstable⟩⟩
  · unfold writeOutliers
    simp only
    rw [gather_eq hindex, ok_bind, gather_eq fun i hi => hround ▸ hindex i hi, ok_map, hps, hvs]
  · have hgaps : wholeBuffer (smallestUnsignedDtype ((diff 0 ps).foldr max 0)).size (Nat.ofDigits 256)
        ((diff 0 ps).flatMap (toLE (smallestUnsignedDtype ((diff 0 ps).foldr max 0)).size)) = .ok (diff 0 ps) :=
      wholeBuffer_flatMap (UnsignedDtype.size_pos _) (fun d _ => length_toLE _ d) fun d hd =>
        ofLE_toLE (lt_of_smallestUnsignedDtype hdiff hd)
    have hvalues := readFloatVector_of_kept hzlib (hv.kept hvalmem valueDtype) hval
    rw [hvslen] at hvalues
    unfold readOutliers
    rw [readBlob_writeBlob hzlib hidx, ok_bind, hgaps, ok_bind, hvalues, ok_bind, if_neg, cumsum_diff hsorted hposmem]
    rw [length_diff, hpslen, hvslen]
    exact not_not.2 rfl
  · rw [hpslen, hvslen]

/-- **Sidecars are read back.** Outliers at positions below `2 ^ 64`, in any order and with any values, are read back after rounding
as the same pairs, sorted by position and those of one position in their order; and a vector that has been rounded is read back as
it is. -/
theorem sidecars_readBack (hzlib : ∀ raw, decompress (compress raw) = .ok raw) :
    (∀ (positions values : List ℕ) (valueDtype : FloatDtype), (∀ p ∈ positions, p < 2 ^ 64) → (∀ v ∈ values, v < 2 ^ 32) →
      positions.length = values.length →
        ∃ w, writeOutliers compress positions (fp16StorageRoundtrip values) valueDtype = .ok w ∧
          ∀ files idxPath valPath, files idxPath = some w.positions → files valPath = some w.values →
            ∃ ps vs, readOutliers decompress files idxPath valPath positions.length w.positionsDtype w.valuesDtype =
                .ok (ps, vs) ∧ ps.length = vs.length ∧
              StablySorted Prod.fst (positions.zip (fp16StorageRoundtrip values)) (ps.zip vs)) ∧
    ∀ (values : List ℕ) (dtype : FloatDtype), (∀ v ∈ values, v < 2 ^ 32) →
      ∀ files path, files path = some (writeFloatVector compress (fp16StorageRoundtrip values) dtype).1 →
        rawFloatVector (codec decompress) files path (fp16StorageRoundtrip values).length
          (writeFloatVector compress (fp16StorageRoundtrip values) dtype).2 = .ok (fp16StorageRoundtrip values) := by
  refine ⟨fun positions values valueDtype hp hv hlen =>
    readOutliers_writeOutliers hzlib hp (storable_roundtrip hv) (by rw [length_fp16StorageRoundtrip, hlen]) valueDtype, ?_⟩
  intro values dtype hv files path h
  exact readFloatVector_of_kept hzlib ((storable_roundtrip hv).kept (fun _ => Iff.rfl) dtype) h

end RoundTrip

/-! ## A small file -/

/-- The checksum at the end of a zlib stream. -/
def adler32 (raw : List ℕ) : List ℕ :=
  let (a, b) := raw.foldl (fun (a, b) byte => ((a + byte) % 65521, (b + a + byte) % 65521)) (1, 0)
  [b / 256, b % 256, a / 256, a % 256]

/-- What zlib makes of a short stream at level 0: one stored block. -/
def storedStream (raw : List ℕ) : List ℕ :=
  [120, 1, 1, raw.length % 256, raw.length / 256 % 256, 255 - raw.length % 256, 255 - raw.length / 256 % 256] ++ raw ++ adler32 raw

/-- The data of a stored block. -/
def storedData (stream : List ℕ) : Except PyErr (List ℕ) := .ok ((stream.drop 7).take (stream.length - 11))

/-- A stored stream gives its data. -/
theorem storedData_storedStream (raw : List ℕ) : storedData (storedStream raw) = .ok raw := by
  have hlen : (storedStream raw).length - 11 = raw.length := by simp [storedStream, adler32]
  unfold storedData
  rw [hlen]
  simp [storedStream]

/-- Three outliers at two positions, one of them not a number and one beyond 16 bits. -/
theorem sidecars_readBack_three :
    ∃ w, writeOutliers storedStream [70000, 3, 3] (fp16StorageRoundtrip [0x3F800000, 0x7FC00000, 0x47800000]) .float16 = .ok w ∧
      ∃ ps vs, readOutliers storedData (fun path => if path = "i" then some w.positions else if path = "v" then some w.values else none)
          "i" "v" 3 w.positionsDtype w.valuesDtype = .ok (ps, vs) ∧ ps.length = vs.length ∧
        StablySorted Prod.fst ([70000, 3, 3].zip (fp16StorageRoundtrip [0x3F800000, 0x7FC00000, 0x47800000])) (ps.zip vs) := by
  have h := sidecars_readBack storedData_storedStream
  obtain ⟨w, hw, hread⟩ := h.1 [70000, 3, 3] [0x3F800000, 0x7FC00000, 0x47800000] .float16 (by decide) (by decide) rfl
  exact ⟨w, hw, hread _ "i" "v" rfl rfl⟩

end Bits

end Orka
