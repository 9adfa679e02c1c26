import Mathlib
import Orka.Lib.Numerals

/-!
# Journals

A store as the list of the writes made to it, oldest first: the last write of a key is what the store holds there.
-/

namespace Journal

variable {κ ν ι : Type} [DecidableEq κ]

/-- What a store holds at a key. -/
def get : List (κ × ν) → κ → Option ν
  | [], _ => none
  | w :: ws, k => (get ws k).or (if w.1 = k then some w.2 else none)

/-- The keys of a store, each once. -/
def keys (ws : List (κ × ν)) : List κ := (ws.map Prod.fst).dedup

@[simp] theorem get_nil (k : κ) : get ([] : List (κ × ν)) k = none := rfl

theorem get_cons (w : κ × ν) (ws : List (κ × ν)) (k : κ) :
    get (w :: ws) k = (get ws k).or (if w.1 = k then some w.2 else none) := rfl

/-- Later writes count more. -/
theorem get_append (a b : List (κ × ν)) (k : κ) : get (a ++ b) k = (get b k).or (get a k) := by
  induction a with
  | nil => simp
  | cons w a ih => rw [List.cons_append, get_cons, get_cons, ih, Option.or_assoc]

/-- A key without a value is one no entry names. -/
theorem get_eq_none {ws : List (κ × ν)} {k : κ} : get ws k = none ↔ k ∉ ws.map Prod.fst := by
  induction ws with
  | nil => simp
  | cons w ws ih =>
    rw [get_cons, Option.or_eq_none_iff, ih]
    simp [eq_comm, and_comm]

theorem mem_keys {ws : List (κ × ν)} {k : κ} : k ∈ keys ws ↔ get ws k ≠ none := by
  rw [keys, List.mem_dedup, Ne, get_eq_none, not_not]

theorem nodup_keys (ws : List (κ × ν)) : (keys ws).Nodup := List.nodup_dedup _

/-- What a store holds was written. -/
theorem mem_of_get {ws : List (κ × ν)} {k : κ} {v : ν} (h : get ws k = some v) : (k, v) ∈ ws := by
  induction ws with
  | nil => cases h
  | cons w ws ih =>
    rw [get_cons, Option.or_eq_some_iff] at h
    rcases h with h | ⟨-, h⟩
    · exact List.mem_cons_of_mem _ (ih h)
    · split at h
      · next e =>
        obtain rfl := Option.some.inj h
        subst e
        exact List.mem_cons_self
      · cases h

/-- The last value under a key. -/
theorem get_map_eq_find (key : ι → κ) (g : ι → ν) (xs : List ι) (k : κ) :
    get (xs.map fun x => (key x, g x)) k = (xs.reverse.find? fun x => key x = k).map g := by
  induction xs with
  | nil => rfl
  | cons x xs ih =>
    rw [List.map_cons, get_cons, ih, List.reverse_cons, List.find?_append, Option.map_or]
    by_cases h : key x = k <;> simp [h]

/-- What is held after every value is mapped. -/
theorem get_map {ν' : Type} (g : ν → ν') (ws : List (κ × ν)) (k : κ) :
    get (ws.map fun w => (w.1, g w.2)) k = (get ws k).map g := by
  induction ws with
  | nil => rfl
  | cons w ws ih =>
    rw [List.map_cons, get_cons, get_cons, ih]
    cases get ws k with
    | some v => rfl
    | none => by_cases h : w.1 = k <;> simp [h]

/-- What is held after every value is mapped by a function that is defined on all of them. -/
theorem get_filterMap {ν' : Type} {f : ν → Option ν'} {ws : List (κ × ν)} (h : ∀ w ∈ ws, f w.2 ≠ none) (k : κ) :
    get (ws.filterMap fun w => (f w.2).map fun v => (w.1, v)) k = (get ws k).bind f := by
  induction ws with
  | nil => rfl
  | cons w ws ih =>
    obtain ⟨hw, hws⟩ := List.forall_mem_cons.1 h
    obtain ⟨v, hv⟩ := Option.ne_none_iff_exists'.1 hw
    rw [List.filterMap_cons_some (by rw [hv, Option.map_some]), get_cons, get_cons, ih hws]
    cases hlater : get ws k with
    | none =>
      rw [Option.bind_none, Option.none_or, Option.none_or]
      split
      · exact hv.symm
      · rfl
    | some u =>
      obtain ⟨v', hv'⟩ := Option.ne_none_iff_exists'.1 (hws _ (mem_of_get hlater))
      rw [Option.bind_some, Option.some_or, Option.bind_some, hv', Option.some_or]

/-- Only the writes of a key decide what is there. -/
theorem get_filter (ws : List (κ × ν)) (k : κ) : get (ws.filter fun w => w.1 = k) k = get ws k := by
  induction ws with
  | nil => rfl
  | cons w ws ih =>
    by_cases h : w.1 = k
    · rw [List.filter_cons_of_pos (by simpa using h), get_cons, get_cons, ih]
    · rw [List.filter_cons_of_neg (by simpa using h), get_cons, ih, if_neg h, Option.or_none]

/-- Two journals with the same writes of a key, in one order, agree there. -/
theorem get_congr {a b : List (κ × ν)} {k : κ} (h : (a.filter fun w => w.1 = k) = b.filter fun w => w.1 = k) :
    get a k = get b k := by
  rw [← get_filter a, h, get_filter]

/-- A key whose writes are all the same. -/
theorem get_of_constant {ws : List (κ × ν)} {k : κ} {v : ν} (hk : k ∈ ws.map Prod.fst)
    (h : ∀ w ∈ ws, w.1 = k → w.2 = v) : get ws k = some v := by
  obtain ⟨u, hu⟩ := Option.ne_none_iff_exists'.1 (mt get_eq_none.1 (not_not.2 hk))
  rw [hu, ← show u = v from h _ (mem_of_get hu) rfl]

/-! ## The keys in the order of their first writes -/

/-- The keys of a store as a dictionary lists them. -/
def firstKeys : List (κ × ν) → List κ
  | [] => []
  | w :: ws => w.1 :: (firstKeys ws).filter (· ≠ w.1)

/-- The keys with what the store holds at them. -/
def items (ws : List (κ × ν)) : List (κ × ν) := (firstKeys ws).filterMap fun k => (get ws k).map fun v => (k, v)

/-- The keys in order of first entry are those named. -/
theorem mem_firstKeys {ws : List (κ × ν)} {k : κ} : k ∈ firstKeys ws ↔ k ∈ ws.map Prod.fst := by
  induction ws with
  | nil => rfl
  | cons w ws ih =>
    rw [firstKeys, List.mem_cons, List.mem_filter, ih, List.map_cons, List.mem_cons, decide_eq_true_eq]
    by_cases h : k = w.1 <;> simp [h]

/-- The items are the keys with their values. -/
theorem mem_items {ws : List (κ × ν)} {w : κ × ν} : w ∈ items ws ↔ get ws w.1 = some w.2 := by
  rw [items, List.mem_filterMap]
  constructor
  · rintro ⟨k, -, h⟩
    obtain ⟨v, hv, rfl⟩ := Option.map_eq_some_iff.1 h
    exact hv
  · intro h
    exact ⟨w.1, mem_firstKeys.2 (List.mem_map_of_mem (mem_of_get h)), by rw [h, Option.map_some]⟩

/-- The items stand in order of first entry. -/
theorem map_fst_items (ws : List (κ × ν)) : (items ws).map Prod.fst = firstKeys ws := by
  rw [items, List.map_filterMap, List.filterMap_congr (g := some), List.filterMap_some]
  intro k hk
  obtain ⟨v, hv⟩ := Option.ne_none_iff_exists'.1 (mt get_eq_none.1 (not_not.2 (mem_firstKeys.1 hk)))
  rw [hv, Option.map_some, Option.map_some]

/-- The items hold what the store holds. -/
theorem get_items (ws : List (κ × ν)) (k : κ) : get (items ws) k = get ws k := by
  cases h : get ws k with
  | none =>
    rw [get_eq_none, map_fst_items, mem_firstKeys]
    exact get_eq_none.1 h
  | some v =>
    have hmem : (k, v) ∈ items ws := mem_items.2 h
    refine get_of_constant (List.mem_map_of_mem (f := Prod.fst) hmem) fun w hw hk => ?_
    have hget := mem_items.1 hw
    rw [hk, h] at hget
    exact (Option.some.inj hget).symm

/-! ## Several writers -/

/-- Where one writer alone touches what is picked out, the rest of the writers can be left out. -/
theorem filter_flatMap_own {f : ι → List ν} {q : ν → Bool} {xs : List ι} {x : ι} (hx : x ∈ xs) (hn : xs.Nodup)
    (h : ∀ y ∈ xs, y ≠ x → ∀ w ∈ f y, q w = false) : (xs.flatMap f).filter q = (f x).filter q := by
  have other : ∀ ys : List ι, (∀ y ∈ ys, y ∈ xs ∧ y ≠ x) → (ys.flatMap f).filter q = [] := by
    intro ys hys
    rw [List.filter_eq_nil_iff]
    intro w hw
    obtain ⟨y, hy, hw⟩ := List.mem_flatMap.1 hw
    rw [h y (hys y hy).1 (hys y hy).2 w hw]
    exact Bool.false_ne_true
  obtain ⟨a, b, rfl⟩ := List.append_of_mem hx
  rw [List.nodup_append, List.nodup_cons] at hn
  obtain ⟨-, ⟨hxb, -⟩, hab⟩ := hn
  rw [List.flatMap_append, List.flatMap_cons, List.filter_append, List.filter_append,
    other a fun y hy => ⟨by simp [hy], fun e => hab x (e ▸ hy) x (by simp) rfl⟩,
    other b fun y hy => ⟨by simp [hy], fun e => hxb (e ▸ hy)⟩, List.nil_append, List.append_nil]

/-- Decimal keys are distinct. -/
theorem toString_injective : Function.Injective (toString : ℕ → String) := by
  intro i j h
  have h : Nat.toDigits 10 i = Nat.toDigits 10 j := String.ofList_injective h
  calc i = Nat.ofDigitChars 10 (Nat.toDigits 10 i) 0 := Nat.ofDigitChars_ten_toDigits.symm
    _ = j := by rw [h, Nat.ofDigitChars_ten_toDigits]

end Journal
