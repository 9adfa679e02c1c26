import Orka.Lib.Json

/-!
# Reading back printed JSON

What `dumps` prints `loads` reads, for values without surrogates in their strings, without fractions, and with each key of an object
once.
-/

namespace Json

/-! ## Strings -/

/-- A character that is no half of another one. -/
def IsScalar (c : ℕ) : Prop := c < 55296 ∨ (57344 ≤ c ∧ c < 1114112)

instance (c : ℕ) : Decidable (IsScalar c) := inferInstanceAs (Decidable (_ ∨ _))

/-- The characters of a string are scalar values. -/
theorem isScalar_text {s : String} : ∀ c ∈ text s, IsScalar c := by
  intro c hc
  obtain ⟨d, -, rfl⟩ := List.mem_map.1 hc
  rcases d.valid with hd | ⟨hlow, hhigh⟩
  · exact .inl hd
  · exact .inr ⟨hlow, hhigh⟩

/-- What the scanner makes of an escaped character. -/
def unitsOf (c : ℕ) : List Unit16 :=
  match escapeLetter c with
  | some _ => [(c, true)]
  | none =>
    if 32 ≤ c ∧ c ≤ 126 then [(c, false)]
    else if c < 65536 then [(c, true)]
    else [(55296 + (c - 65536) / 1024 % 1024, true), (56320 + (c - 65536) % 1024, true)]

theorem hexValue_hexDigit {d : ℕ} (h : d < 16) : hexValue (hexDigit d) = some d := by
  interval_cases d <;> rfl

/-- A letter escape reads as the character it stands for. -/
theorem scanUnits_letter {c e : ℕ} (h : escapeLetter c = some e) (t : Text) :
    scanUnits (backslash :: e :: t) = (scanUnits t).map fun r => ((c, true) :: r.1, r.2) := by
  have hback : e ≠ 117 ∧ unescapeLetter e = some c := by
    unfold escapeLetter at h
    split_ifs at h <;> (subst_vars; obtain rfl := Option.some.inj h; exact ⟨by decide, rfl⟩)
  rw [backslash, scanUnits.eq_def]
  simp only [hback.1, hback.2, if_false, if_true, show ¬ (92 = 34) by decide]

/-- A `\u` escape reads as its code unit. -/
theorem scanUnits_unicodeEscape {u : ℕ} (h : u < 65536) (t : Text) :
    scanUnits (unicodeEscape u ++ t) = (scanUnits t).map fun r => ((u, true) :: r.1, r.2) := by
  rw [unicodeEscape, backslash]
  simp only [List.cons_append, List.nil_append]
  rw [scanUnits.eq_def]
  simp only [if_true, if_false, show ¬ (92 = 34) by decide, hexValue_hexDigit (Nat.mod_lt _ (by decide : 0 < 16))]
  rw [show u / 4096 % 16 * 4096 + u / 256 % 16 * 256 + u / 16 % 16 * 16 + u % 16 = u by omega]

/-- An escaped character reads as its code units. -/
theorem scanUnits_escape {c : ℕ} (h : c < 1114112) (t : Text) :
    scanUnits (escape c ++ t) = (scanUnits t).map fun r => (unitsOf c ++ r.1, r.2) := by
  unfold escape unitsOf
  cases hletter : escapeLetter c with
  | some e => exact scanUnits_letter hletter t
  | none =>
    simp only
    split
    · next hprint =>
      have hc : c ≠ 34 ∧ c ≠ 92 := by
        constructor <;> (rintro rfl; exact absurd hletter (by decide))
      rw [List.singleton_append, scanUnits.eq_def]
      simp only [if_neg hc.1, if_neg hc.2, if_neg (show ¬ c < 32 by omega)]
      rfl
    · split
      · next hsmall => exact scanUnits_unicodeEscape hsmall t
      · rw [List.append_assoc, scanUnits_unicodeEscape (by omega), scanUnits_unicodeEscape (by omega), Option.map_map]
        rfl

/-- An escaped text reads as its code units, up to the closing quote. -/
theorem scanUnits_escapeText {s : Text} (h : ∀ c ∈ s, c < 1114112) (t : Text) :
    scanUnits (escapeText s ++ 34 :: t) = some (s.flatMap unitsOf, t) := by
  induction s with
  | nil =>
    rw [escapeText, List.flatMap_nil, List.nil_append, scanUnits.eq_def]
    simp
  | cons c s ih =>
    obtain ⟨hc, hs⟩ := List.forall_mem_cons.1 h
    rw [escapeText, List.flatMap_cons, List.append_assoc, scanUnits_escape hc, ← escapeText, ih hs, List.flatMap_cons]
    rfl

theorem joinHalves_cons {u : Unit16} (h : ¬ isHigh u) (us : List Unit16) : joinHalves (u :: us) = u.1 :: joinHalves us := by
  cases us with
  | nil => rfl
  | cons v us => rw [joinHalves, if_neg fun hb => h hb.1]

/-- The units of a scalar join to the scalar. -/
theorem joinHalves_unitsOf {c : ℕ} (h : IsScalar c) (us : List Unit16) : joinHalves (unitsOf c ++ us) = c :: joinHalves us := by
  have hone : ∀ b, joinHalves ((c, b) :: us) = c :: joinHalves us := by
    intro b
    refine joinHalves_cons (fun hh => ?_) us
    have := hh.2
    simp only at this
    rcases h with h | h <;> omega
  unfold unitsOf
  split
  · exact hone true
  · split
    · exact hone false
    · split
      · exact hone true
      · have hc : c < 1114112 := by rcases h with h | h <;> omega
        have hdiv : (c - 65536) / 1024 < 1024 := by omega
        have hjoin : 65536 + (55296 + (c - 65536) / 1024 % 1024 - 55296) * 1024 + (56320 + (c - 65536) % 1024 - 56320) = c := by omega
        rw [List.cons_append, List.cons_append, List.nil_append, joinHalves, if_pos, hjoin]
        have hhigh : 55296 + (c - 65536) / 1024 % 1024 < 56320 := by omega
        have hlow : 56320 + (c - 65536) % 1024 < 57344 := by omega
        exact ⟨⟨rfl, Nat.le_add_right _ _, hhigh⟩, rfl, Nat.le_add_right _ _, hlow⟩

/-- The units of a text join to the text. -/
theorem joinHalves_flatMap {s : Text} (h : ∀ c ∈ s, IsScalar c) : joinHalves (s.flatMap unitsOf) = s := by
  induction s with
  | nil => rfl
  | cons c s ih =>
    obtain ⟨hc, hs⟩ := List.forall_mem_cons.1 h
    rw [List.flatMap_cons, joinHalves_unitsOf hc, ih hs]

/-- An escaped string is read back up to its closing quote. -/
theorem scanString_escapeText {s : Text} (h : ∀ c ∈ s, IsScalar c) (t : Text) :
    scanString (escapeText s ++ 34 :: t) = some (s, t) := by
  have hbound : ∀ c ∈ s, c < 1114112 := fun c hc => by rcases h c hc with h | h <;> omega
  rw [scanString, scanUnits_escapeText hbound, Option.map_some, joinHalves_flatMap h]

/-! ## Numbers -/

theorem digitsOf_of_lt {n : ℕ} (h : n < 10) : digitsOf n = [48 + n] := by
  interval_cases n <;> rfl

/-- A number from ten on ends in its last digit. -/
theorem digitsOf_of_le {n : ℕ} (h : 10 ≤ n) : digitsOf n = digitsOf (n / 10) ++ [48 + n % 10] := by
  have hlast := digitsOf_of_lt (Nat.mod_lt n (by decide : 0 < 10))
  rw [digitsOf, Nat.toDigits_of_lt_base (Nat.mod_lt n (by decide))] at hlast
  rw [digitsOf, Nat.toDigits_of_base_le (by decide) h, List.map_append, hlast, digitsOf]

/-- The digits of a number are digits. -/
theorem isDigit_of_mem_digitsOf {n d : ℕ} (hd : d ∈ digitsOf n) : isDigit d = true := by
  have hdigit : ∀ k < 10, isDigit (48 + k) = true := by decide
  induction n using Nat.strong_induction_on with
  | _ n ih =>
    rcases lt_or_ge n 10 with h | h
    · rw [digitsOf_of_lt h, List.mem_singleton] at hd
      exact hd ▸ hdigit n h
    · rw [digitsOf_of_le h, List.mem_append, List.mem_singleton] at hd
      rcases hd with hd | rfl
      · exact ih (n / 10) (Nat.div_lt_self (by omega) (by decide)) hd
      · exact hdigit _ (Nat.mod_lt n (by decide))

/-- Decimal digits write their number. -/
@[simp] theorem natOfDigits_digitsOf (n : ℕ) : natOfDigits (digitsOf n) = n := by
  induction n using Nat.strong_induction_on with
  | _ n ih =>
    rcases lt_or_ge n 10 with h | h
    · rw [digitsOf_of_lt h, natOfDigits, List.foldl_cons, List.foldl_nil]
      omega
    · have hdiv := ih (n / 10) (Nat.div_lt_self (by omega) (by decide))
      rw [natOfDigits] at hdiv
      rw [digitsOf_of_le h, natOfDigits, List.foldl_append, hdiv, List.foldl_cons, List.foldl_nil]
      omega

/-- The first digit is a zero only of the number zero. -/
theorem digitsOf_head (n : ℕ) : ∃ d ds, digitsOf n = d :: ds ∧ (d = 48 → n = 0) := by
  induction n using Nat.strong_induction_on with
  | _ n ih =>
    rcases lt_or_ge n 10 with h | h
    · exact ⟨48 + n, [], digitsOf_of_lt h, fun e => by omega⟩
    · obtain ⟨d, ds, hd, hzero⟩ := ih (n / 10) (Nat.div_lt_self (by omega) (by decide))
      exact ⟨d, ds ++ [48 + n % 10], by rw [digitsOf_of_le h, hd, List.cons_append], fun e => by have := hzero e; omega⟩

/-- No number goes on here. -/
def Stops (t : Text) : Prop := ∀ c ∈ t.head?, isDigit c = false ∧ c ≠ 46 ∧ c ≠ 101 ∧ c ≠ 69

/-- The digits of a number are scanned whole where no digit follows. -/
theorem scanDigits_digitsOf (n : ℕ) {t : Text} (h : Stops t) : scanDigits (digitsOf n ++ t) = some (digitsOf n, t) := by
  have hend : t.takeWhile isDigit = [] ∧ t.dropWhile isDigit = t := by
    cases t with
    | nil => exact ⟨rfl, rfl⟩
    | cons c t =>
      have hc := (h c rfl).1
      exact ⟨List.takeWhile_cons_of_neg (by simp [hc]), List.dropWhile_cons_of_neg (by simp [hc])⟩
  obtain ⟨d, ds, hd, hzero⟩ := digitsOf_head n
  have hall : ∀ c ∈ d :: ds, isDigit c = true := fun c hc => isDigit_of_mem_digitsOf (hd ▸ hc)
  rw [hd, List.cons_append, scanDigits]
  split
  · next hd48 =>
    obtain rfl := hzero hd48
    rw [digitsOf_of_lt (by decide)] at hd
    obtain ⟨rfl, rfl⟩ := List.cons.inj hd
    rfl
  · rw [if_pos (hall d List.mem_cons_self), ← List.cons_append, List.takeWhile_append_of_pos hall, List.dropWhile_append_of_pos hall,
      hend.1, hend.2, List.append_nil]

/-- Where a number stops there is no fraction. -/
theorem scanFraction_of_stops {t : Text} (h : Stops t) : scanFraction t = ([], t) := by
  unfold scanFraction
  split
  · exact absurd rfl (h 46 rfl).2.1
  · rfl

/-- Where a number stops there is no exponent. -/
theorem scanExponent_of_stops {t : Text} (h : Stops t) : scanExponent t = ([], t) := by
  unfold scanExponent
  split
  · next e rest =>
    have he := (h e rfl).2.2
    rw [if_neg (by simp [he])]
  · rfl

/-- A number is read back where none goes on. -/
theorem scanNumber_intText (n : ℤ) {t : Text} (h : Stops t) : scanNumber (intText n ++ t) = some (.int n, t) := by
  unfold intText
  split
  · next hneg =>
    rw [List.cons_append, scanNumber, scanDigits_digitsOf _ h, Option.map_some]
    simp only [scanFraction_of_stops h, scanExponent_of_stops h, List.append_nil, if_true, natOfDigits_digitsOf]
    rw [show -(n.natAbs : ℤ) = n by omega]
  · next hpos =>
    obtain ⟨d, ds, hd, -⟩ := digitsOf_head n.natAbs
    have hd45 : d ≠ 45 := by
      rintro rfl
      exact absurd (isDigit_of_mem_digitsOf (n := n.natAbs) (d := 45) (hd ▸ List.mem_cons_self)) (by decide)
    have hplain : ∀ rest, d :: (ds ++ t) = 45 :: rest → False := fun rest e => hd45 (List.cons.inj e).1
    have hdigits := scanDigits_digitsOf n.natAbs h
    have hvalue := natOfDigits_digitsOf n.natAbs
    rw [hd, List.cons_append] at hdigits ⊢
    rw [hd] at hvalue
    rw [scanNumber]
    · simp only [hdigits, Option.map_some, scanFraction_of_stops h, scanExponent_of_stops h, List.append_nil, if_true, hvalue]
      rw [if_neg (by decide), show (n.natAbs : ℤ) = n by omega]
    · exact hplain

/-! ## Values -/

mutual

/-- A value that is printed and read back as it is. -/
def Plain : Value → Prop
  | .null | .bool _ | .int _ => True
  | .float _ => False
  | .str s => ∀ c ∈ s, IsScalar c
  | .arr items => PlainItems items
  | .obj items => (items.map Prod.fst).Nodup ∧ PlainMembers items

def PlainItems : List Value → Prop
  | [] => True
  | v :: vs => Plain v ∧ PlainItems vs

def PlainMembers : List (Text × Value) → Prop
  | [] => True
  | (key, v) :: vs => (∀ c ∈ key, IsScalar c) ∧ Plain v ∧ PlainMembers vs

end

/-- A list is plain exactly when its values are. -/
theorem plainItems_iff {items : List Value} : PlainItems items ↔ ∀ v ∈ items, Plain v := by
  induction items with
  | nil => simp [PlainItems]
  | cons v items ih => rw [PlainItems, ih, List.forall_mem_cons]

/-- An object is plain exactly when its keys are scalar and its values plain. -/
theorem plainMembers_iff {items : List (Text × Value)} : PlainMembers items ↔ ∀ w ∈ items, (∀ c ∈ w.1, IsScalar c) ∧ Plain w.2 := by
  induction items with
  | nil => simp [PlainMembers]
  | cons w items ih => rw [PlainMembers, ih, List.forall_mem_cons, and_assoc]

/-- A dictionary of distinct keys has its pairs in their order. -/
theorem dictOf_of_nodup {pairs : List (Text × Value)} (h : (pairs.map Prod.fst).Nodup) : dictOf pairs = pairs := by
  have hfold : ∀ d : List (Text × Value), ((d ++ pairs).map Prod.fst).Nodup →
      pairs.foldl (fun d w => setItem d w.1 w.2) d = d ++ pairs := by
    clear h
    induction pairs with
    | nil => exact fun d _ => (List.append_nil d).symm
    | cons w pairs ih =>
      intro d hd
      have hnew : w.1 ∉ d.map Prod.fst := by
        rw [List.map_append] at hd
        exact fun hw => (List.nodup_append.1 hd).2.2 _ hw _ List.mem_cons_self rfl
      rw [List.foldl_cons, setItem, if_neg hnew, ih _ (by simpa using hd)]
      simp
  rw [dictOf, hfold [] h, List.nil_append]

/-! ## Blanks -/

theorem skip_cons {c : ℕ} (h : isBlank c = false) (t : Text) : skip (c :: t) = c :: t :=
  List.dropWhile_cons_of_neg (by simp [h])

theorem skip_append {b : Text} (h : ∀ c ∈ b, isBlank c = true) (t : Text) : skip (b ++ t) = skip t :=
  List.dropWhile_append_of_pos h

/-- A digit is neither a blank nor a closing bracket. -/
theorem not_isBlank_of_isDigit {d : ℕ} (h : isDigit d = true) : isBlank d = false ∧ d ≠ 93 := by
  simp only [isDigit, Bool.and_eq_true, decide_eq_true_eq] at h
  simp only [isBlank, Bool.or_eq_false_iff, decide_eq_false_iff_not]
  omega

/-- The first character of an integer. -/
theorem intText_head (n : ℤ) : ∃ c t, intText n = c :: t ∧ (c = 45 ∧ (∃ d ∈ t.head?, isDigit d = true) ∨ isDigit c = true) := by
  obtain ⟨d, ds, hd, -⟩ := digitsOf_head n.natAbs
  have hdigit : isDigit d = true := isDigit_of_mem_digitsOf (n := n.natAbs) (hd ▸ List.mem_cons_self)
  unfold intText
  split
  · exact ⟨45, d :: ds, by rw [hd], .inl ⟨rfl, d, rfl, hdigit⟩⟩
  · exact ⟨d, ds, hd, .inr hdigit⟩

/-- A printed value begins with a character that is neither blank nor a closing bracket. -/
theorem render_head (σ : Style) {v : Value} (h : Plain v) :
    ∃ c t, render σ (escaped v) = c :: t ∧ isBlank c = false ∧ c ≠ 93 := by
  cases v with
  | null => exact ⟨110, _, rfl, by decide, by decide⟩
  | bool b => cases b <;> exact ⟨_, _, rfl, by decide, by decide⟩
  | int n =>
    obtain ⟨c, t, hc, hdash | hdigit⟩ := intText_head n
    · exact ⟨c, t, hc, by rw [hdash.1]; decide, by rw [hdash.1]; decide⟩
    · exact ⟨c, t, hc, not_isBlank_of_isDigit hdigit⟩
  | float l => exact h.elim
  | str s => exact ⟨34, _, rfl, by decide, by decide⟩
  | arr items => exact ⟨91, _, by rw [escaped, render], by decide, by decide⟩
  | obj items => exact ⟨123, _, by rw [escaped, render], by decide, by decide⟩

/-! ## Reading back -/

/-- An integer reads back where a number stops. -/
theorem value_intText (fuel : ℕ) (n : ℤ) {t : Text} (ht : Stops t) : value (fuel + 1) (intText n ++ t) = some (.int n, t) := by
  obtain ⟨c, ds, hc, hhead⟩ := intText_head n
  have hne : c ≠ 34 ∧ c ≠ 123 ∧ c ≠ 91 ∧ c ≠ 110 ∧ c ≠ 116 ∧ c ≠ 102 ∧ c ≠ 78 ∧ c ≠ 73 := by
    rcases hhead with ⟨rfl, -⟩ | hdigit
    · decide
    · simp only [isDigit, Bool.and_eq_true, decide_eq_true_eq] at hdigit
      omega
  have hinf : ¬ text "-Infinity" <+: c :: (ds ++ t) := by
    rintro hpre
    obtain ⟨hcons, hpre⟩ := List.cons_prefix_cons.1 hpre
    rcases hhead with ⟨-, d, hd, hdigit⟩ | hdigit
    · obtain ⟨ds', rfl⟩ : ∃ ds', ds = d :: ds' := by
        cases ds with
        | nil => cases hd
        | cons e ds' => exact ⟨ds', by rw [Option.some.inj hd]⟩
      obtain ⟨hI, -⟩ := List.cons_prefix_cons.1 hpre
      exact absurd (hI ▸ hdigit) (by decide)
    · exact absurd (hcons ▸ hdigit) (by decide)
  obtain ⟨h1, h2, h3, h4, h5, h6, h7, h8⟩ := hne
  rw [hc, List.cons_append, value, if_neg h1, if_neg h2, if_neg h3, if_neg h4, if_neg h5, if_neg h6, if_neg h7, if_neg h8, if_neg hinf,
    ← List.cons_append, ← hc, scanNumber_intText n ht]

/-- A quoted text reads back. -/
theorem value_str (fuel : ℕ) {s : Text} (h : ∀ c ∈ s, IsScalar c) (t : Text) :
    value (fuel + 1) (quoted (escapeText s) ++ t) = some (.str s, t) := by
  rw [quoted, List.cons_append, List.append_assoc, List.singleton_append, value, if_pos rfl, scanString_escapeText h]
  rfl

/-- An opening bracket not closed at once starts a list of elements. -/
theorem value_arr (fuel : ℕ) {rest : Text} {c : ℕ} {t : Text} (hskip : skip rest = c :: t) (hc : c ≠ 93) :
    value (fuel + 1) (91 :: rest) = (elements (value fuel) ((c :: t).length + 1) (c :: t)).map fun r => (.arr r.1, r.2) := by
  rw [value, if_neg (by decide), if_neg (by decide), if_pos rfl]
  split
  · next e => exact absurd (List.cons.inj (hskip.symm.trans e)).1 hc
  · rw [hskip]

/-- An opening brace not closed at once starts a list of members. -/
theorem value_obj (fuel : ℕ) {rest : Text} {c : ℕ} {t : Text} (hskip : skip rest = c :: t) (hc : c ≠ 125) :
    value (fuel + 1) (123 :: rest) = (members (value fuel) ((c :: t).length + 1) (c :: t)).map fun r => (.obj (dictOf r.1), r.2) := by
  rw [value, if_neg (by decide), if_pos rfl]
  split
  · next e => exact absurd (List.cons.inj (hskip.symm.trans e)).1 hc
  · rw [hskip]

theorem stops_cons {c : ℕ} (h : isDigit c = false ∧ c ≠ 46 ∧ c ≠ 101 ∧ c ≠ 69) (t : Text) : Stops (c :: t) := by
  intro d hd
  obtain rfl := Option.some.inj hd
  exact h

variable (σ : Style)

/-- The elements of an array begin as the first of them does. -/
theorem renderItems_head {v : Value} (h : Plain v) (vs : List Value) :
    ∃ c t, renderItems σ (escapedItems (v :: vs)) = c :: t ∧ isBlank c = false ∧ c ≠ 93 := by
  obtain ⟨c, t, hhead, hc⟩ := render_head σ h
  cases vs with
  | nil => exact ⟨c, _, by rw [escapedItems, escapedItems, renderItems, hhead, List.cons_append], hc⟩
  | cons w vs => exact ⟨c, _, by rw [escapedItems, escapedItems, renderItems, hhead, List.cons_append], hc⟩

/-- The elements of an array are read back if each of them is. -/
theorem elements_render {value : Text → Option (Value × Text)} {v : Value} {vs : List Value} (hplain : ∀ w ∈ v :: vs, Plain w)
    (h : ∀ w ∈ v :: vs, ∀ t, Stops t → value (render σ (escaped w) ++ t) = some (w, t)) {n : ℕ} (hn : vs.length < n) (t : Text) :
    elements value n (renderItems σ (escapedItems (v :: vs)) ++ t) = some (v :: vs, t) := by
  induction vs generalizing v n with
  | nil =>
    obtain ⟨n, rfl⟩ := Nat.exists_eq_add_of_lt hn
    rw [escapedItems, escapedItems, renderItems, List.append_assoc, List.singleton_append, elements,
      h v List.mem_cons_self _ (stops_cons (by decide) t), Option.bind_some]
    simp only [skip_cons (show isBlank 93 = false from rfl)]
  | cons w vs ih =>
    obtain ⟨n, rfl⟩ : ∃ k, n = k + 1 := ⟨n - 1, by omega⟩
    obtain ⟨hv, hvs⟩ := List.forall_mem_cons.1 hplain
    obtain ⟨c, rest, hhead, hblank, -⟩ := renderItems_head σ (hvs w List.mem_cons_self) vs
    have hskip : skip (σ.afterComma ++ (renderItems σ (escapedItems (w :: vs)) ++ t)) = renderItems σ (escapedItems (w :: vs)) ++ t := by
      rw [skip_append σ.blankComma, hhead]
      exact skip_cons hblank _
    have hrest := ih hvs (fun u hu => h u (List.mem_cons_of_mem _ hu)) (n := n) (by simpa using hn)
    rw [escapedItems, escapedItems, renderItems, ← escapedItems, List.append_assoc, elements]
    rw [List.cons_append, h v List.mem_cons_self _ (stops_cons (by decide) _), Option.bind_some]
    simp only [skip_cons (show isBlank 44 = false from rfl), List.append_assoc, hskip, hrest, Option.map_some]

/-- The members of an object begin with a quote. -/
theorem renderMembers_head (w : Text × Value) (ws : List (Text × Value)) :
    ∃ t, renderMembers σ (escapedMembers (w :: ws)) = 34 :: t := by
  cases ws with
  | nil => exact ⟨_, by rw [escapedMembers, escapedMembers, renderMembers, quoted, List.cons_append]⟩
  | cons x ws => exact ⟨_, by rw [escapedMembers, escapedMembers, renderMembers, quoted, List.cons_append]⟩

/-- The members of an object are read back if the value of each of them is. -/
theorem members_render {value : Text → Option (Value × Text)} {w : Text × Value} {ws : List (Text × Value)}
    (hplain : ∀ x ∈ w :: ws, (∀ c ∈ x.1, IsScalar c) ∧ Plain x.2)
    (h : ∀ x ∈ w :: ws, ∀ t, Stops t → value (render σ (escaped x.2) ++ t) = some (x.2, t)) {n : ℕ} (hn : ws.length < n) (t : Text) :
    members value n (renderMembers σ (escapedMembers (w :: ws)) ++ t) = some (w :: ws, t) := by
  induction ws generalizing w n with
  | nil =>
    obtain ⟨n, rfl⟩ : ∃ k, n = k + 1 := ⟨n - 1, by omega⟩
    obtain ⟨key, v⟩ := w
    obtain ⟨hkey, hv⟩ := hplain (key, v) List.mem_cons_self
    obtain ⟨c, rest, hhead, hblank, -⟩ := render_head σ hv
    have hskip : skip (σ.afterColon ++ (render σ (escaped v) ++ 125 :: t)) = render σ (escaped v) ++ 125 :: t := by
      rw [skip_append σ.blankColon, hhead]
      exact skip_cons hblank _
    rw [escapedMembers, escapedMembers, renderMembers, quoted]
    simp only [List.cons_append, List.append_assoc, List.nil_append]
    rw [members, scanString_escapeText hkey, Option.bind_some]
    simp only [skip_cons (show isBlank 58 = false from rfl), hskip]
    rw [h (key, v) List.mem_cons_self _ (stops_cons (by decide) t), Option.bind_some]
    simp only [skip_cons (show isBlank 125 = false from rfl)]
  | cons x ws ih =>
    obtain ⟨n, rfl⟩ : ∃ k, n = k + 1 := ⟨n - 1, by omega⟩
    obtain ⟨key, v⟩ := w
    obtain ⟨⟨hkey, hv⟩, hws⟩ := List.forall_mem_cons.1 hplain
    obtain ⟨c, rest, hhead, hblank, -⟩ := render_head σ hv
    obtain ⟨rest', hquote⟩ := renderMembers_head σ x ws
    have hskip : ∀ t, skip (σ.afterColon ++ (render σ (escaped v) ++ t)) = render σ (escaped v) ++ t := by
      intro t
      rw [skip_append σ.blankColon, hhead]
      exact skip_cons hblank _
    have hnext : skip (σ.afterComma ++ (renderMembers σ (escapedMembers (x :: ws)) ++ t)) =
        renderMembers σ (escapedMembers (x :: ws)) ++ t := by
      rw [skip_append σ.blankComma, hquote]
      exact skip_cons rfl _
    have hrest := ih hws (fun u hu => h u (List.mem_cons_of_mem _ hu)) (n := n) (by simpa using hn)
    have hcons : escapedMembers (x :: ws) = (escapeText x.1, escaped x.2) :: escapedMembers ws := rfl
    rw [escapedMembers, hcons, renderMembers, ← hcons, quoted]
    simp only [List.cons_append, List.append_assoc, List.nil_append]
    rw [members, scanString_escapeText hkey, Option.bind_some]
    simp only [skip_cons (show isBlank 58 = false from rfl), hskip]
    rw [h (key, v) List.mem_cons_self _ (stops_cons (by decide) _), Option.bind_some]
    simp only [skip_cons (show isBlank 44 = false from rfl), hnext, hrest, Option.map_some]

/-- A rendered list is longer than each of its rendered elements, and than their number. -/
theorem length_renderItems (items : List Value) : items.length ≤ (renderItems σ items).length ∧
    ∀ v ∈ items, (render σ v).length < (renderItems σ items).length := by
  induction items with
  | nil => simp [renderItems]
  | cons v items ih =>
    cases items with
    | nil => simp [renderItems]
    | cons w items =>
      rw [renderItems]
      simp only [List.length_append, List.length_cons, List.forall_mem_cons] at ih ⊢
      refine ⟨by omega, by omega, by omega, fun u hu => ?_⟩
      have := ih.2.2 u hu
      omega

/-- A rendered object is longer than each of its rendered values, and than their number. -/
theorem length_renderMembers (items : List (Text × Value)) : items.length < (renderMembers σ items).length ∧
    ∀ w ∈ items, (render σ w.2).length < (renderMembers σ items).length := by
  induction items with
  | nil => simp [renderMembers]
  | cons v items ih =>
    obtain ⟨key, v⟩ := v
    cases items with
    | nil => simp [renderMembers]; omega
    | cons w items =>
      rw [renderMembers]
      simp only [List.length_append, List.length_cons, List.forall_mem_cons] at ih ⊢
      refine ⟨by omega, by omega, by omega, fun u hu => ?_⟩
      have := ih.2.2 u hu
      omega

@[simp] theorem length_escapedItems (items : List Value) : (escapedItems items).length = items.length := by
  induction items with
  | nil => rfl
  | cons v items ih => rw [escapedItems, List.length_cons, List.length_cons, ih]

@[simp] theorem length_escapedMembers (items : List (Text × Value)) : (escapedMembers items).length = items.length := by
  induction items with
  | nil => rfl
  | cons w items ih => rw [escapedMembers, List.length_cons, List.length_cons, ih]

/-- Every element is among the escaped ones. -/
theorem mem_escapedItems {items : List Value} {v : Value} (h : v ∈ items) : escaped v ∈ escapedItems items := by
  induction items with
  | nil => cases h
  | cons w items ih =>
    rw [escapedItems]
    rcases List.mem_cons.1 h with rfl | h
    · exact List.mem_cons_self
    · exact List.mem_cons_of_mem _ (ih h)

/-- Every member is among the escaped ones. -/
theorem mem_escapedMembers {items : List (Text × Value)} {w : Text × Value} (h : w ∈ items) :
    (escapeText w.1, escaped w.2) ∈ escapedMembers items := by
  induction items with
  | nil => cases h
  | cons x items ih =>
    rw [escapedMembers]
    rcases List.mem_cons.1 h with rfl | h
    · exact List.mem_cons_self
    · exact List.mem_cons_of_mem _ (ih h)

/-- A plain value is read back with fuel for its text. -/
theorem value_render {fuel : ℕ} {v : Value} (hplain : Plain v) (hf : (render σ (escaped v)).length < fuel) {t : Text} (ht : Stops t) :
    value fuel (render σ (escaped v) ++ t) = some (v, t) := by
  induction fuel generalizing v t with
  | zero => omega
  | succ fuel ih =>
    cases v with
    | null => rfl
    | bool b => cases b <;> rfl
    | int n => exact value_intText fuel n ht
    | float l => exact hplain.elim
    | str s => exact value_str fuel hplain t
    | arr items =>
      cases items with
      | nil => rfl
      | cons v items =>
        have hplain' := plainItems_iff.1 hplain
        obtain ⟨c, rest, hhead, hblank, hc⟩ := renderItems_head σ (hplain' v List.mem_cons_self) items
        have hrec : ∀ w ∈ v :: items, ∀ t, Stops t → value fuel (render σ (escaped w) ++ t) = some (w, t) := by
          intro w hw t ht
          refine ih (hplain' w hw) ?_ ht
          have := (length_renderItems σ (escapedItems (v :: items))).2 _ (mem_escapedItems hw)
          rw [escaped, render, List.length_cons] at hf
          omega
        have hcount : items.length < (renderItems σ (escapedItems (v :: items)) ++ t).length + 1 := by
          have := (length_renderItems σ (escapedItems (v :: items))).1
          rw [length_escapedItems, List.length_cons] at this
          rw [List.length_append]
          omega
        rw [escaped, render, List.cons_append, value_arr fuel (c := c) (t := rest ++ t) (by rw [hhead]; exact skip_cons hblank _) hc,
          ← List.cons_append, ← hhead, elements_render σ hplain' hrec hcount]
        rfl
    | obj items =>
      cases items with
      | nil => rfl
      | cons w items =>
        obtain ⟨hnodup, hmembers⟩ := hplain
        have hplain' := plainMembers_iff.1 hmembers
        obtain ⟨rest, hhead⟩ := renderMembers_head σ w items
        have hrec : ∀ x ∈ w :: items, ∀ t, Stops t → value fuel (render σ (escaped x.2) ++ t) = some (x.2, t) := by
          intro x hx t ht
          refine ih (hplain' x hx).2 ?_ ht
          have : (render σ (escaped x.2)).length < _ := (length_renderMembers σ (escapedMembers (w :: items))).2 _ (mem_escapedMembers hx)
          rw [escaped, render, List.length_cons] at hf
          omega
        have hcount : items.length < (renderMembers σ (escapedMembers (w :: items)) ++ t).length + 1 := by
          have := (length_renderMembers σ (escapedMembers (w :: items))).1
          rw [length_escapedMembers, List.length_cons] at this
          rw [List.length_append]
          omega
        rw [escaped, render, List.cons_append, value_obj fuel (c := 34) (t := rest ++ t) (by rw [hhead]; rfl) (by decide),
          ← List.cons_append, ← hhead, members_render σ hplain' hrec hcount, Option.map_some, dictOf_of_nodup hnodup]

/-- **What is printed is read back**, with blanks around it. -/
theorem loads_dumps {v : Value} (h : Plain v) {blanks : Text} (hb : ∀ c ∈ blanks, isBlank c = true) :
    loads (dumps σ v ++ blanks) = some v := by
  obtain ⟨c, t, hhead, hblank, -⟩ := render_head σ h
  have hskip : skip (render σ (escaped v) ++ blanks) = render σ (escaped v) ++ blanks := by
    rw [hhead]
    exact skip_cons hblank _
  have hstops : Stops blanks := by
    intro d hd
    have hd := hb d (List.mem_of_mem_head? hd)
    simp only [isBlank, Bool.or_eq_true, decide_eq_true_eq] at hd
    rcases hd with ((rfl | rfl) | rfl) | rfl <;> decide
  have hend : skip blanks = [] := by
    rw [← List.append_nil blanks, skip_append hb]
    rfl
  rw [loads, dumps, hskip, value_render σ h (by rw [List.length_append]; omega) hstops]
  simp only [hend, if_true]

end Json
