import Orka.Lib.JsonRound
import Orka.Lib.Search

/-!
# Finding a text in printed JSON

A printed value has a text without punctuation exactly where one of its strings or numbers has it; the last string of an object is the
last thing printed.
-/

namespace Json

open Search

/-- A text has no punctuation of JSON and is not part of a word of JSON. -/
structure Foreign (σ : Style) (sub : Text) : Prop where
  nonempty : sub ≠ []
  marks : ∀ c ∈ [34, 44, 58, 91, 93, 123, 125], c ∉ sub
  comma : ∀ c ∈ σ.afterComma, c ∉ sub
  colon : ∀ c ∈ σ.afterColon, c ∉ sub
  words : ∀ word ∈ [text "null", text "true", text "false"], ¬ sub <:+: word

mutual

/-- No string and no number of a value has the text; the strings are bodies. -/
def Avoids (sub : Text) : Value → Prop
  | .null | .bool _ => True
  | .int n => ¬ sub <:+: intText n
  | .float literal => ¬ sub <:+: literal
  | .str body => ¬ sub <:+: body
  | .arr items => AvoidsItems sub items
  | .obj items => AvoidsMembers sub items

def AvoidsItems (sub : Text) : List Value → Prop
  | [] => True
  | v :: vs => Avoids sub v ∧ AvoidsItems sub vs

def AvoidsMembers (sub : Text) : List (Text × Value) → Prop
  | [] => True
  | (key, v) :: vs => ¬ sub <:+: key ∧ Avoids sub v ∧ AvoidsMembers sub vs

end

variable {σ : Style} {sub : Text}

/-- Foreign elements in front change nothing. -/
theorem not_infix_append_left {front b : Text} (hsub : sub ≠ []) (h : ∀ c ∈ front, c ∉ sub) (hb : ¬ sub <:+: b) :
    ¬ sub <:+: front ++ b := by
  induction front with
  | nil => exact hb
  | cons c front ih =>
    obtain ⟨hc, hfront⟩ := List.forall_mem_cons.1 h
    exact not_infix_cons hc hsub (ih hfront)

/-- A quoted body that avoids the text, before something that does. -/
theorem not_infix_quoted (hs : Foreign σ sub) {body rest : Text} (hbody : ¬ sub <:+: body) (hrest : ¬ sub <:+: rest) :
    ¬ sub <:+: quoted body ++ rest := by
  have hmark : 34 ∉ sub := hs.marks 34 (by decide)
  rw [quoted, List.cons_append, List.append_assoc]
  exact not_infix_cons hmark hs.nonempty (not_infix_append_cons hmark hbody hrest)

mutual

/-- What is printed of a value that avoids a foreign text avoids it. -/
theorem not_infix_render (hs : Foreign σ sub) : (v : Value) → Avoids sub v → ¬ sub <:+: render σ v
  | .null, _ => hs.words (text "null") (by decide)
  | .bool true, _ => hs.words (text "true") (by decide)
  | .bool false, _ => hs.words (text "false") (by decide)
  | .int _, h => h
  | .float _, h => h
  | .str body, h => by
    rw [render, ← List.append_nil (quoted body)]
    exact not_infix_quoted hs h fun hnil => hs.nonempty (List.infix_nil.1 hnil)
  | .arr items, h => by
    rw [render]
    exact not_infix_cons (hs.marks 91 (by decide)) hs.nonempty (not_infix_renderItems hs items h)
  | .obj items, h => by
    rw [render]
    exact not_infix_cons (hs.marks 123 (by decide)) hs.nonempty (not_infix_renderMembers hs items h)

/-- A rendered list whose elements avoid the text does not hold it. -/
theorem not_infix_renderItems (hs : Foreign σ sub) : (items : List Value) → AvoidsItems sub items → ¬ sub <:+: renderItems σ items
  | [], _ => not_infix_cons (hs.marks 93 (by decide)) hs.nonempty fun h => hs.nonempty (List.infix_nil.1 h)
  | [v], h => by
    rw [renderItems]
    exact not_infix_concat (hs.marks 93 (by decide)) hs.nonempty (not_infix_render hs v h.1)
  | v :: w :: vs, h => by
    rw [renderItems]
    refine not_infix_append_cons (hs.marks 44 (by decide)) (not_infix_render hs v h.1) ?_
    exact not_infix_append_left hs.nonempty hs.comma (not_infix_renderItems hs (w :: vs) h.2)

/-- A rendered object whose members avoid the text does not hold it. -/
theorem not_infix_renderMembers (hs : Foreign σ sub) :
    (items : List (Text × Value)) → AvoidsMembers sub items → ¬ sub <:+: renderMembers σ items
  | [], _ => not_infix_cons (hs.marks 125 (by decide)) hs.nonempty fun h => hs.nonempty (List.infix_nil.1 h)
  | [(key, v)], h => by
    rw [renderMembers]
    refine not_infix_quoted hs h.1 (not_infix_cons (hs.marks 58 (by decide)) hs.nonempty ?_)
    refine not_infix_append_left hs.nonempty hs.colon ?_
    exact not_infix_concat (hs.marks 125 (by decide)) hs.nonempty (not_infix_render hs v h.2.1)
  | (key, v) :: w :: vs, h => by
    rw [renderMembers]
    refine not_infix_quoted hs h.1 (not_infix_cons (hs.marks 58 (by decide)) hs.nonempty ?_)
    refine not_infix_append_left hs.nonempty hs.colon ?_
    refine not_infix_append_cons (hs.marks 44 (by decide)) (not_infix_render hs v h.2.1) ?_
    exact not_infix_append_left hs.nonempty hs.comma (not_infix_renderMembers hs (w :: vs) h.2.2)

end

/-- A list avoids a text exactly when each value does. -/
theorem avoidsItems_iff {items : List Value} : AvoidsItems sub items ↔ ∀ v ∈ items, Avoids sub v := by
  induction items with
  | nil => simp [AvoidsItems]
  | cons v items ih => rw [AvoidsItems, ih, List.forall_mem_cons]

/-- An object avoids a text exactly when each key and value does. -/
theorem avoidsMembers_iff {items : List (Text × Value)} :
    AvoidsMembers sub items ↔ ∀ w ∈ items, ¬ sub <:+: w.1 ∧ Avoids sub w.2 := by
  induction items with
  | nil => simp [AvoidsMembers]
  | cons w items ih => rw [AvoidsMembers, ih, List.forall_mem_cons, and_assoc]

/-! ## The last member -/

/-- The last member is the last thing printed. -/
theorem exists_renderMembers_concat (σ : Style) (items : List (Text × Value)) :
    ∃ front : Text, ∀ key v, renderMembers σ (items ++ [(key, v)]) =
      front ++ (quoted key ++ (58 :: (σ.afterColon ++ (render σ v ++ [125])))) := by
  induction items with
  | nil => exact ⟨[], fun key v => by rw [List.nil_append, List.nil_append, renderMembers]⟩
  | cons w items ih =>
    obtain ⟨front, hfront⟩ := ih
    refine ⟨quoted w.1 ++ (58 :: (σ.afterColon ++ (render σ w.2 ++ (44 :: (σ.afterComma ++ front))))), fun key v => ?_⟩
    have hcons : ∀ rest : List (Text × Value), rest ≠ [] → renderMembers σ (w :: rest) =
        quoted w.1 ++ (58 :: (σ.afterColon ++ (render σ w.2 ++ (44 :: (σ.afterComma ++ renderMembers σ rest))))) := by
      intro rest hrest
      obtain ⟨x, xs, rfl⟩ := List.exists_cons_of_ne_nil hrest
      rw [renderMembers]
    rw [List.cons_append, hcons _ (by simp), hfront]
    simp only [List.append_assoc, List.cons_append]

/-- Escaping goes through the elements. -/
theorem escapedItems_eq_map (items : List Value) : escapedItems items = items.map escaped := by
  induction items with
  | nil => rfl
  | cons v items ih => rw [escapedItems, ih, List.map_cons]

/-- Escaping goes through the members. -/
theorem escapedMembers_eq_map (items : List (Text × Value)) :
    escapedMembers items = items.map fun w => (escapeText w.1, escaped w.2) := by
  induction items with
  | nil => rfl
  | cons w items ih => rw [escapedMembers, ih, List.map_cons]

theorem escapedMembers_append (xs ys : List (Text × Value)) : escapedMembers (xs ++ ys) = escapedMembers xs ++ escapedMembers ys := by
  rw [escapedMembers_eq_map, escapedMembers_eq_map, escapedMembers_eq_map, List.map_append]

/-- The last string of the last object of an object stands between a quotation mark and the end. -/
theorem exists_dumps_last (σ : Style) (items : List (Text × Value)) (key : Text) (inner : List (Text × Value)) (last : Text) :
    ∃ front : Text, ∀ s, dumps σ (.obj (items ++ [(key, .obj (inner ++ [(last, .str s)]))])) =
      front ++ 34 :: (escapeText s ++ [34, 125, 125]) := by
  obtain ⟨outer, houter⟩ := exists_renderMembers_concat σ (escapedMembers items)
  obtain ⟨middle, hmiddle⟩ := exists_renderMembers_concat σ (escapedMembers inner)
  refine ⟨123 :: (outer ++ (quoted (escapeText key) ++ (58 :: (σ.afterColon ++ (123 ::
    (middle ++ (quoted (escapeText last) ++ (58 :: σ.afterColon)))))))), fun s => ?_⟩
  have hescaped : escaped (.obj (items ++ [(key, .obj (inner ++ [(last, .str s)]))])) =
      .obj (escapedMembers items ++ [(escapeText key, .obj (escapedMembers inner ++ [(escapeText last, .str (escapeText s))]))]) := by
    rw [escaped, escapedMembers_append, escapedMembers, escapedMembers, escaped, escapedMembers_append, escapedMembers, escapedMembers,
      escaped]
  rw [dumps, hescaped, render, houter, render, hmiddle, render]
  simp only [quoted, List.append_assoc, List.cons_append, List.nil_append]

/-! ## Escaping twice -/

/-- A character a printer writes into a string as it is, or as part of an escape. -/
def Printable (c : ℕ) : Prop := 32 ≤ c ∧ c ≤ 126

instance (c : ℕ) : Decidable (Printable c) := inferInstanceAs (Decidable (_ ∧ _))

/-- A hexadecimal digit is printable. -/
theorem printable_hexDigit {d : ℕ} (h : d < 16) : Printable (hexDigit d) := by
  unfold hexDigit Printable
  split <;> omega

/-- A `\u` escape is printable. -/
theorem printable_unicodeEscape {u d : ℕ} (h : d ∈ unicodeEscape u) : Printable d := by
  simp only [unicodeEscape, List.mem_cons, List.not_mem_nil, or_false] at h
  rcases h with rfl | rfl | rfl | rfl | rfl | rfl
  · exact ⟨by decide, by decide⟩
  · exact ⟨by decide, by decide⟩
  · exact printable_hexDigit (Nat.mod_lt _ (by decide))
  · exact printable_hexDigit (Nat.mod_lt _ (by decide))
  · exact printable_hexDigit (Nat.mod_lt _ (by decide))
  · exact printable_hexDigit (Nat.mod_lt _ (by decide))

/-- What an escape writes is printable. -/
theorem printable_escape {c d : ℕ} (h : d ∈ escape c) : Printable d := by
  unfold escape at h
  split at h
  · next e he =>
    have hletter : Printable e := by
      unfold escapeLetter at he
      split_ifs at he <;> (obtain rfl := Option.some.inj he; exact ⟨by decide, by decide⟩)
    rcases List.mem_cons.1 h with rfl | h
    · exact ⟨by decide, by decide⟩
    · obtain rfl := List.mem_singleton.1 h
      exact hletter
  · split at h
    · next hprint =>
      obtain rfl := List.mem_singleton.1 h
      exact hprint
    · split at h
      · exact printable_unicodeEscape h
      · exact (List.mem_append.1 h).elim printable_unicodeEscape printable_unicodeEscape

/-- A printed string is made of printable characters. -/
theorem printable_escapeText {s : Text} {d : ℕ} (h : d ∈ escapeText s) : Printable d := by
  obtain ⟨c, -, hd⟩ := List.mem_flatMap.1 h
  exact printable_escape hd

/-- A printable character is a mark of a string, or is written as it is. -/
theorem escape_of_printable {c : ℕ} (h : Printable c) : (∃ e, escape c = [backslash, e]) ∨ escape c = [c] := by
  unfold escape
  cases escapeLetter c with
  | some e => exact .inl ⟨e, rfl⟩
  | none => exact .inr (if_pos h)

/-- What an integer writes is printable. -/
theorem printable_intText {n : ℤ} {d : ℕ} (h : d ∈ intText n) : Printable d := by
  have hdigits : ∀ d ∈ digitsOf n.natAbs, Printable d := by
    intro d hd
    have hdigit := isDigit_of_mem_digitsOf hd
    simp only [isDigit, Bool.and_eq_true, decide_eq_true_eq] at hdigit
    exact ⟨by omega, by omega⟩
  rw [intText] at h
  split_ifs at h
  · rcases List.mem_cons.1 h with rfl | h
    · exact ⟨by decide, by decide⟩
    · exact hdigits d h
  · exact hdigits d h

mutual

/-- What is not printable is nowhere in a printed value. -/
theorem avoids_of_not_printable {c : ℕ} (hc : ¬ Printable c) : (v : Value) → Plain v → Avoids [c] (escaped v)
  | .null, _ => trivial
  | .bool _, _ => trivial
  | .int _, _ => fun h => hc (printable_intText ((List.singleton_infix_iff _ _).1 h))
  | .float _, h => h.elim
  | .str _, _ => fun h => hc (printable_escapeText ((List.singleton_infix_iff _ _).1 h))
  | .arr items, h => avoidsItems_of_not_printable hc items h
  | .obj items, h => avoidsMembers_of_not_printable hc items h.2

/-- An escaped list holds no character that is not printable. -/
theorem avoidsItems_of_not_printable {c : ℕ} (hc : ¬ Printable c) :
    (items : List Value) → PlainItems items → AvoidsItems [c] (escapedItems items)
  | [], _ => trivial
  | v :: vs, h => ⟨avoids_of_not_printable hc v h.1, avoidsItems_of_not_printable hc vs h.2⟩

/-- An escaped object holds no character that is not printable. -/
theorem avoidsMembers_of_not_printable {c : ℕ} (hc : ¬ Printable c) :
    (items : List (Text × Value)) → PlainMembers items → AvoidsMembers [c] (escapedMembers items)
  | [], _ => trivial
  | (_, v) :: vs, h => ⟨fun hkey => hc (printable_escapeText ((List.singleton_infix_iff _ _).1 hkey)),
      avoids_of_not_printable hc v h.2.1, avoidsMembers_of_not_printable hc vs h.2.2⟩

end

/-- A printed value is made of printable characters, if its style is. -/
theorem printable_dumps (hcomma : ∀ c ∈ σ.afterComma, Printable c) (hcolon : ∀ c ∈ σ.afterColon, Printable c) {v : Value} (h : Plain v)
    {d : ℕ} (hd : d ∈ dumps σ v) : Printable d := by
  by_contra hnot
  have hall : ∀ t : Text, (∀ c ∈ t, Printable c) → ∀ c ∈ t, c ∉ [d] := by
    intro t ht c hc hmem
    obtain rfl := List.mem_singleton.1 hmem
    exact hnot (ht c hc)
  have hwords : ∀ word ∈ [text "null", text "true", text "false"], ∀ c ∈ word, Printable c := by decide
  have hforeign : Foreign σ [d] :=
    { nonempty := List.cons_ne_nil _ _
      marks := hall _ (by decide)
      comma := hall _ hcomma
      colon := hall _ hcolon
      words := fun word hword h => hall word (hwords word hword) d ((List.singleton_infix_iff _ _).1 h) List.mem_cons_self }
  exact not_infix_render hforeign _ (avoids_of_not_printable hnot v h) ((List.singleton_infix_iff _ _).2 hd)

/-- A text without backslashes that begins an escaped text begins the text. -/
theorem prefix_of_prefix_escapeText {t : Text} (ht : ∀ c ∈ t, Printable c) {sub : Text} (hsub : backslash ∉ sub)
    (h : sub <+: escapeText t) : sub <+: t := by
  induction t generalizing sub with
  | nil => exact h
  | cons c t ih =>
    obtain ⟨hc, hlater⟩ := List.forall_mem_cons.1 ht
    rw [escapeText, List.flatMap_cons, ← escapeText] at h
    cases sub with
    | nil => exact List.nil_prefix
    | cons x sub =>
      rcases escape_of_printable hc with ⟨e, he⟩ | he
      · rw [he, List.cons_append] at h
        exact absurd ((List.cons_prefix_cons.1 h).1 ▸ List.mem_cons_self) hsub
      · rw [he, List.singleton_append] at h
        obtain ⟨hhead, htail⟩ := List.cons_prefix_cons.1 h
        exact List.cons_prefix_cons.2 ⟨hhead, ih hlater (fun hmem => hsub (List.mem_cons_of_mem _ hmem)) htail⟩

/-- Escaping printable characters brings no text about but those with a backslash. -/
theorem infix_of_infix_escapeText {t : Text} (ht : ∀ c ∈ t, Printable c) {sub : Text} (hsub : backslash ∉ sub)
    (hletters : ∀ c ∈ t, ∀ e, escape c = [backslash, e] → e ∉ sub) (h : sub <:+: escapeText t) : sub <:+: t := by
  induction t with
  | nil => exact h
  | cons c t ih =>
    have hrest := List.forall_mem_cons.1 ht
    have hlater := (List.forall_mem_cons.1 hletters).2
    rcases List.eq_nil_or_concat sub with rfl | hne
    · exact List.nil_infix
    have hnonempty : sub ≠ [] := by
      obtain ⟨xs, x, rfl⟩ := hne
      simp
    rcases escape_of_printable hrest.1 with ⟨e, he⟩ | he
    · have hfront : escapeText (c :: t) = [backslash, e] ++ escapeText t := by rw [escapeText, List.flatMap_cons, he, ← escapeText]
      rw [hfront] at h
      by_contra hnot
      refine not_infix_append_left hnonempty ?_ (fun h => hnot (List.infix_cons (ih hrest.2 hlater h))) h
      intro d hd
      rcases List.mem_cons.1 hd with rfl | hd
      · exact hsub
      · obtain rfl := List.mem_singleton.1 hd
        exact hletters c List.mem_cons_self d he
    · have hfront : escapeText (c :: t) = c :: escapeText t := by
        rw [escapeText, List.flatMap_cons, he, ← escapeText, List.singleton_append]
      rw [hfront] at h
      rcases List.infix_cons_iff.1 h with h | h
      · rw [← hfront] at h
        exact (prefix_of_prefix_escapeText ht hsub h).isInfix
      · exact List.infix_cons (ih hrest.2 hlater h)

end Json
