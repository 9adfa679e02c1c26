import Mathlib
import Orka.Lib.Numerals

/-!
# JSON

The values of JSON, a printer and a parser. A text is the list of its code points, as a string of Python is: it may hold surrogates.
A number with a fraction or an exponent is kept as it is written.
-/

namespace Json

/-- A text. -/
abbrev Text := List ℕ

/-- The code points of a string. -/
def text (s : String) : Text := s.toList.map Char.toNat

/-- A JSON value. -/
inductive Value where
  | null
  | bool (b : Bool)
  | int (n : ℤ)
  | float (literal : Text)
  | str (s : Text)
  | arr (items : List Value)
  | obj (items : List (Text × Value))

/-- `d.get(key)` on the members of an object. -/
def get? (items : List (Text × Value)) (key : String) : Option Value := items.lookup (text key)

/-- `d[key] = v`. -/
def setItem (items : List (Text × Value)) (key : Text) (v : Value) : List (Text × Value) :=
  if key ∈ items.map Prod.fst then items.map fun w => if w.1 = key then (key, v) else w else items ++ [(key, v)]

/-- `dict(pairs)`. -/
def dictOf (pairs : List (Text × Value)) : List (Text × Value) := pairs.foldl (fun d w => setItem d w.1 w.2) []

/-! ## Characters -/

def backslash : ℕ := 92

def isBlank (c : ℕ) : Bool := c = 32 || c = 9 || c = 10 || c = 13

def skip (t : Text) : Text := t.dropWhile isBlank

def isDigit (c : ℕ) : Bool := 48 ≤ c && c ≤ 57

/-- The value of a hexadecimal digit. -/
def hexValue (c : ℕ) : Option ℕ :=
  if 48 ≤ c ∧ c ≤ 57 then some (c - 48)
  else if 97 ≤ c ∧ c ≤ 102 then some (c - 87)
  else if 65 ≤ c ∧ c ≤ 70 then some (c - 55)
  else none

/-- The lower-case hexadecimal digit of a value below sixteen. -/
def hexDigit (d : ℕ) : ℕ := if d < 10 then 48 + d else 87 + d

/-! ## Strings -/

/-- The one-letter escapes. -/
def escapeLetter (c : ℕ) : Option ℕ :=
  if c = 34 then some 34 else if c = 92 then some 92 else if c = 10 then some 110 else if c = 13 then some 114
  else if c = 9 then some 116 else if c = 12 then some 102 else if c = 8 then some 98 else none

/-- The character a one-letter escape stands for. -/
def unescapeLetter (e : ℕ) : Option ℕ :=
  if e = 34 then some 34 else if e = 92 then some 92 else if e = 47 then some 47 else if e = 98 then some 8
  else if e = 102 then some 12 else if e = 110 then some 10 else if e = 114 then some 13 else if e = 116 then some 9 else none

/-- `\uXXXX`. -/
def unicodeEscape (u : ℕ) : Text :=
  [backslash, 117, hexDigit (u / 4096 % 16), hexDigit (u / 256 % 16), hexDigit (u / 16 % 16), hexDigit (u % 16)]

/-- One character as `json.dumps` writes it with `ensure_ascii`. -/
def escape (c : ℕ) : Text :=
  match escapeLetter c with
  | some e => [backslash, e]
  | none =>
    if 32 ≤ c ∧ c ≤ 126 then [c]
    else if c < 65536 then unicodeEscape c
    else unicodeEscape (55296 + (c - 65536) / 1024 % 1024) ++ unicodeEscape (56320 + (c - 65536) % 1024)

def escapeText (s : Text) : Text := s.flatMap escape

/-- A character of a string and whether it was written as an escape. -/
abbrev Unit16 := ℕ × Bool

/-- The characters up to the closing quote, and what comes after it. -/
def scanUnits : Text → Option (List Unit16 × Text)
  | [] => none
  | c :: rest =>
    if c = 34 then some ([], rest)
    else if c = 92 then
      match rest with
      | [] => none
      | e :: rest =>
        if e = 117 then
          match rest with
          | a :: b :: c :: d :: rest =>
            match hexValue a, hexValue b, hexValue c, hexValue d with
            | some a, some b, some c, some d =>
              (scanUnits rest).map fun r => ((a * 4096 + b * 256 + c * 16 + d, true) :: r.1, r.2)
            | _, _, _, _ => none
          | _ => none
        else
          match unescapeLetter e with
          | some c => (scanUnits rest).map fun r => ((c, true) :: r.1, r.2)
          | none => none
    else if c < 32 then none
    else (scanUnits rest).map fun r => ((c, false) :: r.1, r.2)

def isHigh (u : Unit16) : Prop := u.2 = true ∧ 55296 ≤ u.1 ∧ u.1 < 56320
def isLow (u : Unit16) : Prop := u.2 = true ∧ 56320 ≤ u.1 ∧ u.1 < 57344

instance (u : Unit16) : Decidable (isHigh u) := inferInstanceAs (Decidable (_ ∧ _))
instance (u : Unit16) : Decidable (isLow u) := inferInstanceAs (Decidable (_ ∧ _))

/-- Escaped halves of one character, joined. -/
def joinHalves : List Unit16 → Text
  | [] => []
  | [u] => [u.1]
  | u :: v :: rest =>
    if isHigh u ∧ isLow v then (65536 + (u.1 - 55296) * 1024 + (v.1 - 56320)) :: joinHalves rest
    else u.1 :: joinHalves (v :: rest)

/-- A string, after its opening quote. -/
def scanString (t : Text) : Option (Text × Text) := (scanUnits t).map fun r => (joinHalves r.1, r.2)

/-! ## Numbers -/

/-- Decimal digits. -/
def digitsOf (n : ℕ) : Text := (Nat.toDigits 10 n).map Char.toNat

def intText (n : ℤ) : Text := if n < 0 then 45 :: digitsOf n.natAbs else digitsOf n.natAbs

/-- The number decimal digits write. -/
def natOfDigits (ds : Text) : ℕ := ds.foldl (fun n d => 10 * n + (d - 48)) 0

/-- The digits of an integer without its sign: a zero alone, or digits that do not begin with one. -/
def scanDigits : Text → Option (Text × Text)
  | [] => none
  | c :: rest =>
    if c = 48 then some ([c], rest)
    else if isDigit c then some ((c :: rest).takeWhile isDigit, (c :: rest).dropWhile isDigit)
    else none

/-- A fraction, if one follows. -/
def scanFraction : Text → Text × Text
  | 46 :: rest =>
    let ds := rest.takeWhile isDigit
    if ds = [] then ([], 46 :: rest) else (46 :: ds, rest.dropWhile isDigit)
  | t => ([], t)

/-- An exponent, if one follows. -/
def scanExponent (t : Text) : Text × Text :=
  match t with
  | e :: rest =>
    if e = 101 ∨ e = 69 then
      let (sign, rest') := match rest with
        | s :: rest' => if s = 43 ∨ s = 45 then ([s], rest') else ([], rest)
        | [] => ([], [])
      let ds := rest'.takeWhile isDigit
      if ds = [] then ([], t) else (e :: (sign ++ ds), rest'.dropWhile isDigit)
    else ([], t)
  | [] => ([], [])

/-- A number. -/
def scanNumber (t : Text) : Option (Value × Text) :=
  let (neg, t) := match t with
    | 45 :: rest => (true, rest)
    | _ => (false, t)
  (scanDigits t).map fun (ds, rest) =>
    let (frac, rest) := scanFraction rest
    let (ex, rest) := scanExponent rest
    if frac ++ ex = [] then (.int (if neg then -(natOfDigits ds : ℤ) else natOfDigits ds), rest)
    else (.float ((if neg then [45] else []) ++ ds ++ frac ++ ex), rest)

/-! ## Values -/

/-- What follows a text, if it comes first. -/
def after (word t : Text) : Option Text := if word <+: t then some (t.drop word.length) else none

/-- The elements of an array, from the first on. -/
def elements (value : Text → Option (Value × Text)) : ℕ → Text → Option (List Value × Text)
  | 0, _ => none
  | fuel + 1, t =>
    (value t).bind fun (v, t) =>
      match skip t with
      | 44 :: t => (elements value fuel (skip t)).map fun (vs, t) => (v :: vs, t)
      | 93 :: t => some ([v], t)
      | _ => none

/-- The members of an object, from the first on. -/
def members (value : Text → Option (Value × Text)) : ℕ → Text → Option (List (Text × Value) × Text)
  | 0, _ => none
  | fuel + 1, t =>
    match t with
    | 34 :: t =>
      (scanString t).bind fun (key, t) =>
        match skip t with
        | 58 :: t =>
          (value (skip t)).bind fun (v, t) =>
            match skip t with
            | 44 :: t => (members value fuel (skip t)).map fun (vs, t) => ((key, v) :: vs, t)
            | 125 :: t => some ([(key, v)], t)
            | _ => none
        | _ => none
    | _ => none

/-- `scan_once`. -/
def value : ℕ → Text → Option (Value × Text)
  | 0, _ => none
  | _ + 1, [] => none
  | fuel + 1, c :: rest =>
    if c = 34 then (scanString rest).map fun (s, t) => (.str s, t)
    else if c = 123 then
      match skip rest with
      | 125 :: t => some (.obj [], t)
      | t => (members (value fuel) (t.length + 1) t).map fun (ms, t) => (.obj (dictOf ms), t)
    else if c = 91 then
      match skip rest with
      | 93 :: t => some (.arr [], t)
      | t => (elements (value fuel) (t.length + 1) t).map fun (vs, t) => (.arr vs, t)
    else if c = 110 then (after (text "null") (c :: rest)).map fun t => (.null, t)
    else if c = 116 then (after (text "true") (c :: rest)).map fun t => (.bool true, t)
    else if c = 102 then (after (text "false") (c :: rest)).map fun t => (.bool false, t)
    else if c = 78 then (after (text "NaN") (c :: rest)).map fun t => (.float (text "NaN"), t)
    else if c = 73 then (after (text "Infinity") (c :: rest)).map fun t => (.float (text "Infinity"), t)
    else if text "-Infinity" <+: c :: rest then some (.float (text "-Infinity"), (c :: rest).drop 9)
    else scanNumber (c :: rest)

/-- `json.loads`; `none` is a `JSONDecodeError`. -/
def loads (t : Text) : Option Value :=
  match value (t.length + 1) (skip t) with
  | some (v, t) => if skip t = [] then some v else none
  | none => none

/-! ## Printing -/

/-- What a printer puts after a comma and after a colon. -/
structure Style where
  afterComma : Text
  afterColon : Text
  blankComma : ∀ c ∈ afterComma, isBlank c = true
  blankColon : ∀ c ∈ afterColon, isBlank c = true

/-- `separators=(",", ":")`. -/
def compact : Style := ⟨[], [], by simp, by simp⟩

/-- The separators `json.dumps` takes by itself. -/
def spaced : Style := ⟨[32], [32], by decide, by decide⟩

/-- A string node written out: its text is the body between the quotes, as it stands. -/
def quoted (body : Text) : Text := 34 :: (body ++ [34])

mutual

/-- A value written out, its strings being bodies already escaped. -/
def render (σ : Style) : Value → Text
  | .null => text "null"
  | .bool b => if b then text "true" else text "false"
  | .int n => intText n
  | .float literal => literal
  | .str body => quoted body
  | .arr items => 91 :: renderItems σ items
  | .obj items => 123 :: renderMembers σ items

/-- The elements of an array and its closing bracket. -/
def renderItems (σ : Style) : List Value → Text
  | [] => [93]
  | [v] => render σ v ++ [93]
  | v :: w :: vs => render σ v ++ (44 :: (σ.afterComma ++ renderItems σ (w :: vs)))

/-- The members of an object and its closing brace. -/
def renderMembers (σ : Style) : List (Text × Value) → Text
  | [] => [125]
  | [(key, v)] => quoted key ++ (58 :: (σ.afterColon ++ (render σ v ++ [125])))
  | (key, v) :: w :: vs =>
    quoted key ++ (58 :: (σ.afterColon ++ (render σ v ++ (44 :: (σ.afterComma ++ renderMembers σ (w :: vs))))))

end

mutual

/-- The strings of a value, escaped. -/
def escaped : Value → Value
  | .str s => .str (escapeText s)
  | .arr items => .arr (escapedItems items)
  | .obj items => .obj (escapedMembers items)
  | v => v

def escapedItems : List Value → List Value
  | [] => []
  | v :: vs => escaped v :: escapedItems vs

def escapedMembers : List (Text × Value) → List (Text × Value)
  | [] => []
  | (key, v) :: vs => (escapeText key, escaped v) :: escapedMembers vs

end

/-- `json.dumps`. -/
def dumps (σ : Style) (v : Value) : Text := render σ (escaped v)

end Json
