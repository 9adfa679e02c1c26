import Mathlib
import Orka.Lib.Numerals

/-!
# Dynamically typed values

The values a program in a dynamically typed language is given from outside: what `json` reads, and objects it cannot write. The
operations on them as the language has them, with the exception each raises on a value of another type.
-/

namespace Dynamic

/-- The classes of exceptions a handler may name. An exception of a subclass counts as one of the nearest class listed. -/
inductive Kind where
  | valueError
  | runtimeError
  | osError
  | keyError
  | indexError
  | typeError
  | attributeError
  | overflowError
  | zeroDivisionError
  | stopIteration
  | custom (name : String)
  | other
  deriving DecidableEq, Repr

/-- An exception: its class and its text. -/
structure Exc where
  kind : Kind
  text : String
  deriving DecidableEq, Repr

/-- A value. An `object` is one `json` cannot write: its truth, and the number `float` makes of it, if it makes one. -/
inductive Value (α : Type) where
  | none
  | bool (b : Bool)
  | int (n : ℤ)
  | float (x : α)
  | str (s : String)
  | list (items : List (Value α))
  | dict (items : List (String × Value α))
  | object (truth : Bool) (number : Option α)

variable {α : Type}

/-- `d.get(key, default)` on the items of a dictionary. -/
def getD (items : List (String × Value α)) (key : String) (default : Value α) : Value α :=
  (items.lookup key).getD default

/-- `d[key]`. -/
def getItem (items : List (String × Value α)) (key : String) : Except Exc (Value α) :=
  match items.lookup key with
  | some v => .ok v
  | Option.none => .error ⟨.keyError, key⟩

/-- `d[key] = v`. -/
def setItem (items : List (String × Value α)) (key : String) (v : Value α) : List (String × Value α) :=
  if key ∈ items.map Prod.fst then items.map fun w => if w.1 = key then (key, v) else w else items ++ [(key, v)]

/-- The item set is the one found. -/
@[simp] theorem lookup_setItem (items : List (String × Value α)) (key : String) (v : Value α) :
    (setItem items key v).lookup key = some v := by
  have found : ∀ l : List (String × Value α), key ∈ l.map Prod.fst →
      (l.map fun w => if w.1 = key then (key, v) else w).lookup key = some v := by
    intro l hl
    induction l with
    | nil => cases hl
    | cons w l ih =>
      rw [List.map_cons]
      by_cases hw : w.1 = key
      · rw [if_pos hw, List.lookup_cons_self]
      · rw [if_neg hw, List.lookup_cons, beq_false_of_ne (Ne.symm hw)]
        exact ih ((List.mem_cons.1 hl).resolve_left (Ne.symm hw))
  unfold setItem
  split
  · next hk => exact found items hk
  · next hk =>
    rw [List.lookup_append, List.lookup_cons_self, Option.or_eq_right_of_none]
    exact List.lookup_eq_none_iff.2 fun w hw => bne_iff_ne.2 fun he => hk (List.mem_map.2 ⟨w, hw, he.symm⟩)

namespace Value

/-- `v.get(key, default)`. -/
def get (v : Value α) (key : String) (default : Value α) : Except Exc (Value α) :=
  match v with
  | dict items => .ok (getD items key default)
  | _ => .error ⟨.attributeError, "object has no attribute 'get'"⟩

/-- `len(v)`. -/
def len : Value α → Except Exc ℕ
  | str s => .ok s.length
  | list items => .ok items.length
  | dict items => .ok items.length
  | _ => .error ⟨.typeError, "object has no len()"⟩

/-- `v[0]`; the keys of a dictionary are strings. -/
def first : Value α → Except Exc (Value α)
  | str s =>
    match s.toList with
    | c :: _ => .ok (str (String.singleton c))
    | [] => .error ⟨.indexError, "string index out of range"⟩
  | list (v :: _) => .ok v
  | list [] => .error ⟨.indexError, "list index out of range"⟩
  | dict _ => .error ⟨.keyError, "0"⟩
  | _ => .error ⟨.typeError, "object is not subscriptable"⟩

/-- `bool(v)`. -/
def truth [Zero α] [BEq α] : Value α → Bool
  | none => false
  | bool b => b
  | int n => n ≠ 0
  | float x => x != 0
  | str s => s ≠ ""
  | list items => !items.isEmpty
  | dict items => !items.isEmpty
  | object b _ => b

/-- `float(v)`, for the conversions of an integer and of a text. -/
def toFloat [Zero α] [One α] (ofInt : ℤ → Except Exc α) (parse : String → Except Exc α) : Value α → Except Exc α
  | bool b => .ok (if b then 1 else 0)
  | int n => ofInt n
  | float x => .ok x
  | str s => parse s
  | object _ (some x) => .ok x
  | _ => .error ⟨.typeError, "float() argument must be a string or a real number"⟩

mutual

/-- `json.dumps` can write the value. -/
def jsonable : Value α → Bool
  | object _ _ => false
  | list items => allJsonable items
  | dict items => itemsJsonable items
  | _ => true

/-- `json.dumps` can write every value of a list. -/
def allJsonable : List (Value α) → Bool
  | [] => true
  | v :: vs => v.jsonable && allJsonable vs

/-- `json.dumps` can write every value of a dictionary. -/
def itemsJsonable : List (String × Value α) → Bool
  | [] => true
  | (_, v) :: items => v.jsonable && itemsJsonable items

end

end Value

end Dynamic
