import Mathlib
import Orka.Lib.Numerals

/-!
# Paths

A path of a file system is a list of components. A name is split at its separators, and empty components and single dots are dropped.
Where a path leads is found component by component: a double dot goes up, at the root it does nothing, and a link goes where the link
leads.
-/

namespace Paths

/-- The separator and the dot of an alphabet. -/
structure Alphabet (κ : Type) where
  sep : κ
  dot : κ

/-- The links of a file system: for a place that is a link, the place it leads to in the end. -/
abbrev Links (κ : Type) := List (List κ) → Option (List (List κ))

variable {κ : Type} [DecidableEq κ] (A : Alphabet κ)

/-- The components of a name. -/
def parts (name : List κ) : List (List κ) := (name.splitOn A.sep).filter fun q => q ≠ [] ∧ q ≠ [A.dot]

/-- The name starts at the root. -/
def Absolute (name : List κ) : Prop := name.head? = some A.sep

instance (name : List κ) : Decidable (Absolute A name) := inferInstanceAs (Decidable (_ = _))

/-- A name seen from a directory. -/
def join (dir : List (List κ)) (name : List κ) : List (List κ) := if Absolute A name then parts A name else dir ++ parts A name

variable (links : Links κ)

/-- One component more. -/
def push (place : List (List κ)) (q : List κ) : List (List κ) :=
  if q = [A.dot, A.dot] then place.dropLast else (links (place ++ [q])).getD (place ++ [q])

/-- Where a path leads from a place. -/
def walk (place path : List (List κ)) : List (List κ) := path.foldl (push A links) place

/-- Where a path leads from the root. -/
def resolve (path : List (List κ)) : List (List κ) := walk A links [] path

/-- A path leads into a directory, or to it. -/
def Inside (dir path : List (List κ)) : Prop := resolve A links dir <+: resolve A links path

instance (dir path : List (List κ)) : Decidable (Inside A links dir path) := inferInstanceAs (Decidable (_ <+: _))

/-- A name leads into a place: it is walked from there, or from the root where it starts at the root. -/
def LeadsInto (place : List (List κ)) (name : List κ) : Prop :=
  place <+: walk A links (if Absolute A name then [] else place) (parts A name)

instance (place : List (List κ)) (name : List κ) : Decidable (LeadsInto A links place name) := inferInstanceAs (Decidable (_ <+: _))

variable {A links}

theorem walk_append (place path path' : List (List κ)) :
    walk A links place (path ++ path') = walk A links (walk A links place path) path' := List.foldl_append

/-- The file a name leads to is inside a directory if the name leads into the place of the directory. -/
theorem inside_join_iff {dir : List (List κ)} {name : List κ} :
    Inside A links dir (join A dir name) ↔ LeadsInto A links (resolve A links dir) name := by
  unfold Inside LeadsInto join
  split
  · rfl
  · rw [resolve, resolve, walk_append]

end Paths
