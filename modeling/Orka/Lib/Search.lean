import Mathlib.Data.List.Infix
import Orka.Lib.Numerals

/-!
# Finding a text in a text

The first place of a text, where the text has no element of what stands just before it, and overwriting a part of a text.
-/

namespace Search

variable {κ : Type} {sub a b : List κ} {c : κ}

/-- What begins with a text before a foreign element begins with it already. -/
theorem prefix_of_prefix_append_cons (hc : c ∉ sub) (h : sub <+: a ++ c :: b) : sub <+: a := by
  obtain ⟨t, ht⟩ := h
  rcases List.append_eq_append_iff.1 ht with ⟨m, ha, -⟩ | ⟨m, hsub, hrest⟩
  · exact ⟨m, ha.symm⟩
  · cases m with
    | nil => exact ⟨[], by rw [List.append_nil, hsub, List.append_nil]⟩
    | cons x m =>
      obtain ⟨rfl, -⟩ := List.cons.inj hrest
      exact absurd (hsub ▸ List.mem_append_right _ List.mem_cons_self) hc

/-- A text does not stretch over a foreign element. -/
theorem infix_append_cons_iff (hc : c ∉ sub) : sub <:+: a ++ c :: b ↔ sub <:+: a ∨ sub <:+: b := by
  constructor
  · intro h
    induction a with
    | nil =>
      rcases List.infix_cons_iff.1 h with h | h
      · exact .inl (prefix_of_prefix_append_cons (a := []) hc h).isInfix
      · exact .inr h
    | cons x a ih =>
      rcases List.infix_cons_iff.1 h with h | h
      · exact .inl (prefix_of_prefix_append_cons (a := x :: a) hc h).isInfix
      · exact (ih h).imp_left fun h => List.infix_cons h
  · rintro (h | h)
    · exact h.trans (List.prefix_append _ _).isInfix
    · exact (List.infix_cons h).trans (List.suffix_append _ _).isInfix

theorem not_infix_append_cons (hc : c ∉ sub) (ha : ¬ sub <:+: a) (hb : ¬ sub <:+: b) : ¬ sub <:+: a ++ c :: b := fun h =>
  ((infix_append_cons_iff hc).1 h).elim ha hb

theorem not_infix_cons (hc : c ∉ sub) (hsub : sub ≠ []) (hb : ¬ sub <:+: b) : ¬ sub <:+: c :: b :=
  not_infix_append_cons (a := []) hc (fun h => hsub (List.infix_nil.1 h)) hb

theorem not_infix_concat (hc : c ∉ sub) (hsub : sub ≠ []) (ha : ¬ sub <:+: a) : ¬ sub <:+: a ++ [c] :=
  not_infix_append_cons hc ha fun h => hsub (List.infix_nil.1 h)

variable [DecidableEq κ]

/-- `t.index(sub)`, where there is one. -/
def findFirst (sub : List κ) : List κ → Option ℕ
  | [] => if sub = [] then some 0 else none
  | c :: t => if sub <+: c :: t then some 0 else (findFirst sub t).map (· + 1)

/-- After a text without it and a foreign element it is found. -/
theorem findFirst_append_cons (hc : c ∉ sub) (hsub : sub ≠ []) (ha : ¬ sub <:+: a) (t : List κ) :
    findFirst sub (a ++ c :: (sub ++ t)) = some (a.length + 1) := by
  induction a with
  | nil =>
    have hnot : ¬ sub <+: c :: (sub ++ t) := fun h => hsub (List.prefix_nil.1 (prefix_of_prefix_append_cons (a := []) hc h))
    have hhere : findFirst sub (sub ++ t) = some 0 := by
      obtain ⟨x, xs, rfl⟩ := List.exists_cons_of_ne_nil hsub
      have hprefix : x :: xs <+: x :: (xs ++ t) := List.prefix_append (x :: xs) t
      rw [List.cons_append, findFirst, if_pos hprefix]
    rw [List.nil_append, findFirst, if_neg hnot, hhere]
    rfl
  | cons x a ih =>
    have hnot : ¬ sub <+: x :: (a ++ c :: (sub ++ t)) := fun h =>
      ha (prefix_of_prefix_append_cons (a := x :: a) hc h).isInfix
    rw [List.cons_append, findFirst, if_neg hnot, ih fun h => ha (List.infix_cons h)]
    rfl

/-- `f.seek(position)` and `f.write(new)`. -/
def overwrite (position : ℕ) (new file : List κ) : List κ := file.take position ++ new ++ file.drop (position + new.length)

omit [DecidableEq κ] in
theorem overwrite_append {old new : List κ} (h : new.length = old.length) (a b : List κ) :
    overwrite a.length new (a ++ (old ++ b)) = a ++ (new ++ b) := by
  rw [overwrite, List.take_left, List.drop_length_add_append, h, List.drop_left, List.append_assoc]

end Search
