import Mathlib
import Orka.Lib.Numerals

/-!
# Fresh evidence

An object is produced anew from time to time, and pieces of evidence are computed on it as it then is. A piece of evidence is fresh
if it was computed after the last production.
-/

namespace Fresh

/-- What happens to the object. -/
inductive Event (ι : Type) where
  | produced
  | computed (i : ι)
  deriving DecidableEq

variable {ι : Type}

/-- Evidence `i` was computed after the last production. -/
def Holds (log : List (Event ι)) (i : ι) : Prop := ∃ pre post, log = pre ++ .computed i :: post ∧ .produced ∉ post

theorem not_holds_nil (i : ι) : ¬ Holds [] i := by
  rintro ⟨pre, post, h, -⟩
  simp at h

/-- A new product leaves no evidence. -/
theorem not_holds_produced (log : List (Event ι)) (i : ι) : ¬ Holds (log ++ [.produced]) i := by
  rintro ⟨pre, post, h, hpost⟩
  rcases List.eq_nil_or_concat post with rfl | ⟨post, e, rfl⟩
  · have := List.append_inj_right' h rfl
    simp at this
  · rw [List.concat_eq_append, ← List.cons_append, ← List.append_assoc] at h
    have := List.append_inj_right' h rfl
    simp_all

/-- Computing evidence adds it and drops none. -/
theorem holds_computed_iff {log : List (Event ι)} {i j : ι} : Holds (log ++ [.computed j]) i ↔ j = i ∨ Holds log i := by
  constructor
  · rintro ⟨pre, post, h, hpost⟩
    rcases List.eq_nil_or_concat post with rfl | ⟨post, e, rfl⟩
    · have := List.append_inj_right' h rfl
      simp only [List.cons.injEq, Event.computed.injEq, and_true] at this
      exact .inl this
    · rw [List.concat_eq_append, ← List.cons_append, ← List.append_assoc] at h
      rw [List.concat_eq_append, List.mem_append, not_or] at hpost
      exact .inr ⟨pre, post, List.append_inj_left' h rfl, hpost.1⟩
  · rintro (rfl | ⟨pre, post, rfl, hpost⟩)
    · exact ⟨log, [], rfl, List.not_mem_nil⟩
    · exact ⟨pre, post ++ [.computed j], by simp, by simp [hpost]⟩

/-- The evidence computed since the last production, from a log read backwards. -/
def since : List (Event ι) → List ι
  | .computed i :: log => i :: since log
  | _ => []

/-- What the log holds is what was computed since the last product. -/
theorem mem_since_reverse {log : List (Event ι)} {i : ι} : i ∈ since log.reverse ↔ Holds log i := by
  induction log using List.reverseRecOn with
  | nil => exact iff_of_false List.not_mem_nil (not_holds_nil i)
  | append_singleton log e ih =>
    rw [List.reverse_append, List.reverse_singleton, List.singleton_append]
    cases e with
    | produced => exact iff_of_false List.not_mem_nil (not_holds_produced log i)
    | computed j => rw [since, List.mem_cons, ih, holds_computed_iff, eq_comm]

instance [DecidableEq ι] (log : List (Event ι)) (i : ι) : Decidable (Holds log i) := decidable_of_iff _ mem_since_reverse

section Runs

variable {σ : Type} (log : σ → List (Event ι)) (held : σ → ι → Prop)

/-- Whatever evidence a state holds is fresh. -/
def Sound (s : σ) : Prop := ∀ i, held s i → Holds (log s) i

variable {log held} {s s' : σ}

/-- A step that neither produces nor computes, and gains no evidence. -/
theorem Sound.silent (h : Sound log held s) (hlog : log s' = log s) (hkeep : ∀ i, held s' i → held s i) : Sound log held s' := by
  intro i hi
  rw [hlog]
  exact h i (hkeep i hi)

/-- A step that computes `j`, and gains no other evidence. -/
theorem Sound.computed {j : ι} (h : Sound log held s) (hlog : log s' = log s ++ [.computed j])
    (hkeep : ∀ i, i ≠ j → held s' i → held s i) : Sound log held s' := by
  intro i hi
  rw [hlog, holds_computed_iff]
  by_cases hij : i = j
  · exact .inl hij.symm
  · exact .inr (h i (hkeep i hij hi))

/-- A production after which no evidence is held. -/
theorem Sound.produced (hnone : ∀ i, ¬ held s' i) : Sound log held s' := fun i hi => absurd hi (hnone i)

end Runs

end Fresh
