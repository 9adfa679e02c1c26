import Mathlib
import Orka.Lib.Numerals

/-!
# Machines

A machine is a step function on states and actions, where an action may be disabled. A run is a list of actions, each enabled in
the state it is taken in.
-/

namespace Machine

variable {σ ι : Type} (step : σ → ι → Option σ)

/-- The state after a run. -/
def run : σ → List ι → Option σ
  | s, [] => some s
  | s, a :: as => (step s a).bind fun s' => run s' as

/-- Every action of a run meets a condition in the state it is taken in. -/
def Along (P : σ → ι → Prop) : σ → List ι → Prop
  | _, [] => True
  | s, a :: as => P s a ∧ ∀ s', step s a = some s' → Along P s' as

variable {step} {s s' : σ} {a : ι} {as bs : List ι} {P : σ → ι → Prop}

theorem run_cons_eq_some : run step s (a :: as) = some s' ↔ ∃ t, step s a = some t ∧ run step t as = some s' := by
  rw [run, Option.bind_eq_some_iff]

/-- A run goes on from where it was. -/
theorem run_append : run step s (as ++ bs) = (run step s as).bind fun t => run step t bs := by
  induction as generalizing s with
  | nil => rfl
  | cons a as ih =>
    rw [List.cons_append, run, run, Option.bind_assoc]
    exact congrArg _ (funext fun _ => ih)

/-- A run passes through a state after each of its first parts. -/
theorem run_append_eq_some : run step s (as ++ bs) = some s' ↔ ∃ t, run step s as = some t ∧ run step t bs = some s' := by
  rw [run_append, Option.bind_eq_some_iff]

/-- A run ends with a step. -/
theorem run_concat_eq_some : run step s (as ++ [a]) = some s' ↔ ∃ t, run step s as = some t ∧ step t a = some s' := by
  rw [run_append_eq_some]
  simp only [run, Option.bind_fun_some]

/-- Actions that meet the condition in every state. -/
theorem along_of_forall (h : ∀ a ∈ as, ∀ t, P t a) : Along step P s as := by
  induction as generalizing s with
  | nil => trivial
  | cons a as ih => exact ⟨h a List.mem_cons_self s, fun t _ => ih fun b hb => h b (List.mem_cons_of_mem _ hb)⟩

theorem along_cons (h : step s a = some s') : Along step P s (a :: as) ↔ P s a ∧ Along step P s' as := by
  refine and_congr_right fun _ => ⟨fun hall => hall s' h, fun hall t ht => ?_⟩
  rwa [Option.some.inj (ht.symm.trans h)]

/-- A condition along a run holds along both its parts. -/
theorem along_append (h : run step s as = some s') : Along step P s (as ++ bs) ↔ Along step P s as ∧ Along step P s' bs := by
  induction as generalizing s with
  | nil =>
    obtain rfl := Option.some.inj h
    simp [Along]
  | cons a as ih =>
    obtain ⟨t, ht, hrun⟩ := run_cons_eq_some.1 h
    rw [List.cons_append, along_cons ht, along_cons ht, ih hrun, and_assoc]

/-- Two conditions along one run. -/
theorem Along.and {Q : σ → ι → Prop} (hP : Along step P s as) (hQ : Along step Q s as) :
    Along step (fun s a => P s a ∧ Q s a) s as := by
  induction as generalizing s with
  | nil => trivial
  | cons a as ih => exact ⟨⟨hP.1, hQ.1⟩, fun t ht => ih (hP.2 t ht) (hQ.2 t ht)⟩

/-- **Invariants.** What a step keeps, if its action meets the condition, a run keeps. -/
theorem invariant {I : σ → Prop} (hstep : ∀ s a s', P s a → I s → step s a = some s' → I s') (hs : I s)
    (hP : Along step P s as) (h : run step s as = some s') : I s' := by
  induction as generalizing s with
  | nil =>
    obtain rfl := Option.some.inj h
    exact hs
  | cons a as ih =>
    obtain ⟨t, ht, hrun⟩ := run_cons_eq_some.1 h
    exact ih (hstep s a t hP.1 hs ht) (hP.2 t ht) hrun

/-- A condition that holds in every state a run passes through and fails where an action does not meet `P` makes `P` hold along
the run. -/
theorem along_of_states {I : σ → Prop} (hstep : ∀ s a s', I s → I s' → step s a = some s' → P s a)
    (hI : ∀ pre post t, as = pre ++ post → run step s pre = some t → I t) (h : run step s as = some s') : Along step P s as := by
  induction as generalizing s with
  | nil => trivial
  | cons a as ih =>
    obtain ⟨t, ht, hrun⟩ := run_cons_eq_some.1 h
    refine ⟨hstep s a t (hI [] _ s rfl rfl) (hI [a] as t rfl ?_) ht, fun u hu => ?_⟩
    · rw [run_cons_eq_some]
      exact ⟨t, ht, rfl⟩
    · obtain rfl := Option.some.inj (hu.symm.trans ht)
      refine ih (fun pre post v hv hpre => hI (a :: pre) post v (congrArg _ hv) ?_) hrun
      rw [run_cons_eq_some]
      exact ⟨_, ht, hpre⟩

end Machine
