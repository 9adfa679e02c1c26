import Orka.BackgroundWriter

/-!
# What a wait reports

The errors of the writer are never cleared. A wait raises if any task of the process has failed so far, so it reports the tasks since
the wait before it only as long as no earlier task has failed.
-/

namespace Orka

open Machine

namespace BackgroundWriter

/-- What the tasks that failed leave in the errors. -/
def failures (tasks : List WriteTask) : List (String × String) :=
  tasks.flatMap fun task => (task.raised.map fun err => (task.name, err)).toList

theorem failures_append (a b : List WriteTask) : failures (a ++ b) = failures a ++ failures b := List.flatMap_append

/-- There is no failure exactly when no task raised. -/
theorem failures_eq_nil {tasks : List WriteTask} : failures tasks = [] ↔ ¬ ∃ task ∈ tasks, task.raised.isSome = true := by
  unfold failures
  rw [List.flatMap_eq_nil_iff]
  constructor
  · rintro h ⟨task, htask, hraised⟩
    have := h task htask
    obtain ⟨err, he⟩ := Option.isSome_iff_exists.1 hraised
    rw [he] at this
    cases this
  · intro h task htask
    cases hr : task.raised with
    | none => rfl
    | some err => exact absurd ⟨task, htask, by rw [hr]; rfl⟩ h

/-- The task an action submits. -/
def submitted : WriterAction → List WriteTask
  | .submit task => [task]
  | _ => []

/-- One more action, after the tasks submitted up to the last wait and those since. -/
def remember (past : List WriteTask × List WriteTask) : WriterAction → List WriteTask × List WriteTask
  | .submit task => (past.1, past.2 ++ [task])
  | .wait => (past.1 ++ past.2, [])
  | .get | .done => past

/-- The tasks submitted up to the last wait, and those since. -/
def history (actions : List WriterAction) : List WriteTask × List WriteTask := actions.foldl remember ([], [])

/-- The tasks the writer has not finished, the oldest first. -/
def unfinished (w : BackgroundWriter) : List WriteTask := w.running.toList ++ w.queue

/-- One action: what the errors hold, and will hold of the unfinished tasks, changes by the task that is submitted. -/
theorem step_errors {w w' : BackgroundWriter} {action : WriterAction} (h : w.step action = some w') :
    w'.errors ++ failures w'.unfinished = w.errors ++ failures w.unfinished ++ failures (submitted action) := by
  cases action with
  | submit task =>
    simp only [step] at h
    split at h
    · obtain rfl := Option.some.inj h
      simp only [unfinished, submitted, ← List.append_assoc, failures_append]
    · cases h
  | get =>
    simp only [step] at h
    split at h
    · next hrunning hqueue =>
      obtain rfl := Option.some.inj h
      simp only [unfinished, hrunning, hqueue, Option.toList_none, Option.toList_some, List.nil_append, List.singleton_append]
      exact (List.append_nil _).symm
    · cases h
  | done =>
    simp only [step] at h
    split at h
    · next task hrunning =>
      obtain rfl := Option.some.inj h
      simp only [unfinished, hrunning, Option.toList_none, Option.toList_some, List.nil_append, failures_append, List.append_assoc]
      simp [failures, submitted]
    · cases h
  | wait =>
    simp only [step] at h
    split at h
    · obtain rfl := Option.some.inj h
      exact (List.append_nil _).symm
    · cases h

/-- **Runs.** The errors are the failures of all the tasks that were submitted and are finished. -/
theorem run_errors {actions : List WriterAction} {w : BackgroundWriter} (h : run step {} actions = some w) :
    w.errors ++ failures w.unfinished = failures ((history actions).1 ++ (history actions).2) := by
  induction actions using List.reverseRecOn generalizing w with
  | nil =>
    obtain rfl := Option.some.inj h
    rfl
  | append_singleton actions action ih =>
    obtain ⟨t, ht, hstep⟩ := run_concat_eq_some.1 h
    rw [step_errors hstep, ih ht, ← failures_append]
    rw [show history (actions ++ [action]) = remember (history actions) action from List.foldl_append]
    cases action with
    | submit task => simp only [submitted, remember, List.append_assoc]
    | get => simp only [submitted, remember, List.append_nil]
    | done => simp only [submitted, remember, List.append_nil]
    | wait => simp only [submitted, remember, List.append_nil]

/-- A wait raises if any task was submitted before it that failed. -/
theorem wait_raises_iff {actions : List WriterAction} {w : BackgroundWriter} (h : run step {} actions = some w) (hjoin : w.Joined) :
    (∃ e, w.waitResult = .error e) ↔
      (∃ task ∈ (history actions).1, task.raised.isSome = true) ∨ ∃ task ∈ (history actions).2, task.raised.isSome = true := by
  have herrors := run_errors h
  rw [unfinished, hjoin.1, hjoin.2, Option.toList_none, List.append_nil] at herrors
  have hraises : (∃ e, w.waitResult = .error e) ↔ w.errors ≠ [] := by
    unfold waitResult
    cases w.errors with
    | nil => exact iff_of_false nofun fun hne => hne rfl
    | cons e es => exact iff_of_true ⟨_, rfl⟩ nofun
  rw [show failures [] = [] from rfl, List.append_nil] at herrors
  rw [hraises, herrors, Ne, failures_eq_nil, not_not]
  simp only [List.mem_append, or_and_right, exists_or]

/-- **What a wait reports.** In every run, a wait raises exactly if a task submitted since the wait before it failed, if and only if
no task submitted up to that wait failed, unless one since did too. -/
theorem wait_raises_since_iff {actions : List WriterAction} {w : BackgroundWriter} (h : run step {} actions = some w) (hjoin : w.Joined) :
    ((∃ e, w.waitResult = .error e) ↔ ∃ task ∈ (history actions).2, task.raised.isSome = true) ↔
      ((∃ task ∈ (history actions).1, task.raised.isSome = true) → ∃ task ∈ (history actions).2, task.raised.isSome = true) := by
  rw [wait_raises_iff h hjoin]
  exact or_iff_right_iff_imp

/-- A failed write that a wait has reported, and a later write that succeeds. -/
def twoPacks : List WriterAction :=
  [.submit ⟨"_write_codebook", some "OSError(28, 'No space left on device')"⟩, .get, .done, .wait, .submit ⟨"_write_codebook", none⟩,
    .get, .done]

/-- The wait of the second pack raises, although none of its tasks has failed. -/
theorem later_wait_raises : ∃ w, run step {} twoPacks = some w ∧ w.Joined ∧ (∃ e, w.waitResult = .error e) ∧
    ¬ ∃ task ∈ (history twoPacks).2, task.raised.isSome = true :=
  ⟨⟨[], none, [("_write_codebook", "OSError(28, 'No space left on device')")], true⟩, by decide, by decide, ⟨_, rfl⟩, by decide⟩

/-- The wait of the first pack. -/
theorem wait_raises_since_iff_first :
    ((∃ e, BackgroundWriter.waitResult ⟨[], none, [("_write_codebook", "OSError(28, 'No space left on device')")], true⟩ = .error e) ↔
      ∃ task ∈ (history (twoPacks.take 3)).2, task.raised.isSome = true) ↔
        ((∃ task ∈ (history (twoPacks.take 3)).1, task.raised.isSome = true) →
          ∃ task ∈ (history (twoPacks.take 3)).2, task.raised.isSome = true) :=
  wait_raises_since_iff (by decide : run step {} (twoPacks.take 3) = some _) (by decide)

end BackgroundWriter

end Orka
