import Orka.Pipeline

/-!
# The background writer

`BackgroundWriter` of `_runtime/io.py`, of which a process has one: its callers submit tasks and wait, and its worker thread takes and
runs the tasks between the calls. A task stands for the name of its function and the exception it raises, if it raises one.
-/

namespace Orka

/-- A task, with the `repr` of the exception it raises. -/
structure WriteTask where
  name : String
  raised : Option String := none
  deriving DecidableEq, Repr

/-- `BackgroundWriter`; `running` is the task of the worker, which `unfinished_tasks` still counts. -/
structure BackgroundWriter where
  queue : List WriteTask := []
  running : Option WriteTask := none
  errors : List (String × String) := []
  started : Bool := false
  deriving DecidableEq, Repr

/-- What happens to the writer: a caller submits or waits, the worker takes a task or is done with it. -/
inductive WriterAction where
  | submit (task : WriteTask)
  | get
  | done
  | wait
  deriving DecidableEq, Repr

namespace BackgroundWriter

/-- `queue.join()` returns. -/
def Joined (w : BackgroundWriter) : Prop := w.queue = [] ∧ w.running = none

instance (w : BackgroundWriter) : Decidable w.Joined := inferInstanceAs (Decidable (_ ∧ _))

/-- What an action does, if it does not block. -/
def step (w : BackgroundWriter) : WriterAction → Option BackgroundWriter
  | .submit task => if w.queue.length < writerQueueDepth then some { w with started := true, queue := w.queue ++ [task] } else none
  | .get =>
    match w.started, w.running, w.queue with
    | true, none, task :: queue => some { w with running := some task, queue := queue }
    | _, _, _ => none
  | .done =>
    match w.running with
    | some task => some { w with running := none, errors := w.errors ++ (task.raised.map fun err => (task.name, err)).toList }
    | none => none
  | .wait => if w.Joined then some w else none

/-- What `wait` returns or raises once `queue.join()` has returned. -/
def waitResult (w : BackgroundWriter) : Except PyErr Unit :=
  if w.errors.isEmpty then .ok ()
  else
    let detail := "; ".intercalate (w.errors.map fun e => e.1 ++ ": " ++ e.2)
    .error (.runtimeError s!"background writes failed ({w.errors.length} error(s)): {detail}")

end BackgroundWriter

end Orka
