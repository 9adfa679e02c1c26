import Orka.Feed

/-!
# The job queue

`JobQueue` of `ui/backend/jobs.py`: a list of pending jobs and the worker task of the lifecycle that `start` begins and `stop`
ends. What runs between two suspensions of a task is one step. Besides the object's fields the state has the tasks and calls that
are under way and the work in progress in threads. A job is named by the order of its submission.
-/

namespace Orka

inductive JobStatus where
  | queued
  | running
  | done
  | failed
  deriving DecidableEq, Repr

/-- `_Job`, without its runner; `none` for the result or the error is `None`. -/
structure QueueJob (E V : Type) where
  status : JobStatus := .queued
  result : Option V := none
  error : Option String := none
  feed : Feed E := {}
  deriving DecidableEq, Repr

/-- How a runner ends of its own: it returns, raises an `Exception`, or raises what is none, such as `SystemExit` or a
`CancelledError` of its own. -/
inductive RunnerEnd (V : Type) where
  | returned (v : Option V)
  | raised (excType msg : String)
  | escaped
  deriving DecidableEq, Repr

/-- Where a worker task is suspended. -/
inductive WorkerAt where
  | fresh
  | waiting
  | inRunner (job : ℕ)
  | ended
  deriving DecidableEq, Repr

/-- A worker task; a cancelled one has `CancelledError` raised where it is suspended. -/
structure WorkerTask where
  place : WorkerAt := .fresh
  cancelled : Bool := false
  deriving DecidableEq, Repr

/-- The queue, with the worker tasks, the calls of `stop` that wait, each for a job, the calls of `wake.set` handed over from other
threads, each with the lifecycle of its event, and in `working` the jobs whose work is in progress, each with its worker. `begun`
and `returned` record which jobs were begun and what their runners returned. -/
structure JobQueue (E V : Type) where
  jobs : List (QueueJob E V) := []
  pending : List ℕ := []
  wake : Option Bool := none
  worker : Option ℕ := none
  current : Option ℕ := none
  lifecycle : ℕ := 0
  workers : List WorkerTask := []
  stops : List ℕ := []
  calls : List ℕ := []
  working : List (ℕ × ℕ) := []
  begun : List ℕ := []
  returned : List (ℕ × Option V) := []
  deriving DecidableEq, Repr

variable {E V : Type}

namespace QueueJob

/-- `emit`, `subscribe`, `unsubscribe` and `settle` of a job work on its events alone. -/
def onFeed (f : Feed E → Feed E) (job : QueueJob E V) : QueueJob E V := { job with feed := f job.feed }

/-- What a runner's end makes of its job, in the `try` of `_run`: what is no `Exception` is not caught there. -/
def close (job : QueueJob E V) : RunnerEnd V → QueueJob E V
  | .returned v => { job with result := v, status := .done }
  | .raised excType msg => { job with error := some (excType ++ ": " ++ msg), status := .failed }
  | .escaped => job

/-- What `stop` makes of a job that did not settle in time. -/
def abandon (job : QueueJob E V) : QueueJob E V :=
  { job with status := .failed, error := some "server shut down while the job was still running", feed := job.feed.settle }

/-- `wait(job_id)`, once the job has settled; an empty error is no error. -/
def wait (job : QueueJob E V) : Option (Except String (Option V)) :=
  if job.feed.done then
    match job.error with
    | some e => if e ≠ "" then some (.error e) else some (.ok job.result)
    | none => some (.ok job.result)
  else none

end QueueJob

namespace JobQueue

def modifyJob (s : JobQueue E V) (j : ℕ) (f : QueueJob E V → QueueJob E V) : JobQueue E V := { s with jobs := s.jobs.modify j f }

def moveWorker (s : JobQueue E V) (w : ℕ) (place : WorkerAt) : JobQueue E V :=
  { s with workers := s.workers.modify w fun t => { t with place := place } }

/-- `_signal()`, on the loop or from another thread. -/
def signal (s : JobQueue E V) (onLoop : Bool) : JobQueue E V :=
  match s.wake with
  | none => s
  | some _ => if onLoop then { s with wake := some true } else { s with calls := s.calls ++ [s.lifecycle] }

/-- `submit(runner, **kwargs)`. -/
def submit (s : JobQueue E V) (onLoop : Bool) : JobQueue E V :=
  { s with jobs := s.jobs ++ [({} : QueueJob E V)], pending := s.pending ++ [s.jobs.length] }.signal onLoop

/-- `start()`. -/
def start (s : JobQueue E V) : JobQueue E V :=
  match s.worker with
  | some _ => s
  | none => { s with wake := some !s.pending.isEmpty, worker := some s.workers.length, workers := s.workers ++ [({} : WorkerTask)],
                     lifecycle := s.lifecycle + 1 }

/-- The end of `stop()`, from the cancelling of the worker on. -/
def drop (s : JobQueue E V) : JobQueue E V :=
  { s with workers := match s.worker with
                      | some w => s.workers.modify w fun t => { t with cancelled := true }
                      | none => s.workers
           worker := none, current := none, wake := none }

/-- `stop()` up to its first suspension. -/
def stop (s : JobQueue E V) : JobQueue E V :=
  match s.current with
  | some c =>
    match s.jobs[c]? with
    | some job => if job.feed.done then s.drop else { s with stops := s.stops ++ [c] }
    | none => s.drop
  | none => s.drop

/-- The loop of `_run` from its head to the next suspension: a job is begun, or the event is waited for and, if it is set already,
cleared. -/
def takeNext (s : JobQueue E V) (w : ℕ) : JobQueue E V :=
  match s.pending with
  | j :: rest =>
    { s.modifyJob j (fun job => { job with status := .running }) with
      pending := rest, current := some j, working := s.working ++ [(w, j)], begun := s.begun ++ [j] }.moveWorker w (.inRunner j)
  | [] =>
    match s.wake with
    | some _ => { s with wake := some false }.moveWorker w .waiting
    | none => s.moveWorker w .ended

/-- The `finally` part of `_run` after a runner's end. A runner that ends although its worker is `cancelled` has caught the
`CancelledError`, which is raised once, and its thread goes on. -/
def closeJob (s : JobQueue E V) (w j : ℕ) (cancelled : Bool) (outcome : RunnerEnd V) : JobQueue E V :=
  { s.modifyJob j (fun job => (job.close outcome).onFeed Feed.settle) with
    workers := s.workers.modify w fun t => { t with cancelled := false }
    current := none
    working := if cancelled then s.working else s.working.erase (w, j)
    returned := match outcome with
                | .returned v => s.returned ++ [(j, v)]
                | .raised _ _ | .escaped => s.returned }

/-- The end of a job in `_run`, from the runner's end to the next suspension, or to the end of the task where the exception is not
caught. -/
def finish (s : JobQueue E V) (w j : ℕ) (cancelled : Bool) (outcome : RunnerEnd V) : JobQueue E V :=
  match outcome with
  | .escaped => (s.closeJob w j cancelled outcome).moveWorker w .ended
  | .returned _ | .raised _ _ => (s.closeJob w j cancelled outcome).takeNext w

/-- `CancelledError` in `_run`: of a job that is being run only the `finally` part remains. -/
def interrupt (s : JobQueue E V) (w : ℕ) : WorkerAt → JobQueue E V
  | .inRunner j => { s.modifyJob j (QueueJob.onFeed Feed.settle) with current := none }.moveWorker w .ended
  | _ => s.moveWorker w .ended

end JobQueue

/-- The steps: calls from outside, tasks that go on, and threads. -/
inductive QueueAct (E V : Type) where
  | submit (onLoop : Bool)
  | start
  | stop
  | subscribe (j : ℕ)
  | unsubscribe (j q : ℕ)
  | wakeCall
  | drained (k : ℕ)
  | timedOut (k : ℕ)
  | begin (w : ℕ)
  | wakeUp (w : ℕ)
  | finish (w : ℕ) (outcome : RunnerEnd V)
  | interrupt (w : ℕ)
  | emit (w j : ℕ) (ev : E)
  | threadEnd (w j : ℕ)
  deriving DecidableEq, Repr

namespace JobQueue

/-- One step, where it can be taken. A cancelled task takes none but the one that ends it, unless it is in a runner that catches the
`CancelledError`. -/
def step (s : JobQueue E V) : QueueAct E V → Option (JobQueue E V)
  | .submit onLoop => some (s.submit onLoop)
  | .start => some s.start
  | .stop => some s.stop
  | .subscribe j => if j < s.jobs.length then some (s.modifyJob j (QueueJob.onFeed Feed.subscribe)) else none
  | .unsubscribe j q => if j < s.jobs.length then some (s.modifyJob j (QueueJob.onFeed (Feed.unsubscribe · q))) else none
  | .wakeCall =>
    match s.calls with
    | g :: rest =>
      let s := { s with calls := rest }
      if g = s.lifecycle ∧ s.wake.isSome then some { s with wake := some true } else some s
    | [] => none
  | .drained k =>
    match s.stops[k]? with
    | some c =>
      match s.jobs[c]? with
      | some job => if job.feed.done then some { s with stops := s.stops.eraseIdx k }.drop else none
      | none => none
    | none => none
  | .timedOut k =>
    match s.stops[k]? with
    | some c => some ({ s with stops := s.stops.eraseIdx k }.modifyJob c QueueJob.abandon).drop
    | none => none
  | .begin w => if s.workers[w]? = some ⟨.fresh, false⟩ then some (s.takeNext w) else none
  | .wakeUp w =>
    if s.workers[w]? = some ⟨.waiting, false⟩ ∧ s.wake = some true then some ({ s with wake := some false }.takeNext w) else none
  | .finish w outcome =>
    match s.workers[w]? with
    | some ⟨.inRunner j, cancelled⟩ => some (s.finish w j cancelled outcome)
    | _ => none
  | .interrupt w =>
    match s.workers[w]? with
    | some ⟨place, true⟩ => if place = .ended then none else some (s.interrupt w place)
    | _ => none
  | .emit w j ev => if (w, j) ∈ s.working then some (s.modifyJob j (QueueJob.onFeed (Feed.emit · ev))) else none
  | .threadEnd w j => if (w, j) ∈ s.working then some { s with working := s.working.erase (w, j) } else none

end JobQueue

end Orka
