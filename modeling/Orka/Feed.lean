import Orka.Lib.Machine

/-!
# The events of a job

`_Job` of `ui/backend/jobs.py`: the log of a job's events, the queue of each subscriber and the four functions that work on them.
`subscribe`, `unsubscribe` and `settle` run on the event loop, one after another; `emit` runs on the pack's thread. Besides the
functions as wholes there is a machine whose actions are their single operations on lists and queues, in which those of the
thread fall anywhere between those of the loop.
-/

namespace Orka

variable {E : Type}

/-- The events of a job; a queue is named by the order in which it was made, and `none` in it is `END`. -/
structure Feed (E : Type) where
  log : List E := []
  queues : List (List (Option E)) := []
  subscribers : List ℕ := []
  done : Bool := false
  deriving DecidableEq, Repr

namespace Feed

/-- `q.put_nowait(item)`. -/
def put (f : Feed E) (q : ℕ) (item : Option E) : Feed E := { f with queues := f.queues.modify q (· ++ [item]) }

/-- `for q in list(self._subscribers): q.put_nowait(item)`. -/
def putAll (f : Feed E) (item : Option E) : Feed E := f.subscribers.foldl (fun f q => f.put q item) f

/-- `subscribe()`. -/
def subscribe (f : Feed E) : Feed E :=
  let seeded := { f with queues := f.queues ++ [f.log.map some] }
  if f.done then seeded.put f.queues.length none else { seeded with subscribers := f.subscribers ++ [f.queues.length] }

/-- `unsubscribe(q)`. -/
def unsubscribe (f : Feed E) (q : ℕ) : Feed E := { f with subscribers := f.subscribers.erase q }

/-- `emit(ev)`. -/
def emit (f : Feed E) (ev : E) : Feed E := { f with log := f.log ++ [ev] }.putAll (some ev)

/-- `settle()`. -/
def settle (f : Feed E) : Feed E := { f.putAll none with subscribers := [], done := true }

end Feed

/-- Where the thread is in `emit`: outside, past the append to the log, or handing the event to the queues that are left. -/
inductive Emitting (E : Type) where
  | idle
  | logged (ev : E)
  | fanning (ev : E) (rest : List ℕ)
  deriving DecidableEq, Repr

/-- Where the loop is: outside, in the replay of `subscribe` at a place of the log, past the replay, or in `settle` with the queues
that are left or past its clearing of the subscribers. -/
inductive LoopAt where
  | idle
  | replaying (q i : ℕ)
  | replayed (q n : ℕ)
  | settling (rest : List ℕ)
  | cleared
  deriving DecidableEq, Repr

/-- A feed with the places of the thread and of the loop, the number of events that were in the log when the job settled, and the
queues given up. -/
structure Wire (E : Type) where
  feed : Feed E := {}
  emitting : Emitting E := .idle
  loop : LoopAt := .idle
  settledAt : Option ℕ := none
  gone : List ℕ := []
  deriving DecidableEq, Repr

/-- The single operations. -/
inductive WireAct (E : Type) where
  | append (ev : E)
  | snapshot
  | hand
  | emitted
  | subscribe
  | replay
  | register
  | unsubscribe (q : ℕ)
  | settle
  | handEnd
  | clear
  | finish
  deriving DecidableEq, Repr

namespace Wire

/-- One operation. A list that is iterated over without a copy, the log in `subscribe`, is read as it is at each turn. -/
def step (w : Wire E) : WireAct E → Option (Wire E)
  | .append ev =>
    match w.emitting with
    | .idle => some { w with feed := { w.feed with log := w.feed.log ++ [ev] }, emitting := .logged ev }
    | _ => none
  | .snapshot =>
    match w.emitting with
    | .logged ev => some { w with emitting := .fanning ev w.feed.subscribers }
    | _ => none
  | .hand =>
    match w.emitting with
    | .fanning ev (q :: rest) => some { w with feed := w.feed.put q (some ev), emitting := .fanning ev rest }
    | _ => none
  | .emitted =>
    match w.emitting with
    | .fanning _ [] => some { w with emitting := .idle }
    | _ => none
  | .subscribe =>
    match w.loop with
    | .idle => some { w with feed := { w.feed with queues := w.feed.queues ++ [[]] }, loop := .replaying w.feed.queues.length 0 }
    | _ => none
  | .replay =>
    match w.loop with
    | .replaying q i =>
      match w.feed.log[i]? with
      | some ev => some { w with feed := w.feed.put q (some ev), loop := .replaying q (i + 1) }
      | none => some { w with loop := .replayed q i }
    | _ => none
  | .register =>
    match w.loop with
    | .replayed q _ =>
      if w.feed.done then some { w with feed := w.feed.put q none, loop := .idle }
      else some { w with feed := { w.feed with subscribers := w.feed.subscribers ++ [q] }, loop := .idle }
    | _ => none
  | .unsubscribe q =>
    match w.loop with
    | .idle => if q < w.feed.queues.length then some { w with feed := w.feed.unsubscribe q, gone := q :: w.gone } else none
    | _ => none
  | .settle =>
    match w.loop with
    | .idle => some { w with loop := .settling w.feed.subscribers, settledAt := w.settledAt.or (some w.feed.log.length) }
    | _ => none
  | .handEnd =>
    match w.loop with
    | .settling (q :: rest) => some { w with feed := w.feed.put q none, loop := .settling rest }
    | _ => none
  | .clear =>
    match w.loop with
    | .settling [] => some { w with feed := { w.feed with subscribers := [] }, loop := .cleared }
    | _ => none
  | .finish =>
    match w.loop with
    | .cleared => some { w with feed := { w.feed with done := true }, loop := .idle }
    | _ => none

end Wire

end Orka
