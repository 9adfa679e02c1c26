import Orka.Jobs

/-!
# Jobs settle, and run one at a time

Which jobs are begun, and in what order, does not depend on how the workers come and go. A job that is settled when an exception
that is not caught ends its worker, or that is closed by its runner or by `stop`, is done or failed. A queue that is started again only
when no thread of an earlier job is at work keeps the work to one job.
-/

namespace Orka

open Machine

variable {E V : Type}

namespace JobQueue

/-! ## What the functions leave alone -/

/-- Changing a job leaves every other as it was. -/
theorem getElem?_modifyJob (s : JobQueue E V) (j : ℕ) (f : QueueJob E V → QueueJob E V) (i : ℕ) :
    (s.modifyJob j f).jobs[i]? = if i = j then s.jobs[i]?.map f else s.jobs[i]? := by
  rw [modifyJob, List.getElem?_modify]
  by_cases h : i = j
  · simp [h]
  · simp [h, Ne.symm h]

theorem length_modifyJob (s : JobQueue E V) (j : ℕ) (f : QueueJob E V → QueueJob E V) : (s.modifyJob j f).jobs.length = s.jobs.length :=
  List.length_modify ..

/-- A job after a submission was there before or is new. -/
theorem getElem?_submitted {jobs : List (QueueJob E V)} {j : ℕ} {job : QueueJob E V} (h : (jobs ++ [({} : QueueJob E V)])[j]? = some job) :
    jobs[j]? = some job ∨ job = {} := by
  rw [List.getElem?_append] at h
  split at h
  · exact Or.inl h
  · exact Or.inr (List.mem_singleton.1 (List.mem_of_getElem? h))

/-- Moving a worker leaves every other where it was. -/
theorem getElem?_moveWorker (s : JobQueue E V) (w : ℕ) (place : WorkerAt) (i : ℕ) :
    (s.moveWorker w place).workers[i]? =
      if i = w then s.workers[i]?.map fun t => { t with place := place } else s.workers[i]? := by
  rw [moveWorker, List.getElem?_modify]
  by_cases h : i = w
  · simp [h]
  · simp [h, Ne.symm h]

/-! ## What a step can do -/

inductive Next (s : JobQueue E V) : QueueAct E V → JobQueue E V → Prop where
  | submit (onLoop : Bool) : Next s (.submit onLoop) (s.submit onLoop)
  | start : Next s .start s.start
  | stop : Next s .stop s.stop
  | subscribe {j : ℕ} (hj : j < s.jobs.length) : Next s (.subscribe j) (s.modifyJob j (QueueJob.onFeed Feed.subscribe))
  | unsubscribe {j q : ℕ} (hj : j < s.jobs.length) : Next s (.unsubscribe j q) (s.modifyJob j (QueueJob.onFeed (Feed.unsubscribe · q)))
  | wakeCall {g : ℕ} {rest : List ℕ} {wake : Option Bool} (hcalls : s.calls = g :: rest)
      (hwake : wake = s.wake ∨ g = s.lifecycle ∧ s.wake.isSome ∧ wake = some true) :
      Next s .wakeCall { s with calls := rest, wake := wake }
  | drained {k c : ℕ} {job : QueueJob E V} (hk : s.stops[k]? = some c) (hjob : s.jobs[c]? = some job) (hdone : job.feed.done = true) :
      Next s (.drained k) { s with stops := s.stops.eraseIdx k }.drop
  | timedOut {k c : ℕ} (hk : s.stops[k]? = some c) :
      Next s (.timedOut k) ({ s with stops := s.stops.eraseIdx k }.modifyJob c QueueJob.abandon).drop
  | begin {w : ℕ} (hw : s.workers[w]? = some ⟨.fresh, false⟩) : Next s (.begin w) (s.takeNext w)
  | wakeUp {w : ℕ} (hw : s.workers[w]? = some ⟨.waiting, false⟩) (hwake : s.wake = some true) :
      Next s (.wakeUp w) ({ s with wake := some false }.takeNext w)
  | finish {w j : ℕ} {cancelled : Bool} {outcome : RunnerEnd V} (hw : s.workers[w]? = some ⟨.inRunner j, cancelled⟩) :
      Next s (.finish w outcome) (s.finish w j cancelled outcome)
  | interrupt {w : ℕ} {place : WorkerAt} (hw : s.workers[w]? = some ⟨place, true⟩) (hplace : place ≠ .ended) :
      Next s (.interrupt w) (s.interrupt w place)
  | emit {w j : ℕ} {ev : E} (hworking : (w, j) ∈ s.working) :
      Next s (.emit w j ev) (s.modifyJob j (QueueJob.onFeed (Feed.emit · ev)))
  | threadEnd {w j : ℕ} (hworking : (w, j) ∈ s.working) :
      Next s (.threadEnd w j) { s with working := s.working.erase (w, j) }

/-- Every step of the queue is one of the moves of `Next`. -/
theorem next_of_step {s s' : JobQueue E V} {a : QueueAct E V} (h : s.step a = some s') : Next s a s' := by
  cases a with
  | submit onLoop => exact Option.some.inj h ▸ .submit onLoop
  | start => exact Option.some.inj h ▸ .start
  | stop => exact Option.some.inj h ▸ .stop
  | subscribe j =>
    simp only [step] at h
    split at h
    · next hj => exact Option.some.inj h ▸ .subscribe hj
    · cases h
  | unsubscribe j q =>
    simp only [step] at h
    split at h
    · next hj => exact Option.some.inj h ▸ .unsubscribe hj
    · cases h
  | wakeCall =>
    simp only [step] at h
    split at h
    · next g rest hcalls =>
      split at h
      · next hset => exact Option.some.inj h ▸ .wakeCall hcalls (Or.inr ⟨hset.1, hset.2, rfl⟩)
      · exact Option.some.inj h ▸ .wakeCall hcalls (Or.inl rfl)
    · cases h
  | drained k =>
    simp only [step] at h
    split at h
    · next c hk =>
      split at h
      · next job hjob =>
        split at h
        · next hdone => exact Option.some.inj h ▸ .drained hk hjob hdone
        · cases h
      · cases h
    · cases h
  | timedOut k =>
    simp only [step] at h
    split at h
    · next c hk => exact Option.some.inj h ▸ .timedOut hk
    · cases h
  | begin w =>
    simp only [step] at h
    split at h
    · next hw => exact Option.some.inj h ▸ .begin hw
    · cases h
  | wakeUp w =>
    simp only [step] at h
    split at h
    · next hw => exact Option.some.inj h ▸ .wakeUp hw.1 hw.2
    · cases h
  | finish w outcome =>
    simp only [step] at h
    split at h
    · next j cancelled hw => exact Option.some.inj h ▸ .finish hw
    · cases h
  | interrupt w =>
    simp only [step] at h
    split at h
    · next place hw =>
      split at h
      · cases h
      · next hplace => exact Option.some.inj h ▸ .interrupt hw hplace
    · cases h
  | emit w j ev =>
    simp only [step] at h
    split at h
    · next hworking => exact Option.some.inj h ▸ .emit hworking
    · cases h
  | threadEnd w j =>
    simp only [step] at h
    split at h
    · next hworking => exact Option.some.inj h ▸ .threadEnd hworking
    · cases h

/-! ## Jobs are begun in the order of their submission -/

/-- The jobs begun and the jobs pending, in this order, are all jobs in the order of their submission; every job that a worker, a
call of `stop` or the queue itself refers to, and every settled job, was begun. -/
structure Ordered (s : JobQueue E V) : Prop where
  order : s.begun ++ s.pending = List.range s.jobs.length
  current : ∀ c, s.current = some c → c ∈ s.begun
  stops : ∀ c ∈ s.stops, c ∈ s.begun
  inRunner : ∀ (w : ℕ) (t : WorkerTask) (j : ℕ), s.workers[w]? = some t → t.place = .inRunner j → j ∈ s.begun
  settled : ∀ (j : ℕ) (job : QueueJob E V), s.jobs[j]? = some job → job.feed.done = true → j ∈ s.begun

/-- Emitting does not mark the feed done. -/
theorem done_emit (f : Feed E) (ev : E) : (f.emit ev).done = f.done := by
  suffices h : ∀ (qs : List ℕ) (g : Feed E), (qs.foldl (fun g q => g.put q (some ev)) g).done = g.done from h _ _
  intro qs
  induction qs with
  | nil => exact fun g => rfl
  | cons q qs ih => exact fun g => ih _

/-- Subscribing does not mark the feed done. -/
theorem done_subscribe (f : Feed E) : f.subscribe.done = f.done := by
  unfold Feed.subscribe
  split <;> rfl

section Ordered

variable {s : JobQueue E V}

theorem Ordered.nodup (h : s.Ordered) : (s.begun ++ s.pending).Nodup := h.order ▸ List.nodup_range

/-- A job that is changed is settled by the change only if it was begun. -/
theorem Ordered.modifyJob (h : s.Ordered) {j : ℕ} {f : QueueJob E V → QueueJob E V}
    (hf : ∀ job, (f job).feed.done = true → job.feed.done = true ∨ j ∈ s.begun) : (s.modifyJob j f).Ordered := by
  refine { h with
    order := by rw [length_modifyJob]; exact h.order
    settled := fun i job hjob hdone => ?_ }
  rw [getElem?_modifyJob] at hjob
  split at hjob
  · next hij =>
    subst hij
    obtain ⟨job', hjob', rfl⟩ := Option.map_eq_some_iff.1 hjob
    exact (hf job' hdone).elim (h.settled i job' hjob') id
  · exact h.settled i job hjob hdone

/-- A worker may move to a job that has begun. -/
theorem Ordered.moveWorker (h : s.Ordered) {w : ℕ} {place : WorkerAt} (hplace : ∀ j, place = .inRunner j → j ∈ s.begun) :
    (s.moveWorker w place).Ordered := by
  refine { h with inRunner := fun i t j ht hj => ?_ }
  rw [getElem?_moveWorker] at ht
  split at ht
  · obtain ⟨t', -, rfl⟩ := Option.map_eq_some_iff.1 ht
    exact hplace j hj
  · exact h.inRunner i t j ht hj

/-- Dropping the worker touches no job. -/
theorem Ordered.drop (h : s.Ordered) : s.drop.Ordered := by
  refine { h with
    current := nofun
    inRunner := fun i t j ht hj => ?_ }
  unfold JobQueue.drop at ht
  simp only at ht
  split at ht
  · next w _ =>
    rw [List.getElem?_modify, Option.map_eq_map, Option.map_eq_some_iff] at ht
    obtain ⟨t', ht', rfl⟩ := ht
    refine h.inRunner i t' j ht' ?_
    split at hj <;> exact hj
  · exact h.inRunner i t j ht hj

/-- The job taken is the oldest pending one. -/
theorem Ordered.takeNext (h : s.Ordered) (w : ℕ) : (s.takeNext w).Ordered := by
  unfold JobQueue.takeNext
  split
  · next j rest hpending =>
    have hsub : ∀ {i}, i ∈ s.begun → i ∈ s.begun ++ [j] := List.mem_append_left _
    have hjob := h.modifyJob (j := j) (f := fun job => { job with status := .running }) fun job hdone => Or.inl hdone
    have hbegun : Ordered { s.modifyJob j (fun job => { job with status := .running }) with
        pending := rest, current := some j, working := s.working ++ [(w, j)], begun := s.begun ++ [j] } := by
      refine ⟨?_, fun c hc => ?_, fun c hc => hsub (h.stops c hc), fun i t k ht hk => hsub (h.inRunner i t k ht hk),
        fun k job hk hdone => hsub (hjob.settled k job hk hdone)⟩
      · have horder := hjob.order
        change s.begun ++ s.pending = _ at horder
        rw [hpending] at horder
        rw [List.append_assoc]
        exact horder
      · obtain rfl := Option.some.inj hc
        exact List.mem_append_right _ (List.mem_singleton_self _)
    refine hbegun.moveWorker fun k hk => ?_
    cases hk
    exact List.mem_append_right _ (List.mem_singleton_self _)
  · split
    · have hcleared : Ordered { s with wake := some false } := { h with }
      exact hcleared.moveWorker nofun
    · exact h.moveWorker nofun

/-- A submitted job is the last pending one. -/
theorem Ordered.submit (h : s.Ordered) (onLoop : Bool) : (s.submit onLoop).Ordered := by
  have hmore : Ordered { s with jobs := s.jobs ++ [({} : QueueJob E V)], pending := s.pending ++ [s.jobs.length] } := by
    refine { h with
      order := ?_
      settled := fun j job hjob hdone => ?_ }
    · rw [List.length_append, List.length_singleton, List.range_succ, ← h.order, List.append_assoc]
    · rcases getElem?_submitted hjob with hjob | rfl
      · exact h.settled j job hjob hdone
      · cases hdone
  unfold JobQueue.submit JobQueue.signal
  split
  · exact hmore
  · split
    · exact { hmore with }
    · exact { hmore with }

/-- A new worker touches no job. -/
theorem Ordered.start (h : s.Ordered) : s.start.Ordered := by
  unfold JobQueue.start
  split
  · exact h
  · refine { h with inRunner := fun i t j ht hj => ?_ }
    rcases List.mem_append.1 (List.mem_of_getElem? ht) with hmem | hmem
    · obtain ⟨i', hi'⟩ := List.getElem?_of_mem hmem
      exact h.inRunner i' t j hi' hj
    · obtain rfl := List.mem_singleton.1 hmem
      cases hj

/-- Stopping touches no job. -/
theorem Ordered.stop (h : s.Ordered) : s.stop.Ordered := by
  unfold JobQueue.stop
  split
  · next c hc =>
    split
    · split
      · exact h.drop
      · refine { h with stops := fun i hi => ?_ }
        rcases List.mem_append.1 hi with hi | hi
        · exact h.stops i hi
        · exact List.mem_singleton.1 hi ▸ h.current c hc
    · exact h.drop
  · exact h.drop

/-- Another flag of a worker. -/
theorem getElem?_modifyWorker {ts : List WorkerTask} {w i : ℕ} {t : WorkerTask} {f : WorkerTask → WorkerTask}
    (h : (ts.modify w f)[i]? = some t) (hplace : ∀ t, (f t).place = t.place) : ∃ t', ts[i]? = some t' ∧ t.place = t'.place := by
  rw [List.getElem?_modify, Option.map_eq_map, Option.map_eq_some_iff] at h
  obtain ⟨t', ht', rfl⟩ := h
  refine ⟨t', ht', ?_⟩
  split
  · exact hplace t'
  · rfl

/-- Closing a begun job keeps the order. -/
theorem Ordered.closeJob (h : s.Ordered) {w j : ℕ} (hj : j ∈ s.begun) (cancelled : Bool) (outcome : RunnerEnd V) :
    (s.closeJob w j cancelled outcome).Ordered := by
  have hclosed := h.modifyJob (f := fun job => (job.close outcome).onFeed Feed.settle) fun _ _ => Or.inr hj
  refine { hclosed with
    current := nofun
    inRunner := fun i t k ht hk => ?_ }
  obtain ⟨t', ht', hplace⟩ := getElem?_modifyWorker ht fun _ => rfl
  exact h.inRunner i t' k ht' (hplace ▸ hk)

/-- A worker done with a begun job keeps the order. -/
theorem Ordered.finish (h : s.Ordered) {w j : ℕ} (hj : j ∈ s.begun) (cancelled : Bool) (outcome : RunnerEnd V) :
    (s.finish w j cancelled outcome).Ordered := by
  have hclosed := h.closeJob (w := w) hj cancelled outcome
  cases outcome with
  | returned v => exact hclosed.takeNext w
  | raised excType msg => exact hclosed.takeNext w
  | escaped => exact hclosed.moveWorker nofun

/-- A cancelled worker keeps the order. -/
theorem Ordered.interrupt (h : s.Ordered) {w : ℕ} {place : WorkerAt} (hplace : ∀ j, place = .inRunner j → j ∈ s.begun) :
    (s.interrupt w place).Ordered := by
  unfold JobQueue.interrupt
  split
  · next j =>
    have hsettled := h.modifyJob (f := QueueJob.onFeed Feed.settle) fun _ _ => Or.inr (hplace j rfl)
    have hidle : Ordered { s.modifyJob j (QueueJob.onFeed Feed.settle) with current := none } := { hsettled with current := nofun }
    exact hidle.moveWorker nofun
  · exact h.moveWorker nofun

/-- Every step keeps the order. -/
theorem Ordered.step {s' : JobQueue E V} {a : QueueAct E V} (h : s.Ordered) (hs : s.step a = some s') : s'.Ordered := by
  cases next_of_step hs with
  | submit onLoop => exact h.submit onLoop
  | start => exact h.start
  | stop => exact h.stop
  | subscribe hj => exact h.modifyJob fun job hdone => Or.inl ((done_subscribe job.feed).symm.trans hdone)
  | unsubscribe hj => exact h.modifyJob fun job hdone => Or.inl hdone
  | wakeCall hcalls hwake => exact { h with }
  | drained hk hjob hdone => exact Ordered.drop { h with stops := fun i hi => h.stops i (List.mem_of_mem_eraseIdx hi) }
  | timedOut hk =>
    have hc := h.stops _ (List.mem_of_getElem? hk)
    refine Ordered.drop (Ordered.modifyJob ?_ fun _ _ => Or.inr hc)
    exact { h with stops := fun i hi => h.stops i (List.mem_of_mem_eraseIdx hi) }
  | begin hw => exact h.takeNext _
  | wakeUp hw hwake =>
    refine Ordered.takeNext ?_ _
    exact { h with }
  | finish hw => exact h.finish (h.inRunner _ _ _ hw rfl) _ _
  | interrupt hw hplace => exact h.interrupt fun j hj => h.inRunner _ _ j hw hj
  | emit hworking => exact h.modifyJob fun job hdone => Or.inl ((done_emit job.feed _).symm.trans hdone)
  | threadEnd hworking => exact { h with }

theorem ordered_start : Ordered ({} : JobQueue E V) := by
  constructor <;> simp

end Ordered

/-! ## Settled jobs are done or failed -/

/-- Each settled job is done or failed, and has an error or the value that its runner returned. -/
def Settled (s : JobQueue E V) : Prop :=
  ∀ (j : ℕ) (job : QueueJob E V), s.jobs[j]? = some job → job.feed.done = true →
    (job.status = .done ∨ job.status = .failed) ∧ ((∃ e, job.error = some e ∧ e ≠ "") ∨ (j, job.result) ∈ s.returned)

/-- The job a worker is in, if it is in one, has been settled. -/
def InSettled (s : JobQueue E V) (w : ℕ) : Prop :=
  ∀ t j, s.workers[w]? = some t → t.place = .inRunner j → ∃ job, s.jobs[j]? = some job ∧ job.feed.done = true

/-- An exception that is no `Exception`, the `CancelledError` of a cancelled worker or one that the runner raises, leaves a job only
when the job has been settled. -/
def EscapesSettled (s : JobQueue E V) : QueueAct E V → Prop
  | .interrupt w | .finish w .escaped => s.InSettled w
  | _ => True

section Settled

variable {s : JobQueue E V}

/-- A change of a job that keeps a settled job's status, error and result and settles no other. -/
theorem Settled.modifyJob (h : s.Settled) {j : ℕ} {f : QueueJob E V → QueueJob E V}
    (hf : ∀ job, s.jobs[j]? = some job → (f job).feed.done = true →
      ((f job).status = .done ∨ (f job).status = .failed) ∧
        ((∃ e, (f job).error = some e ∧ e ≠ "") ∨ (j, (f job).result) ∈ s.returned)) : (s.modifyJob j f).Settled := by
  intro i job hjob hdone
  rw [getElem?_modifyJob] at hjob
  split at hjob
  · next hij =>
    subst hij
    obtain ⟨job', hjob', rfl⟩ := Option.map_eq_some_iff.1 hjob
    exact hf job' hjob' hdone
  · exact h i job hjob hdone

/-- A change of a job's events that settles no job. -/
theorem Settled.onFeed (h : s.Settled) {j : ℕ} {f : Feed E → Feed E}
    (hf : ∀ job, s.jobs[j]? = some job → (f job.feed).done = true → job.feed.done = true) :
    (s.modifyJob j (QueueJob.onFeed f)).Settled :=
  h.modifyJob fun job hjob hdone => h j job hjob (hf job hjob hdone)

/-- Beginning a job settles none. -/
theorem Settled.takeNext (h : s.Settled) (ho : s.Ordered) (w : ℕ) : (s.takeNext w).Settled := by
  unfold JobQueue.takeNext
  split
  · next j rest hpending =>
    -- a pending job was not begun, so it is not settled
    refine h.modifyJob fun job hjob hdone => ?_
    have hnodup := ho.nodup
    rw [hpending] at hnodup
    exact absurd rfl ((List.nodup_append.1 hnodup).2.2 j (ho.settled j job hjob hdone) j List.mem_cons_self)
  · split <;> exact h

/-- The text of an error is never empty. -/
theorem errorText_ne (excType msg : String) : excType ++ ": " ++ msg ≠ "" := by
  intro h
  have hlength := congrArg String.length h
  simp [String.length_append] at hlength

/-- The job a worker finishes has an end status, unless what ended it escaped. -/
theorem Settled.finish (h : s.Settled) (ho : s.Ordered) {w j : ℕ} (hj : j ∈ s.begun) {cancelled : Bool} {outcome : RunnerEnd V}
    (hescaped : outcome = .escaped → ∃ job, s.jobs[j]? = some job ∧ job.feed.done = true) :
    (s.finish w j cancelled outcome).Settled := by
  have hclosed := ho.closeJob (w := w) hj cancelled outcome
  cases outcome with
  | returned v =>
    refine Settled.takeNext ?_ hclosed w
    have hmore : Settled { s with returned := s.returned ++ [(j, v)] } := by
      intro i job hjob hdone
      obtain ⟨hstatus, hvalue⟩ := h i job hjob hdone
      exact ⟨hstatus, hvalue.imp_right (List.mem_append_left _)⟩
    refine hmore.modifyJob fun job _ _ => ⟨Or.inl rfl, Or.inr ?_⟩
    exact List.mem_append_right _ (List.mem_singleton_self _)
  | raised excType msg =>
    refine Settled.takeNext ?_ hclosed w
    exact h.modifyJob fun job _ _ => ⟨Or.inr rfl, Or.inl ⟨_, rfl, errorText_ne excType msg⟩⟩
  | escaped =>
    -- the job keeps what it was settled with
    obtain ⟨job', hjob', hdone'⟩ := hescaped rfl
    exact h.onFeed (f := Feed.settle) fun job hjob _ => Option.some.inj (hjob'.symm.trans hjob) ▸ hdone'

/-- A step that meets the condition keeps every settled job at an end status. -/
theorem Settled.step {s' : JobQueue E V} {a : QueueAct E V} (hcond : s.EscapesSettled a) (h : s.Settled) (ho : s.Ordered)
    (hs : s.step a = some s') : s'.Settled := by
  cases next_of_step hs with
  | submit onLoop =>
    have hmore : Settled { s with jobs := s.jobs ++ [({} : QueueJob E V)], pending := s.pending ++ [s.jobs.length] } := by
      intro j job hjob hdone
      rcases getElem?_submitted hjob with hjob | rfl
      · exact h j job hjob hdone
      · cases hdone
    unfold JobQueue.submit JobQueue.signal
    split
    · exact hmore
    · split <;> exact hmore
  | start =>
    unfold JobQueue.start
    split <;> exact h
  | stop =>
    unfold JobQueue.stop
    split
    · split
      · split <;> exact h
      · exact h
    · exact h
  | subscribe hj => exact h.onFeed fun job _ hdone => (done_subscribe job.feed).symm.trans hdone
  | unsubscribe hj => exact h.onFeed fun job _ hdone => hdone
  | wakeCall hcalls hwake => exact h
  | drained hk hjob hdone => exact h
  | @timedOut k c hk =>
    have habandoned : (s.modifyJob c QueueJob.abandon).Settled :=
      h.modifyJob fun job _ _ => ⟨Or.inr rfl, Or.inl ⟨_, rfl, by decide⟩⟩
    exact habandoned
  | begin hw => exact h.takeNext ho _
  | wakeUp hw hwake =>
    refine Settled.takeNext ?_ ?_ _
    · exact h
    · exact { ho with }
  | @finish w j cancelled outcome hw =>
    refine h.finish ho (ho.inRunner _ _ _ hw rfl) fun hescaped => ?_
    subst hescaped
    exact hcond _ j hw rfl
  | @interrupt w place hw hplace =>
    unfold JobQueue.interrupt
    split
    · next j =>
      obtain ⟨job', hjob', hdone'⟩ := hcond _ j hw rfl
      exact h.onFeed fun job hjob _ => Option.some.inj (hjob'.symm.trans hjob) ▸ hdone'
    · exact h
  | emit hworking => exact h.onFeed fun job _ hdone => (done_emit job.feed _).symm.trans hdone
  | threadEnd hworking => exact h

/-- The empty queue has no settled job. -/
theorem settled_start : Settled ({} : JobQueue E V) := by
  intro j job hjob
  cases hjob

end Settled

/-! ## One job at a time -/

/-- `start` begins a worker only when no job's work is in progress, and a runner whose worker is cancelled does not catch the
`CancelledError`. -/
def StartsIdle (s : JobQueue E V) : QueueAct E V → Prop
  | .start => s.worker = none → s.working = []
  | .finish w _ => ∀ t, s.workers[w]? = some t → t.cancelled = false
  | _ => True

/-- At most one job's work is in progress; only the queue's own worker can go on, work whose worker was not cancelled is that of the
job its worker is in, and while the queue has a worker there is no work of another. -/
structure Alone (s : JobQueue E V) : Prop where
  atMostOne : s.working.length ≤ 1
  live : ∀ (w : ℕ) (place : WorkerAt), s.workers[w]? = some ⟨place, false⟩ → place ≠ .ended → s.worker = some w
  own : ∀ w j, (w, j) ∈ s.working → ∃ t, s.workers[w]? = some t ∧ (t.cancelled = true ∨ t.place = .inRunner j)
  mine : ∀ w, s.worker = some w → ∀ e ∈ s.working, e.1 = w

section Alone

variable {s : JobQueue E V}

/-- Dropping the worker ends no work and begins none. -/
theorem Alone.drop (h : s.Alone) : s.drop.Alone := by
  cases hworker : s.worker with
  | none =>
    have hsame : s.drop.workers = s.workers := by simp only [JobQueue.drop, hworker]
    refine ⟨h.atMostOne, fun i place hi hplace => ?_, fun i j hj => hsame ▸ h.own i j hj, nofun⟩
    rw [hsame] at hi
    exact absurd (hworker.symm.trans (h.live i place hi hplace)) nofun
  | some w =>
    have hworkers : ∀ i, s.drop.workers[i]? =
      if w = i then s.workers[i]?.map (fun t => { t with cancelled := true }) else s.workers[i]? := by
      intro i
      simp only [JobQueue.drop, hworker, List.getElem?_modify]
      split <;> simp
    refine ⟨h.atMostOne, fun i place hi hplace => ?_, fun i j hj => ?_, nofun⟩
    · rw [hworkers] at hi
      split at hi
      · obtain ⟨t, -, ht⟩ := Option.map_eq_some_iff.1 hi
        cases ht
      · next hne => exact absurd (Option.some.inj (hworker.symm.trans (h.live i place hi hplace))) hne
    · obtain ⟨t, ht, hwhere⟩ := h.own i j hj
      rw [hworkers, ht]
      split
      · exact ⟨_, rfl, Or.inl rfl⟩
      · exact ⟨t, rfl, hwhere⟩

/-- A worker may move while it is the queue's own or cancelled. -/
theorem Alone.moveWorker (h : s.Alone) {w : ℕ} {t : WorkerTask} (hw : s.workers[w]? = some t) {place : WorkerAt}
    (hlive : t.cancelled = false → place ≠ .ended → s.worker = some w)
    (hown : ∀ j, (w, j) ∈ s.working → t.cancelled = true ∨ place = .inRunner j) : (s.moveWorker w place).Alone := by
  refine ⟨h.atMostOne, fun i place' hi hplace => ?_, fun i j hj => ?_, h.mine⟩
  · rw [getElem?_moveWorker] at hi
    split at hi
    · next hiw =>
      rw [hiw, hw] at hi
      have ht := Option.some.inj hi
      exact hiw ▸ hlive (congrArg WorkerTask.cancelled ht) fun hended => hplace ((congrArg WorkerTask.place ht).symm.trans hended)
    · exact h.live i place' hi hplace
  · rw [getElem?_moveWorker]
    split
    · next hiw =>
      rw [hiw, hw]
      exact ⟨_, rfl, hown j (hiw ▸ hj)⟩
    · exact h.own i j hj

/-- A worker that is in no job, or whose job's work is over, goes on. -/
theorem Alone.takeNext (h : s.Alone) {w : ℕ} {place : WorkerAt} (hw : s.workers[w]? = some ⟨place, false⟩) (hplace : place ≠ .ended)
    (hidle : ∀ j, (w, j) ∉ s.working) : (s.takeNext w).Alone := by
  have hworker := h.live w place hw hplace
  -- the queue's worker has no work in progress, so there is none
  have hnone : s.working = [] := by
    refine List.eq_nil_iff_forall_not_mem.2 fun e he => hidle e.2 ?_
    rw [← h.mine w hworker e he]
    exact he
  unfold JobQueue.takeNext
  split
  · next j rest hpending =>
    rw [hnone]
    refine ⟨le_refl 1, fun i place' hi hplace' => ?_, fun i k hk => ?_, fun i hi e he => ?_⟩
    · rw [getElem?_moveWorker] at hi
      split at hi
      · next hiw => exact hiw ▸ hworker
      · exact h.live i place' hi hplace'
    · cases List.mem_singleton.1 hk
      rw [getElem?_moveWorker, if_pos rfl]
      exact ⟨_, congrArg (Option.map _) hw, Or.inr rfl⟩
    · cases List.mem_singleton.1 he
      exact Option.some.inj (hworker.symm.trans hi)
  · split
    · have hcleared : Alone { s with wake := some false } := { h with }
      exact hcleared.moveWorker hw (fun _ _ => hworker) fun j hj => absurd hj (hidle j)
    · exact h.moveWorker hw (fun _ _ => hworker) fun j hj => absurd hj (hidle j)

/-- A worker in no job has no work in progress. -/
theorem Alone.idle (h : s.Alone) {w : ℕ} {place : WorkerAt} (hw : s.workers[w]? = some ⟨place, false⟩)
    (hplace : ∀ j, place ≠ .inRunner j) (j : ℕ) : (w, j) ∉ s.working := by
  intro hj
  obtain ⟨t, ht, hwhere⟩ := h.own w j hj
  obtain rfl := Option.some.inj (hw.symm.trans ht)
  exact hwhere.elim nofun (hplace j)

/-- A worker whose job's runner ends has no other work in progress. -/
theorem Alone.idle_erase (h : s.Alone) {w j : ℕ} (hw : s.workers[w]? = some ⟨.inRunner j, false⟩) (i : ℕ) :
    (w, i) ∉ s.working.erase (w, j) := by
  intro hi
  obtain ⟨t, ht, hwhere⟩ := h.own w i (List.mem_of_mem_erase hi)
  obtain rfl := Option.some.inj (hw.symm.trans ht)
  obtain rfl : j = i := WorkerAt.inRunner.inj (hwhere.resolve_left nofun)
  have hlength := List.length_erase_of_mem (List.mem_of_mem_erase hi)
  have hmost := h.atMostOne
  have hpos := List.length_pos_of_mem hi
  omega

/-- A new worker is alone where nothing is in progress. -/
theorem Alone.start (hcond : s.worker = none → s.working = []) (h : s.Alone) : s.start.Alone := by
  unfold JobQueue.start
  split
  · exact h
  · next hnone =>
    have hidle := hcond hnone
    refine ⟨h.atMostOne, fun i place hi hplace => ?_, fun i j hj => ?_, fun i _ e he => ?_⟩
    · rw [List.getElem?_append] at hi
      split at hi
      · exact absurd (hnone.symm.trans (h.live i place hi hplace)) nofun
      · next hlt =>
        have hle := (List.getElem?_eq_some_iff.1 hi).1
        rw [List.length_singleton] at hle
        exact congrArg some (by omega)
    · obtain ⟨t, ht, hwhere⟩ := h.own i j hj
      exact ⟨t, by rw [List.getElem?_append_left (List.getElem?_eq_some_iff.1 ht).1]; exact ht, hwhere⟩
    · rw [hidle] at he
      cases he

/-- The end of a runner whose worker is not cancelled. -/
theorem Alone.finish (h : s.Alone) {w j : ℕ} (hw : s.workers[w]? = some ⟨.inRunner j, false⟩) (outcome : RunnerEnd V) :
    (s.finish w j false outcome).Alone := by
  have hworkers : (s.workers.modify w fun t => { t with cancelled := false }) = s.workers := by
    refine List.ext_getElem? fun i => ?_
    rw [List.getElem?_modify]
    split
    · next hi =>
      subst hi
      rw [hw]
      rfl
    · simp
  have hclosed : (s.closeJob w j false outcome).Alone := by
    unfold JobQueue.closeJob
    rw [hworkers]
    exact { h with
      atMostOne := (List.length_erase_le ..).trans h.atMostOne
      own := fun w j hj => h.own w j (List.mem_of_mem_erase hj)
      mine := fun w hw e he => h.mine w hw e (List.mem_of_mem_erase he) }
  have hw' : (s.closeJob w j false outcome).workers[w]? = some ⟨.inRunner j, false⟩ := by
    unfold JobQueue.closeJob
    rw [hworkers]
    exact hw
  have hidle (i : ℕ) : (w, i) ∉ (s.closeJob w j false outcome).working := h.idle_erase hw i
  cases outcome with
  | returned v => exact hclosed.takeNext hw' nofun hidle
  | raised excType msg => exact hclosed.takeNext hw' nofun hidle
  | escaped => exact hclosed.moveWorker hw' (fun _ hended => absurd rfl hended) fun i hi => absurd hi (hidle i)

/-- A step that meets the condition keeps one job at most in progress. -/
theorem Alone.step {s' : JobQueue E V} {a : QueueAct E V} (hcond : s.StartsIdle a) (h : s.Alone) (hs : s.step a = some s') :
    s'.Alone := by
  cases next_of_step hs with
  | submit onLoop =>
    unfold JobQueue.submit JobQueue.signal
    split
    · exact { h with }
    · split <;> exact { h with }
  | start => exact h.start hcond
  | stop =>
    unfold JobQueue.stop
    split
    · split
      · split
        · exact h.drop
        · exact { h with }
      · exact h.drop
    · exact h.drop
  | subscribe hj => exact { h with }
  | unsubscribe hj => exact { h with }
  | wakeCall hcalls hwake => exact { h with }
  | drained hk hjob hdone =>
    refine Alone.drop ?_
    exact { h with }
  | timedOut hk =>
    refine Alone.drop ?_
    exact { h with }
  | begin hw => exact h.takeNext hw nofun (h.idle hw nofun)
  | wakeUp hw hwake =>
    refine Alone.takeNext ?_ hw nofun (h.idle hw nofun)
    exact { h with }
  | finish hw =>
    obtain rfl := hcond _ hw
    exact h.finish hw _
  | @interrupt w place hw hplace =>
    cases place with
    | inRunner j =>
      have hsettled : Alone { s.modifyJob j (QueueJob.onFeed Feed.settle) with current := none } := { h with }
      exact hsettled.moveWorker hw (fun _ hended => absurd rfl hended) fun _ _ => Or.inl rfl
    | fresh => exact h.moveWorker hw (fun _ hended => absurd rfl hended) fun _ _ => Or.inl rfl
    | waiting => exact h.moveWorker hw (fun _ hended => absurd rfl hended) fun _ _ => Or.inl rfl
    | ended => exact absurd rfl hplace
  | emit hworking => exact { h with }
  | threadEnd hworking =>
    exact { h with
      atMostOne := (List.length_erase_le ..).trans h.atMostOne
      own := fun w j hj => h.own w j (List.mem_of_mem_erase hj)
      mine := fun w hw e he => h.mine w hw e (List.mem_of_mem_erase he) }

theorem alone_start : Alone ({} : JobQueue E V) := by
  constructor <;> simp

end Alone

end JobQueue

open JobQueue

/-- In a run in which an exception that is no `Exception` leaves a job only when the job has been settled, every settled job is done or
failed, and `wait` returns only what the job's runner returned. -/
theorem settled_job_ended {acts : List (QueueAct E V)} {s : JobQueue E V} (hrun : run step {} acts = some s)
    (hcond : Along step EscapesSettled {} acts) {j : ℕ} {job : QueueJob E V} (hjob : s.jobs[j]? = some job) :
    (job.feed.done = true → job.status = .done ∨ job.status = .failed) ∧
      ∀ v, job.wait = some (.ok v) → (j, v) ∈ s.returned := by
  have h : s.Ordered ∧ s.Settled := Machine.invariant (I := fun s => s.Ordered ∧ s.Settled)
    (fun s a s' hP hI hs => ⟨hI.1.step hs, hI.2.step hP hI.1 hs⟩) ⟨ordered_start, settled_start⟩ hcond hrun
  refine ⟨fun hdone => (h.2 j job hjob hdone).1, fun v hv => ?_⟩
  unfold QueueJob.wait at hv
  split at hv
  · next hdone =>
    obtain ⟨e, he, hne⟩ | hvalue := (h.2 j job hjob hdone).2
    · simp [he, hne] at hv
    · split at hv
      · split at hv
        · cases hv
        · cases hv
          exact hvalue
      · cases hv
        exact hvalue
  · cases hv

/-- A job that `stop` gives up on before the worker is interrupted in it. -/
def abandonedJob : QueueJob ℕ ℕ := QueueJob.abandon { status := .running }

/-- The abandoned job's feed is done and its status is an end status. -/
theorem settled_job_ended_abandoned :
    (abandonedJob.feed.done = true → abandonedJob.status = .done ∨ abandonedJob.status = .failed) ∧
      ∀ v, abandonedJob.wait = some (.ok v) → (0, v) ∈ ([] : List (ℕ × Option ℕ)) := by
  have hcond : Along step EscapesSettled ({} : JobQueue ℕ ℕ)
      ([.submit true, .start, .begin 0, .stop, .timedOut 0] ++ [.interrupt 0]) := by
    refine (along_append rfl).2 ⟨along_of_forall (by simp [EscapesSettled]), fun t j ht hj => ?_, fun _ _ => trivial⟩
    obtain rfl := Option.some.inj ht
    obtain rfl : 0 = j := WorkerAt.inRunner.inj hj
    exact ⟨abandonedJob, rfl, rfl⟩
  exact @settled_job_ended ℕ ℕ _ _ rfl hcond 0 abandonedJob rfl

/-- `stop` waits for the first of two jobs; the worker goes on to the second, and is interrupted in it. -/
theorem settled_job_running :
    ∃ s : JobQueue ℕ ℕ, run step {} [.submit true, .submit true, .start, .begin 0, .stop, .finish 0 (.returned (some 5)), .drained 0,
        .interrupt 0] = some s ∧
      s.returned = [(0, some 5)] ∧
      ∃ job, s.jobs[1]? = some job ∧ job.feed.done = true ∧ job.status = .running ∧ job.wait = some (.ok none) :=
  ⟨_, rfl, rfl, _, rfl, rfl, rfl, rfl⟩

/-- In a run in which `start` begins a worker only when no job's work is in progress, and no runner catches the `CancelledError` of its
worker, at most one job's work is in progress at any time; and in every run the jobs are begun in the order of their submission. -/
theorem one_job_in_progress {acts : List (QueueAct E V)} {s : JobQueue E V} (hrun : run step {} acts = some s) :
    (Along step StartsIdle {} acts → s.working.length ≤ 1) ∧ s.begun ++ s.pending = List.range s.jobs.length := by
  constructor
  · intro hcond
    have h : s.Alone := Machine.invariant (fun s a s' hP hI hs => Alone.step hP hI hs) alone_start hcond hrun
    exact h.atMostOne
  · have h : s.Ordered := Machine.invariant (P := fun _ _ => True) (fun s a s' _ hI hs => hI.step hs) ordered_start
      (along_of_forall fun _ _ _ => trivial) hrun
    exact h.order

/-- `stop` gives up on the first of two jobs, and a second lifecycle starts when its thread has ended. -/
def restarted : List (QueueAct ℕ ℕ) :=
  [.submit true, .submit true, .start, .begin 0, .stop, .timedOut 0, .interrupt 0, .threadEnd 0 0] ++ [.start, .begin 1]

/-- Two jobs, a stop and a start between them, one in progress. -/
theorem one_job_in_progress_restarted : [(1, 1)].length ≤ 1 ∧ [0, 1] ++ [] = List.range 2 := by
  have hcond : Along step StartsIdle ({} : JobQueue ℕ ℕ) restarted := by
    refine (along_append rfl).2 ⟨?_, (along_cons rfl).2 ⟨fun _ => rfl, along_of_forall (by simp [StartsIdle])⟩⟩
    refine (along_cons rfl).2 ⟨trivial, (along_cons rfl).2 ⟨trivial, (along_cons rfl).2 ⟨fun _ => rfl, ?_⟩⟩⟩
    exact along_of_forall (by simp [StartsIdle])
  have hboth := @one_job_in_progress ℕ ℕ restarted _ rfl
  exact ⟨hboth.1 hcond, hboth.2⟩

/-- `stop` gives up on the first of two jobs, whose thread goes on; the worker of a second lifecycle begins the other one. -/
theorem two_jobs_in_progress :
    ∃ s : JobQueue ℕ ℕ, run step {} [.submit true, .submit true, .start, .begin 0, .stop, .timedOut 0, .interrupt 0, .start,
        .begin 1] = some s ∧ s.working = [(0, 0), (1, 1)] :=
  ⟨_, rfl, rfl⟩

end Orka
