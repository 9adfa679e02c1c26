import Orka.Feed

/-!
# What a subscriber receives

The single operations of a function, one after another, do what the function does. In any order of the operations in which a queue
is registered when the events handed out are those it was seeded with, and a job settles when no event is on its way to a
registered queue, each queue holds the events of the job in order and then `END`.
-/

namespace Orka

open Machine

variable {E : Type}

namespace Wire

/-- The queue is being made by `subscribe`. -/
def Joining (w : Wire E) (q : ℕ) : Prop := ∃ n, w.loop = .replaying q n ∨ w.loop = .replayed q n

/-- The queue is among those the thread has still to hand its event to. -/
def Awaits (w : Wire E) (q : ℕ) : Prop := ∃ ev rest, w.emitting = .fanning ev rest ∧ q ∈ rest

/-- The thread has an event for the registered queue: it has yet to look who is registered, or to hand the event over. -/
def Owes (w : Wire E) (q : ℕ) : Prop := (∃ ev, w.emitting = .logged ev) ∨ w.Awaits q

/-- The number of events whose subscribers have been looked up. -/
def handedOut (w : Wire E) : ℕ :=
  match w.emitting with
  | .logged _ => w.feed.log.length - 1
  | _ => w.feed.log.length

/-- A queue is registered when the events handed out are those it was seeded with, or given its `END` when these are the events of
the job; no event is looked up for a settled job's subscribers, and a job settles when its subscribers are owed nothing. -/
def Orderly (w : Wire E) : WireAct E → Prop
  | .snapshot => w.settledAt.isSome → w.feed.subscribers = []
  | .register => ∀ q n, w.loop = .replayed q n → if w.feed.done then w.settledAt = some n else w.handedOut = n
  | .settle => ∀ q ∈ w.feed.subscribers, ¬ w.Owes q
  | _ => True

/-- A queue holds the first `n` events, and `END` after them if it has ended. -/
def Holds (w : Wire E) (q n : ℕ) (ended : Bool) : Prop :=
  w.feed.queues[q]? = some ((w.feed.log.take n).map some ++ if ended then [none] else [])

/-- What holds in every state of an orderly run. -/
structure Sound (w : Wire E) : Prop where
  nodup : w.feed.subscribers.Nodup
  registered : ∀ q ∈ w.feed.subscribers, q < w.feed.queues.length ∧ q ∉ w.gone ∧ ¬ w.Joining q
  given_up : ∀ q ∈ w.gone, q < w.feed.queues.length
  joining : ∀ q, w.Joining q → q < w.feed.queues.length ∧ q ∉ w.gone ∧ ¬ w.Awaits q
  fanning : ∀ ev rest, w.emitting = .fanning ev rest → rest.Nodup ∧
    ∀ q ∈ rest, q < w.feed.queues.length ∧ (q ∈ w.gone ∨ q ∈ w.feed.subscribers)
  flight : ∀ ev, w.emitting = .logged ev ∨ (∃ rest, w.emitting = .fanning ev rest) → w.feed.log.getLast? = some ev
  settled : ∀ m, w.settledAt = some m → m ≤ w.feed.log.length ∧ ∀ q ∈ w.feed.subscribers, ¬ w.Awaits q
  settling : ∀ rest, w.loop = .settling rest → w.settledAt.isSome ∧ rest.Nodup ∧ ∀ q ∈ rest, q ∈ w.feed.subscribers
  cleared : w.loop = .cleared → w.settledAt.isSome ∧ w.feed.subscribers = []
  quiet : (∀ rest, w.loop ≠ .settling rest) → w.loop ≠ .cleared → w.feed.done = w.settledAt.isSome
  done_settled : w.feed.done → w.settledAt.isSome ∧ w.feed.subscribers = []
  seeded : ∀ q n, w.loop = .replaying q n ∨ w.loop = .replayed q n → n ≤ w.feed.log.length ∧ w.Holds q n false
  live : w.settledAt = none → ∀ q ∈ w.feed.subscribers,
    (w.Owes q ∧ w.Holds q (w.feed.log.length - 1) false) ∨ (¬ w.Owes q ∧ w.Holds q w.feed.log.length false)
  ending : ∀ m rest, w.settledAt = some m → w.loop = .settling rest → ∀ q ∈ w.feed.subscribers, w.Holds q m (q ∉ rest)
  ended : ∀ m, w.settledAt = some m → ∀ q < w.feed.queues.length, q ∉ w.gone → q ∉ w.feed.subscribers → ¬ w.Joining q → w.Holds q m true
  known : w.settledAt = none → ∀ q < w.feed.queues.length, q ∉ w.gone → q ∈ w.feed.subscribers ∨ w.Joining q

/-! ## Single operations -/

/-- What an operation can do. -/
inductive Next (w : Wire E) : WireAct E → Wire E → Prop where
  | append {ev : E} (hidle : w.emitting = .idle) :
      Next w (.append ev) { w with feed := { w.feed with log := w.feed.log ++ [ev] }, emitting := .logged ev }
  | snapshot {ev : E} (hlogged : w.emitting = .logged ev) : Next w .snapshot { w with emitting := .fanning ev w.feed.subscribers }
  | hand {ev : E} {q : ℕ} {rest : List ℕ} (hfan : w.emitting = .fanning ev (q :: rest)) :
      Next w .hand { w with feed := w.feed.put q (some ev), emitting := .fanning ev rest }
  | emitted {ev : E} (hfan : w.emitting = .fanning ev []) : Next w .emitted { w with emitting := .idle }
  | subscribe (hidle : w.loop = .idle) : Next w .subscribe
      { w with feed := { w.feed with queues := w.feed.queues ++ [[]] }, loop := .replaying w.feed.queues.length 0 }
  | replay {q i : ℕ} {ev : E} (hloop : w.loop = .replaying q i) (hev : w.feed.log[i]? = some ev) :
      Next w .replay { w with feed := w.feed.put q (some ev), loop := .replaying q (i + 1) }
  | replayEnd {q i : ℕ} (hloop : w.loop = .replaying q i) (hend : w.feed.log[i]? = none) :
      Next w .replay { w with loop := .replayed q i }
  | registerEnd {q n : ℕ} (hloop : w.loop = .replayed q n) (hdone : w.feed.done = true) :
      Next w .register { w with feed := w.feed.put q none, loop := .idle }
  | register {q n : ℕ} (hloop : w.loop = .replayed q n) (hdone : w.feed.done = false) :
      Next w .register { w with feed := { w.feed with subscribers := w.feed.subscribers ++ [q] }, loop := .idle }
  | unsubscribe {q : ℕ} (hidle : w.loop = .idle) (hq : q < w.feed.queues.length) :
      Next w (.unsubscribe q) { w with feed := w.feed.unsubscribe q, loop := .idle, gone := q :: w.gone }
  | settle (hidle : w.loop = .idle) : Next w .settle
      { w with loop := .settling w.feed.subscribers, settledAt := w.settledAt.or (some w.feed.log.length) }
  | handEnd {q : ℕ} {rest : List ℕ} (hloop : w.loop = .settling (q :: rest)) :
      Next w .handEnd { w with feed := w.feed.put q none, loop := .settling rest }
  | clear (hloop : w.loop = .settling []) : Next w .clear { w with feed := { w.feed with subscribers := [] }, loop := .cleared }
  | finish (hloop : w.loop = .cleared) : Next w .finish { w with feed := { w.feed with done := true }, loop := .idle }

/-- Every step of the feed is one of the moves of `Next`. -/
theorem next_of_step {w w' : Wire E} {a : WireAct E} (h : w.step a = some w') : Next w a w' := by
  cases a with
  | append ev =>
    cases he : w.emitting <;> simp only [step, he, Option.some.injEq, reduceCtorEq] at h
    exact h ▸ .append he
  | snapshot =>
    cases he : w.emitting <;> simp only [step, he, Option.some.injEq, reduceCtorEq] at h
    exact h ▸ .snapshot he
  | hand =>
    rcases he : w.emitting with _ | _ | ⟨ev, _ | ⟨q, rest⟩⟩ <;> simp only [step, he, Option.some.injEq, reduceCtorEq] at h
    exact h ▸ .hand he
  | emitted =>
    rcases he : w.emitting with _ | _ | ⟨ev, _ | ⟨q, rest⟩⟩ <;> simp only [step, he, Option.some.injEq, reduceCtorEq] at h
    exact h ▸ .emitted he
  | subscribe =>
    cases hl : w.loop <;> simp only [step, hl, Option.some.injEq, reduceCtorEq] at h
    exact h ▸ .subscribe hl
  | replay =>
    cases hl : w.loop <;> simp only [step, hl, reduceCtorEq] at h
    next q i =>
    cases hev : w.feed.log[i]? <;> simp only [hev, Option.some.injEq] at h
    · exact h ▸ .replayEnd hl hev
    · exact h ▸ .replay hl hev
  | register =>
    cases hl : w.loop <;> simp only [step, hl, reduceCtorEq] at h
    next q n =>
    split at h
    · next hd => exact (Option.some.inj h) ▸ .registerEnd hl hd
    · next hd => exact (Option.some.inj h) ▸ .register hl (Bool.eq_false_of_not_eq_true hd)
  | unsubscribe q =>
    cases hl : w.loop <;> simp only [step, hl, reduceCtorEq] at h
    split at h
    · next hq => exact (Option.some.inj h) ▸ .unsubscribe hl hq
    · cases h
  | settle =>
    cases hl : w.loop <;> simp only [step, hl, Option.some.injEq, reduceCtorEq] at h
    exact h ▸ .settle hl
  | handEnd =>
    rcases hl : w.loop with _ | _ | _ | ⟨_ | ⟨q, rest⟩⟩ | _ <;> simp only [step, hl, Option.some.injEq, reduceCtorEq] at h
    exact h ▸ .handEnd hl
  | clear =>
    rcases hl : w.loop with _ | _ | _ | ⟨_ | ⟨q, rest⟩⟩ | _ <;> simp only [step, hl, Option.some.injEq, reduceCtorEq] at h
    exact h ▸ .clear hl
  | finish =>
    cases hl : w.loop <;> simp only [step, hl, Option.some.injEq, reduceCtorEq] at h
    exact h ▸ .finish hl

section Keep

variable {w w' : Wire E}

theorem length_put (f : Feed E) (q : ℕ) (item : Option E) : (f.put q item).queues.length = f.queues.length := List.length_modify ..

/-- An item handed to a queue is appended to it and to no other. -/
theorem getElem?_put (f : Feed E) (q : ℕ) (item : Option E) (p : ℕ) :
    (f.put q item).queues[p]? = if p = q then f.queues[p]?.map (· ++ [item]) else f.queues[p]? := by
  rw [Feed.put, List.getElem?_modify]
  by_cases h : p = q
  · simp [h]
  · simp [h, Ne.symm h]

theorem not_joining (h : w.loop = .idle) (q : ℕ) : ¬ w.Joining q := by simp [Joining, h]

section Queue

variable {q p n : ℕ} {b : Bool} {e : Emitting E} {l : LoopAt} {s : Option ℕ} {g : List ℕ}

/-- Handing an item to one queue leaves the others. -/
theorem holds_put {item : Option E} (hne : p ≠ q) (h : w.Holds p n b) : Holds ⟨w.feed.put q item, e, l, s, g⟩ p n b := by
  rw [Holds, getElem?_put, if_neg hne]
  exact h

/-- A queue handed the next event holds one more. -/
theorem holds_next {ev : E} (hev : w.feed.log[n]? = some ev) (h : w.Holds q n false) :
    Holds ⟨w.feed.put q (some ev), e, l, s, g⟩ q (n + 1) false := by
  have htake : w.feed.log.take (n + 1) = w.feed.log.take n ++ [ev] := by rw [List.take_add_one, hev]; rfl
  rw [Holds, getElem?_put, if_pos rfl, h]
  simp [Feed.put, htake]

/-- A queue handed `END` has ended. -/
theorem holds_end (h : w.Holds q n false) : Holds ⟨w.feed.put q none, e, l, s, g⟩ q n true := by
  rw [Holds, getElem?_put, if_pos rfl, h]
  simp [Feed.put]

/-- A new queue leaves the others. -/
theorem holds_open (hp : p < w.feed.queues.length) (h : w.Holds p n b) :
    Holds ⟨{ w.feed with queues := w.feed.queues ++ [[]] }, e, l, s, g⟩ p n b := by
  rw [Holds, List.getElem?_append_left hp]
  exact h

end Queue

/-- Appending an event to the log keeps the invariant. -/
theorem Sound.append (h : w.Sound) {ev : E} (hidle : w.emitting = .idle) :
    Sound { w with feed := { w.feed with log := w.feed.log ++ [ev] }, emitting := .logged ev } := by
  have hawaits : ∀ q, ¬ w.Awaits q := by simp [Awaits, hidle]
  have howes : ∀ q, ¬ w.Owes q := by simp [Owes, hidle, hawaits]
  have hheld : ∀ {q n b}, n ≤ w.feed.log.length → w.Holds q n b →
      Holds { w with feed := { w.feed with log := w.feed.log ++ [ev] }, emitting := .logged ev } q n b := by
    intro q n b hn hq
    rw [Holds, List.take_append_of_le_length hn]
    exact hq
  refine { h with
    joining := fun q hq => ⟨(h.joining q hq).1, (h.joining q hq).2.1, by simp [Awaits]⟩
    fanning := by simp
    flight := by simp
    settled := fun m hm => ⟨(h.settled m hm).1.trans (by simp), by simp [Awaits]⟩
    seeded := fun q n hn => ⟨(h.seeded q n hn).1.trans (by simp), hheld (h.seeded q n hn).1 (h.seeded q n hn).2⟩
    live := fun hm q hq => ?_
    ending := fun m rest hm hl q hq => hheld (h.settled m hm).1 (h.ending m rest hm hl q hq)
    ended := fun m hm q hq hg hsub hj => hheld (h.settled m hm).1 (h.ended m hm q hq hg hsub hj) }
  obtain ⟨howe, -⟩ | ⟨-, hlive⟩ := h.live hm q hq
  · exact absurd howe (howes q)
  · refine Or.inl ⟨Or.inl ⟨ev, rfl⟩, ?_⟩
    simpa using hheld (le_refl _) hlive

/-- Copying the subscribers keeps the invariant where a settled log has none. -/
theorem Sound.snapshot (h : w.Sound) {ev : E} (hlogged : w.emitting = .logged ev)
    (hcond : w.settledAt.isSome → w.feed.subscribers = []) :
    Sound { w with emitting := .fanning ev w.feed.subscribers } := by
  have howes : ∀ q, w.Owes q := fun q => Or.inl ⟨ev, hlogged⟩
  refine { h with
    joining := fun q hq => ⟨(h.joining q hq).1, (h.joining q hq).2.1, ?_⟩
    fanning := ?_
    flight := fun ev' hev => ?_
    settled := fun m hm => ⟨(h.settled m hm).1, ?_⟩
    live := fun hm q hq => ?_ }
  · rintro ⟨ev', rest, hfan, hmem⟩
    cases hfan
    exact (h.registered q hmem).2.2 hq
  · rintro ev' rest hfan
    cases hfan
    exact ⟨h.nodup, fun q hq => ⟨(h.registered q hq).1, Or.inr hq⟩⟩
  · obtain hev | ⟨rest, hev⟩ := hev <;> cases hev
    exact h.flight _ (Or.inl hlogged)
  · intro q hq
    simp only [hcond (by rw [hm]; rfl), List.not_mem_nil] at hq
  · obtain ⟨-, hlive⟩ | ⟨hno, -⟩ := h.live hm q hq
    · exact Or.inl ⟨Or.inr ⟨ev, _, rfl, hq⟩, hlive⟩
    · exact absurd (howes q) hno

/-- An owed event is in the log. -/
theorem Sound.log_pos (h : w.Sound) {q : ℕ} (howes : w.Owes q) : 0 < w.feed.log.length := by
  have hlast : ∃ ev, w.feed.log.getLast? = some ev := by
    rcases howes with ⟨ev, hlog⟩ | ⟨ev, rest, hfan, -⟩
    · exact ⟨ev, h.flight ev (Or.inl hlog)⟩
    · exact ⟨ev, h.flight ev (Or.inr ⟨rest, hfan⟩)⟩
  obtain ⟨ev, hev⟩ := hlast
  exact List.length_pos_iff.2 (List.ne_nil_of_mem (List.mem_of_getLast? hev))

/-- Handing an event to the next subscriber keeps the invariant. -/
theorem Sound.hand (h : w.Sound) {ev : E} {q : ℕ} {rest : List ℕ} (hfan : w.emitting = .fanning ev (q :: rest)) :
    Sound { w with feed := w.feed.put q (some ev), emitting := .fanning ev rest } := by
  obtain ⟨hnodup, hrest⟩ := h.fanning ev _ hfan
  obtain ⟨hq, hnodup⟩ := List.nodup_cons.1 hnodup
  have hawaits : w.Awaits q := ⟨ev, _, hfan, List.mem_cons_self⟩
  have hfewer : ∀ p, Awaits { w with feed := w.feed.put q (some ev), emitting := .fanning ev rest } p → w.Awaits p := by
    rintro p ⟨ev', rest', hfan', hmem⟩
    cases hfan'
    exact ⟨ev, _, hfan, List.mem_cons_of_mem _ hmem⟩
  have hheld : ∀ {p n b}, p ≠ q → w.Holds p n b →
      Holds { w with feed := w.feed.put q (some ev), emitting := .fanning ev rest } p n b := fun hne hp => holds_put hne hp
  refine { h with
    registered := fun p hp => ⟨(length_put ..).symm ▸ (h.registered p hp).1, (h.registered p hp).2⟩
    given_up := fun p hp => (length_put ..).symm ▸ h.given_up p hp
    joining := fun p hp => ⟨(length_put ..).symm ▸ (h.joining p hp).1, (h.joining p hp).2.1, fun ha => (h.joining p hp).2.2 (hfewer p ha)⟩
    fanning := ?_
    flight := ?_
    settled := fun m hm => ⟨(h.settled m hm).1, fun p hp ha => (h.settled m hm).2 p hp (hfewer p ha)⟩
    seeded := fun p n hp => ⟨(h.seeded p n hp).1, hheld ?_ (h.seeded p n hp).2⟩
    live := fun hm p hp => ?_
    ending := fun m rest' hm hl p hp => hheld ?_ (h.ending m rest' hm hl p hp)
    ended := fun m hm p hp hg hsub hj => hheld ?_ (h.ended m hm p ((length_put ..) ▸ hp) hg hsub hj)
    known := fun hm p hp hg => h.known hm p ((length_put ..) ▸ hp) hg }
  · rintro ev' rest' hfan'
    cases hfan'
    refine ⟨hnodup, fun p hp => ?_⟩
    obtain ⟨hlt, hknown⟩ := hrest p (List.mem_cons_of_mem _ hp)
    exact ⟨(length_put ..).symm ▸ hlt, hknown⟩
  · rintro ev' (hev | ⟨rest', hev⟩) <;> cases hev
    exact h.flight _ (Or.inr ⟨_, hfan⟩)
  · rintro rfl
    exact (h.joining _ ⟨n, hp⟩).2.2 hawaits
  · by_cases hpq : p = q
    · subst hpq
      obtain ⟨-, hlive⟩ | ⟨hno, -⟩ := h.live hm p hp
      · refine Or.inr ⟨?_, ?_⟩
        · rintro (⟨ev', hlog⟩ | ⟨ev', rest', hfan', hmem⟩)
          · cases hlog
          · cases hfan'
            exact hq hmem
        · have hlast := h.flight ev (Or.inr ⟨_, hfan⟩)
          have hpos := h.log_pos (Or.inr hawaits)
          have hnext := holds_next (List.getLast?_eq_getElem? ▸ hlast) hlive (e := .fanning ev rest) (l := w.loop)
            (s := w.settledAt) (g := w.gone)
          rwa [Nat.sub_add_cancel hpos] at hnext
      · exact absurd (Or.inr hawaits) hno
    · have howes : Owes { w with feed := w.feed.put q (some ev), emitting := .fanning ev rest } p ↔ w.Owes p := by
        constructor
        · rintro (⟨ev', hlog⟩ | ha)
          · cases hlog
          · exact Or.inr (hfewer p ha)
        · rintro (⟨ev', hlog⟩ | ⟨ev', rest', hfan', hmem⟩)
          · rw [hfan] at hlog
            cases hlog
          · rw [hfan] at hfan'
            cases hfan'
            exact Or.inr ⟨ev, rest, rfl, (List.mem_cons.1 hmem).resolve_left hpq⟩
      obtain ⟨ho, hlive⟩ | ⟨hno, hlive⟩ := h.live hm p hp
      · exact Or.inl ⟨howes.2 ho, hheld hpq hlive⟩
      · exact Or.inr ⟨fun ho => hno (howes.1 ho), hheld hpq hlive⟩
  · rintro rfl
    exact (h.settled m hm).2 _ hp hawaits
  · rintro rfl
    exact (hrest _ List.mem_cons_self).2.elim hg hsub

/-- An emit that has handed out everything leaves the invariant. -/
theorem Sound.emitted (h : w.Sound) {ev : E} (hfan : w.emitting = .fanning ev []) : Sound { w with emitting := .idle } := by
  have howes : ∀ q, ¬ w.Owes q := by simp [Owes, Awaits, hfan]
  have hnone : ∀ q, ¬ Awaits { w with emitting := .idle } q := by simp [Awaits]
  refine { h with
    joining := fun q hq => ⟨(h.joining q hq).1, (h.joining q hq).2.1, hnone q⟩
    fanning := by simp
    flight := by simp
    settled := fun m hm => ⟨(h.settled m hm).1, fun q _ => hnone q⟩
    live := fun hm q hq => ?_ }
  obtain ⟨ho, -⟩ | ⟨-, hlive⟩ := h.live hm q hq
  · exact absurd ho (howes q)
  · exact Or.inr ⟨by simp [Owes, Awaits], hlive⟩

/-- A new queue starts its replay within the invariant. -/
theorem Sound.subscribe (h : w.Sound) (hidle : w.loop = .idle) :
    Sound { w with feed := { w.feed with queues := w.feed.queues ++ [[]] }, loop := .replaying w.feed.queues.length 0 } := by
  have hnone := not_joining hidle
  have hnew : ∀ {p}, p ≤ w.feed.queues.length → p ≠ w.feed.queues.length → p < w.feed.queues.length := by omega
  have hjoin : ∀ p, Joining ⟨{ w.feed with queues := w.feed.queues ++ [[]] }, w.emitting, .replaying w.feed.queues.length 0,
      w.settledAt, w.gone⟩ p ↔ p = w.feed.queues.length := by
    intro p
    simp [Joining, eq_comm]
  have hlonger : ∀ {p}, p < w.feed.queues.length → p < (w.feed.queues ++ [[]]).length := by
    intro p hp
    rw [List.length_append]
    exact Nat.lt_add_right _ hp
  refine { h with
    registered := fun p hp => ⟨hlonger (h.registered p hp).1, (h.registered p hp).2.1, fun hj => ?_⟩
    given_up := fun p hp => hlonger (h.given_up p hp)
    joining := fun p hp => ?_
    fanning := fun ev rest hfan => ⟨(h.fanning ev rest hfan).1, fun p hp => ?_⟩
    settling := by simp
    cleared := by simp
    quiet := fun _ _ => h.quiet (by simp [hidle]) (by simp [hidle])
    seeded := ?_
    live := fun hm p hp => ?_
    ending := by simp
    ended := fun m hm p hp hg hsub hj => ?_
    known := fun hm p hp hg => ?_ }
  · rw [hjoin] at hj
    exact absurd (h.registered p hp).1 (hj ▸ lt_irrefl _)
  · rw [hjoin] at hp
    subst hp
    refine ⟨by simp, fun hgone => absurd (h.given_up _ hgone) (lt_irrefl _), ?_⟩
    rintro ⟨ev, rest, hfan, hmem⟩
    exact absurd ((h.fanning ev rest hfan).2 _ hmem).1 (lt_irrefl _)
  · exact ⟨hlonger ((h.fanning ev rest hfan).2 p hp).1, ((h.fanning ev rest hfan).2 p hp).2⟩
  · rintro p n (hl | hl) <;> cases hl
    exact ⟨Nat.zero_le _, by simp [Holds]⟩
  · have hlt := (h.registered p hp).1
    exact (h.live hm p hp).imp (And.imp_right (holds_open hlt)) (And.imp_right (holds_open hlt))
  · rw [hjoin] at hj
    have hlt : p < w.feed.queues.length := by
      simp only [List.length_append, List.length_singleton] at hp
      omega
    exact holds_open hlt (h.ended m hm p hlt hg hsub (hnone p))
  · rw [hjoin]
    by_cases hpn : p = w.feed.queues.length
    · exact Or.inr hpn
    · have hlt : p < w.feed.queues.length := by
        simp only [List.length_append, List.length_singleton] at hp
        omega
      exact Or.inl ((h.known hm p hlt hg).resolve_right (hnone p))

/-- Replaying one event keeps the invariant. -/
theorem Sound.replay (h : w.Sound) {q i : ℕ} {ev : E} (hloop : w.loop = .replaying q i) (hev : w.feed.log[i]? = some ev) :
    Sound { w with feed := w.feed.put q (some ev), loop := .replaying q (i + 1) } := by
  have hjoins : w.Joining q := ⟨i, Or.inl hloop⟩
  have hjoin : ∀ p, Joining ⟨w.feed.put q (some ev), w.emitting, .replaying q (i + 1), w.settledAt, w.gone⟩ p ↔ w.Joining p := by
    intro p
    simp [Joining, hloop, eq_comm]
  obtain ⟨hi, hseeded⟩ := h.seeded q i (Or.inl hloop)
  refine { h with
    registered := fun p hp => ⟨(length_put ..).symm ▸ (h.registered p hp).1, (h.registered p hp).2.1, fun hj => ?_⟩
    given_up := fun p hp => (length_put ..).symm ▸ h.given_up p hp
    joining := fun p hp => ?_
    fanning := fun ev' rest hfan => ⟨(h.fanning ev' rest hfan).1, fun p hp => ?_⟩
    settling := by simp
    cleared := by simp
    quiet := fun _ _ => h.quiet (by simp [hloop]) (by simp [hloop])
    seeded := ?_
    live := fun hm p hp => ?_
    ending := by simp
    ended := fun m hm p hp hg hsub hj => ?_
    known := fun hm p hp hg => ?_ }
  · exact (h.registered p hp).2.2 ((hjoin p).1 hj)
  · exact (length_put ..).symm ▸ h.joining p ((hjoin p).1 hp)
  · exact (length_put ..).symm ▸ (h.fanning ev' rest hfan).2 p hp
  · rintro p n (hl | hl) <;> cases hl
    exact ⟨(List.getElem?_eq_some_iff.1 hev).1, holds_next hev hseeded⟩
  · have hne : p ≠ q := fun heq => (h.registered p hp).2.2 (heq ▸ hjoins)
    exact (h.live hm p hp).imp (And.imp_right (holds_put hne)) (And.imp_right (holds_put hne))
  · rw [hjoin] at hj
    exact holds_put (fun heq => hj (heq ▸ hjoins)) (h.ended m hm p ((length_put ..) ▸ hp) hg hsub hj)
  · rw [hjoin]
    exact h.known hm p ((length_put ..) ▸ hp) hg

/-- The end of the replay keeps the invariant. -/
theorem Sound.replayEnd (h : w.Sound) {q i : ℕ} (hloop : w.loop = .replaying q i) : Sound { w with loop := .replayed q i } := by
  have hjoin : ∀ p, Joining { w with loop := .replayed q i } p ↔ w.Joining p := by
    intro p
    simp [Joining, hloop, eq_comm]
  refine { h with
    registered := fun p hp => ⟨(h.registered p hp).1, (h.registered p hp).2.1, fun hj => (h.registered p hp).2.2 ((hjoin p).1 hj)⟩
    joining := fun p hp => h.joining p ((hjoin p).1 hp)
    settling := by simp
    cleared := by simp
    quiet := fun _ _ => h.quiet (by simp [hloop]) (by simp [hloop])
    seeded := ?_
    ending := by simp
    ended := fun m hm p hp hg hsub hj => h.ended m hm p hp hg hsub fun hj' => hj ((hjoin p).2 hj')
    known := fun hm p hp hg => (h.known hm p hp hg).imp_right (hjoin p).2 }
  rintro p n (hl | hl) <;> cases hl
  exact h.seeded q i (Or.inl hloop)

/-- A queue that joins after the end gets its sentinel at once. -/
theorem Sound.registerEnd (h : w.Sound) {q n : ℕ} (hloop : w.loop = .replayed q n) (hdone : w.feed.done = true)
    (hcond : w.settledAt = some n) : Sound { w with feed := w.feed.put q none, loop := .idle } := by
  have hjoins : w.Joining q := ⟨n, Or.inr hloop⟩
  have hnobody := (h.done_settled hdone).2
  have hjoin : ∀ p, w.Joining p ↔ p = q := by
    intro p
    simp [Joining, hloop, eq_comm]
  have hidle : ∀ p, ¬ Joining { w with feed := w.feed.put q none, loop := .idle } p := fun p => not_joining rfl p
  refine { h with
    registered := fun p hp => ⟨(length_put ..).symm ▸ (h.registered p hp).1, (h.registered p hp).2.1, hidle p⟩
    given_up := fun p hp => (length_put ..).symm ▸ h.given_up p hp
    joining := fun p hp => absurd hp (hidle p)
    fanning := fun ev rest hfan => ⟨(h.fanning ev rest hfan).1, fun p hp => (length_put ..).symm ▸ (h.fanning ev rest hfan).2 p hp⟩
    settling := by simp
    cleared := by simp
    quiet := fun _ _ => h.quiet (by simp [hloop]) (by simp [hloop])
    seeded := by simp
    live := fun hm => absurd (hm.symm.trans hcond) nofun
    ending := by simp
    ended := fun m hm p hp hg hsub hj => ?_
    known := fun hm => absurd (hm.symm.trans hcond) nofun }
  by_cases hpq : p = q
  · subst hpq
    obtain rfl := Option.some.inj (hcond.symm.trans hm)
    exact holds_end (h.seeded p _ (Or.inr hloop)).2
  · exact holds_put hpq (h.ended m hm p ((length_put ..) ▸ hp) hg hsub fun hj' => hpq ((hjoin p).1 hj'))

/-- A queue that was seeded with the events whose subscribers have been looked up lacks the event the thread is about to look up
subscribers for, if there is one. -/
theorem Sound.owes_or_not (h : w.Sound) {q : ℕ} (hjoins : w.Joining q) (hheld : w.Holds q w.handedOut false) :
    (w.Owes q ∧ w.Holds q (w.feed.log.length - 1) false) ∨ (¬ w.Owes q ∧ w.Holds q w.feed.log.length false) := by
  cases he : w.emitting with
  | idle =>
    simp only [handedOut, he] at hheld
    exact Or.inr ⟨by simp [Owes, Awaits, he], hheld⟩
  | logged ev =>
    simp only [handedOut, he] at hheld
    exact Or.inl ⟨Or.inl ⟨ev, he⟩, hheld⟩
  | fanning ev rest =>
    simp only [handedOut, he] at hheld
    refine Or.inr ⟨?_, hheld⟩
    rintro (⟨ev', hlog⟩ | ha)
    · exact absurd (he.symm.trans hlog) nofun
    · exact (h.joining q hjoins).2.2 ha

/-- A queue that joins with nothing missed is a subscriber from then on. -/
theorem Sound.register (h : w.Sound) {q n : ℕ} (hloop : w.loop = .replayed q n) (hdone : w.feed.done = false)
    (hcond : w.handedOut = n) : Sound { w with feed := { w.feed with subscribers := w.feed.subscribers ++ [q] }, loop := .idle } := by
  have hjoins : w.Joining q := ⟨n, Or.inr hloop⟩
  obtain ⟨hlt, hstays, -⟩ := h.joining q hjoins
  have hjoin : ∀ p, w.Joining p ↔ p = q := by
    intro p
    simp [Joining, hloop, eq_comm]
  have hsettled : w.settledAt = none := by
    have := h.quiet (by simp [hloop]) (by simp [hloop])
    rw [hdone] at this
    exact Option.isNone_iff_eq_none.1 (by simpa using this.symm)
  refine { h with
    nodup := ?_
    registered := fun p hp => ⟨?_, ?_, not_joining rfl p⟩
    joining := fun p hp => absurd hp (not_joining rfl p)
    fanning := fun ev rest hfan => ⟨(h.fanning ev rest hfan).1, fun p hp => ?_⟩
    settled := fun m hm => absurd (hsettled.symm.trans hm) nofun
    settling := by simp
    cleared := by simp
    quiet := fun _ _ => h.quiet (by simp [hloop]) (by simp [hloop])
    done_settled := fun hyes => absurd (hdone.symm.trans hyes) nofun
    seeded := by simp
    live := fun hm p hp => ?_
    ending := by simp
    ended := fun m hm => absurd (hsettled.symm.trans hm) nofun
    known := fun hm p hp hg => ?_ }
  · refine List.nodup_append.2 ⟨h.nodup, List.nodup_singleton q, fun p hp p' hp' heq => ?_⟩
    obtain rfl := List.mem_singleton.1 hp'
    exact (h.registered p hp).2.2 (heq ▸ hjoins)
  · rcases List.mem_append.1 hp with hp | hp
    · exact (h.registered p hp).1
    · exact List.mem_singleton.1 hp ▸ hlt
  · rcases List.mem_append.1 hp with hp | hp
    · exact (h.registered p hp).2.1
    · exact List.mem_singleton.1 hp ▸ hstays
  · obtain ⟨hbound, hknown⟩ := (h.fanning ev rest hfan).2 p hp
    exact ⟨hbound, hknown.imp_right (List.mem_append_left _)⟩
  · rcases List.mem_append.1 hp with hp | hp
    · exact h.live hm p hp
    · obtain rfl := List.mem_singleton.1 hp
      exact h.owes_or_not ⟨n, Or.inr hloop⟩ (hcond ▸ (h.seeded _ n (Or.inr hloop)).2)
  · refine Or.inl (List.mem_append.2 ((h.known hm p hp hg).imp_right fun hj => ?_))
    exact List.mem_singleton.2 ((hjoin p).1 hj)

/-- A queue that leaves is owed nothing more. -/
theorem Sound.unsubscribe (h : w.Sound) {q : ℕ} (hidle : w.loop = .idle) (hq : q < w.feed.queues.length) :
    Sound { w with feed := w.feed.unsubscribe q, loop := .idle, gone := q :: w.gone } := by
  have hsub : ∀ {p}, p ∈ w.feed.subscribers.erase q ↔ p ≠ q ∧ p ∈ w.feed.subscribers := h.nodup.mem_erase_iff
  have hquiet := h.quiet (by simp [hidle]) (by simp [hidle])
  refine { h with
    nodup := h.nodup.erase q
    registered := fun p hp => ?_
    given_up := fun p hp => ?_
    joining := fun p hp => absurd hp (not_joining rfl p)
    fanning := fun ev rest hfan => ⟨(h.fanning ev rest hfan).1, fun p hp => ?_⟩
    settled := fun m hm => ⟨(h.settled m hm).1, fun p hp => (h.settled m hm).2 p (hsub.1 hp).2⟩
    settling := by simp
    cleared := by simp
    quiet := fun _ _ => hquiet
    done_settled := fun hyes => ?_
    seeded := by simp
    live := fun hm p hp => h.live hm p (hsub.1 hp).2
    ending := by simp
    ended := fun m hm p hp hg hno hj => ?_
    known := fun hm p hp hg => ?_ }
  · obtain ⟨hne, hp⟩ := hsub.1 hp
    exact ⟨(h.registered p hp).1, fun hmem => (List.mem_cons.1 hmem).elim hne (h.registered p hp).2.1, not_joining rfl p⟩
  · rcases List.mem_cons.1 hp with rfl | hp
    · exact hq
    · exact h.given_up p hp
  · obtain ⟨hbound, hknown⟩ := (h.fanning ev rest hfan).2 p hp
    refine ⟨hbound, ?_⟩
    by_cases hpq : p = q
    · exact Or.inl (hpq ▸ List.mem_cons_self)
    · exact hknown.imp (List.mem_cons_of_mem _) fun hp => hsub.2 ⟨hpq, hp⟩
  · obtain ⟨hsome, hnil⟩ := h.done_settled hyes
    refine ⟨hsome, ?_⟩
    change w.feed.subscribers.erase q = []
    rw [hnil]
    rfl
  · obtain ⟨hne, hg⟩ := List.ne_and_not_mem_of_not_mem_cons hg
    exact h.ended m hm p hp hg (fun hp => hno (hsub.2 ⟨hne, hp⟩)) (not_joining hidle p)
  · obtain ⟨hne, hg⟩ := List.ne_and_not_mem_of_not_mem_cons hg
    exact Or.inl (hsub.2 ⟨hne, (h.known hm p hp hg).resolve_right (not_joining hidle p)⟩)

/-- Settling keeps the invariant where no subscriber is owed an event. -/
theorem Sound.settle (h : w.Sound) (hidle : w.loop = .idle) (hcond : ∀ q ∈ w.feed.subscribers, ¬ w.Owes q) :
    Sound { w with loop := .settling w.feed.subscribers, settledAt := w.settledAt.or (some w.feed.log.length) } := by
  have hnone := not_joining hidle
  have hquiet := h.quiet (by simp [hidle]) (by simp [hidle])
  have hjoin : ∀ p, ¬ Joining { w with loop := .settling w.feed.subscribers, settledAt := w.settledAt.or (some w.feed.log.length) } p := by
    intro p
    simp [Joining]
  refine { h with
    registered := fun p hp => ⟨(h.registered p hp).1, (h.registered p hp).2.1, hjoin p⟩
    joining := fun p hp => absurd hp (hjoin p)
    settled := fun m hm => ⟨?_, fun p hp ha => hcond p hp (Or.inr ha)⟩
    settling := fun rest hl => ?_
    cleared := by simp
    quiet := fun hno => absurd rfl (hno _)
    done_settled := fun hyes => ⟨by simp, (h.done_settled hyes).2⟩
    seeded := by simp
    live := fun hm => by simp at hm
    ending := fun m rest hm hl p hp => ?_
    ended := fun m hm p hp hg hno hj => ?_
    known := fun hm => by simp at hm }
  · cases hs : w.settledAt with
    | none =>
      rw [hs] at hm
      exact (Option.some.inj hm).ge
    | some m' =>
      rw [hs] at hm
      exact Option.some.inj hm ▸ (h.settled m' hs).1
  · cases hl
    exact ⟨by simp, h.nodup, fun q hq => hq⟩
  · cases hl
    cases hs : w.settledAt with
    | none =>
      rw [hs] at hm
      obtain rfl := Option.some.inj hm
      obtain ⟨howe, -⟩ | ⟨-, hlive⟩ := h.live hs p hp
      · exact absurd howe (hcond p hp)
      · have hwaits : decide (p ∉ w.feed.subscribers) = false := decide_eq_false (not_not.2 hp)
        rw [hwaits]
        exact hlive
    | some m' =>
      rw [hs] at hquiet
      rw [(h.done_settled hquiet).2] at hp
      cases hp
  · cases hs : w.settledAt with
    | none => exact absurd ((h.known hs p hp hg).resolve_right (hnone p)) hno
    | some m' =>
      rw [hs] at hm
      obtain rfl := Option.some.inj hm
      exact h.ended _ hs p hp hg hno (hnone p)

/-- Handing out one sentinel keeps the invariant. -/
theorem Sound.handEnd (h : w.Sound) {q : ℕ} {rest : List ℕ} (hloop : w.loop = .settling (q :: rest)) :
    Sound { w with feed := w.feed.put q none, loop := .settling rest } := by
  obtain ⟨hsome, hnodup, hrest⟩ := h.settling _ hloop
  obtain ⟨hq, hnodup⟩ := List.nodup_cons.1 hnodup
  have hjoin : ∀ p, ¬ Joining { w with feed := w.feed.put q none, loop := .settling rest } p := by
    intro p
    simp [Joining]
  have hnone : ∀ p, ¬ w.Joining p := by
    intro p
    simp [Joining, hloop]
  refine { h with
    registered := fun p hp => ⟨(length_put ..).symm ▸ (h.registered p hp).1, (h.registered p hp).2.1, hjoin p⟩
    given_up := fun p hp => (length_put ..).symm ▸ h.given_up p hp
    joining := fun p hp => absurd hp (hjoin p)
    fanning := fun ev rest hfan => ⟨(h.fanning ev rest hfan).1, fun p hp => (length_put ..).symm ▸ (h.fanning ev rest hfan).2 p hp⟩
    settling := fun rest' hl => ?_
    cleared := by simp
    quiet := fun hno => absurd rfl (hno _)
    seeded := by simp
    live := fun hm => absurd (hm ▸ hsome : (none : Option ℕ).isSome) nofun
    ending := fun m rest' hm hl p hp => ?_
    ended := fun m hm p hp hg hno _ => ?_
    known := fun hm => absurd (hm ▸ hsome : (none : Option ℕ).isSome) nofun }
  · cases hl
    exact ⟨hsome, hnodup, fun p hp => hrest p (List.mem_cons_of_mem _ hp)⟩
  · cases hl
    have hend := h.ending m _ hm hloop p hp
    by_cases hpq : p = q
    · subst hpq
      simp only [List.mem_cons, true_or, not_true_eq_false, decide_false] at hend
      simp only [hq, not_false_eq_true, decide_true]
      exact holds_end hend
    · simp only [List.mem_cons, hpq, false_or] at hend
      exact holds_put hpq hend
  · refine holds_put ?_ (h.ended m hm p ((length_put ..) ▸ hp) hg hno (hnone p))
    rintro rfl
    exact hno (hrest _ List.mem_cons_self)

/-- Clearing the subscribers after their sentinels keeps the invariant. -/
theorem Sound.clear (h : w.Sound) (hloop : w.loop = .settling []) :
    Sound { w with feed := { w.feed with subscribers := [] }, loop := .cleared } := by
  obtain ⟨hsome, -, -⟩ := h.settling _ hloop
  have hjoin : ∀ p, ¬ Joining { w with feed := { w.feed with subscribers := [] }, loop := .cleared } p := by
    intro p
    simp [Joining]
  have hnone : ∀ p, ¬ w.Joining p := by
    intro p
    simp [Joining, hloop]
  refine { h with
    nodup := List.nodup_nil
    registered := by simp
    joining := fun p hp => absurd hp (hjoin p)
    fanning := fun ev rest hfan => ⟨(h.fanning ev rest hfan).1, fun p hp => ?_⟩
    settled := fun m hm => ⟨(h.settled m hm).1, by simp⟩
    settling := by simp
    cleared := fun _ => ⟨hsome, rfl⟩
    quiet := fun _ hno => absurd rfl hno
    done_settled := fun _ => ⟨hsome, rfl⟩
    seeded := by simp
    live := by simp
    ending := by simp
    ended := fun m hm p hp hg _ _ => ?_
    known := fun hm => absurd (hm ▸ hsome : (none : Option ℕ).isSome) nofun }
  · obtain ⟨hbound, hknown⟩ := (h.fanning ev rest hfan).2 p hp
    obtain ⟨m, hm⟩ := Option.isSome_iff_exists.1 hsome
    exact ⟨hbound, Or.inl (hknown.resolve_right fun hsub => (h.settled m hm).2 p hsub ⟨ev, rest, hfan, hp⟩)⟩
  · by_cases hsub : p ∈ w.feed.subscribers
    · have hend := h.ending m [] hm hloop p hsub
      simp only [List.not_mem_nil, not_false_eq_true, decide_true] at hend
      exact hend
    · exact h.ended m hm p hp hg hsub (hnone p)

/-- Marking the feed done keeps the invariant. -/
theorem Sound.finish (h : w.Sound) (hloop : w.loop = .cleared) : Sound { w with feed := { w.feed with done := true }, loop := .idle } := by
  obtain ⟨hsome, hnil⟩ := h.cleared hloop
  have hnone : ∀ p, ¬ w.Joining p := by
    intro p
    simp [Joining, hloop]
  exact { h with
    registered := fun p hp => ⟨(h.registered p hp).1, (h.registered p hp).2.1, not_joining rfl p⟩
    joining := fun p hp => absurd hp (not_joining rfl p)
    settling := by simp
    cleared := by simp
    quiet := fun _ _ => hsome.symm
    done_settled := fun _ => ⟨hsome, hnil⟩
    seeded := by simp
    ending := by simp
    ended := fun m hm p hp hg hsub _ => h.ended m hm p hp hg hsub (hnone p)
    known := fun hm => absurd (hm ▸ hsome : (none : Option ℕ).isSome) nofun }

/-- An orderly operation keeps what is known. -/
theorem Sound.step {a : WireAct E} (hcond : w.Orderly a) (h : w.Sound) (hs : w.step a = some w') : w'.Sound := by
  cases next_of_step hs with
  | append hidle => exact h.append hidle
  | snapshot hlogged => exact h.snapshot hlogged hcond
  | hand hfan => exact h.hand hfan
  | emitted hfan => exact h.emitted hfan
  | subscribe hidle => exact h.subscribe hidle
  | replay hloop hev => exact h.replay hloop hev
  | replayEnd hloop _ => exact h.replayEnd hloop
  | registerEnd hloop hdone =>
    have := hcond _ _ hloop
    rw [if_pos hdone] at this
    exact h.registerEnd hloop hdone this
  | register hloop hdone =>
    have := hcond _ _ hloop
    rw [if_neg (by simp [hdone])] at this
    exact h.register hloop hdone this
  | unsubscribe hidle hq => exact h.unsubscribe hidle hq
  | settle hidle => exact h.settle hidle hcond
  | handEnd hloop => exact h.handEnd hloop
  | clear hloop => exact h.clear hloop
  | finish hloop => exact h.finish hloop

theorem sound_start : Sound ({} : Wire E) := by
  constructor <;> simp [Joining, Awaits]

end Keep

/-! ## Functions that are not interrupted -/

section Whole

variable {w : Wire E}

/-- An emit hands its event to every subscriber it copied. -/
theorem run_hand {ev : E} {rest : List ℕ} (hfan : w.emitting = .fanning ev rest) :
    run step w (List.replicate rest.length .hand) =
      some { w with feed := rest.foldl (fun f q => f.put q (some ev)) w.feed, emitting := .fanning ev [] } := by
  induction rest generalizing w with
  | nil => exact congrArg some (by rw [← hfan]; rfl)
  | cons q rest ih =>
    have hstep : w.step .hand = some { w with feed := w.feed.put q (some ev), emitting := .fanning ev rest } := by
      simp only [step, hfan]
    rw [List.length_cons, List.replicate_succ, run, hstep, Option.bind_some, ih rfl]
    rfl

/-- Settling hands the sentinel to every subscriber. -/
theorem run_handEnd {rest : List ℕ} (hloop : w.loop = .settling rest) :
    run step w (List.replicate rest.length .handEnd) =
      some { w with feed := rest.foldl (fun f q => f.put q none) w.feed, loop := .settling [] } := by
  induction rest generalizing w with
  | nil => exact congrArg some (by rw [← hloop]; rfl)
  | cons q rest ih =>
    have hstep : w.step .handEnd = some { w with feed := w.feed.put q none, loop := .settling rest } := by simp only [step, hloop]
    rw [List.length_cons, List.replicate_succ, run, hstep, Option.bind_some, ih rfl]
    rfl

/-- `emit`, operation by operation. -/
theorem run_emit (hidle : w.emitting = .idle) (ev : E) :
    run step w (.append ev :: .snapshot :: (List.replicate w.feed.subscribers.length .hand ++ [.emitted])) =
      some { w with feed := w.feed.emit ev } := by
  have hlog : w.step (.append ev) = some { w with feed := { w.feed with log := w.feed.log ++ [ev] }, emitting := .logged ev } := by
    simp only [step, hidle]
  rw [run, hlog, Option.bind_some, run]
  refine Eq.trans (run_append_eq_some.2 ⟨_, run_hand rfl, rfl⟩) (congrArg some ?_)
  rw [← hidle]
  rfl

/-- `settle`, operation by operation. -/
theorem run_settle (hidle : w.loop = .idle) :
    run step w (.settle :: (List.replicate w.feed.subscribers.length .handEnd ++ [.clear, .finish])) =
      some { w with feed := w.feed.settle, settledAt := w.settledAt.or (some w.feed.log.length) } := by
  have hbegin : w.step .settle = some { w with
      loop := .settling w.feed.subscribers, settledAt := w.settledAt.or (some w.feed.log.length) } := by
    simp only [step, hidle]
  rw [run, hbegin, Option.bind_some]
  refine Eq.trans (run_append_eq_some.2 ⟨_, run_handEnd rfl, rfl⟩) (congrArg some ?_)
  rw [← hidle]
  rfl

/-- An item handed to the last queue is appended to it. -/
theorem put_last {f : Feed E} {qs : List (List (Option E))} {x : List (Option E)} (h : f.queues = qs ++ [x]) (item : Option E) :
    f.put qs.length item = { f with queues := qs ++ [x ++ [item]] } := by
  have hlast : (qs ++ [x]).modify qs.length (· ++ [item]) = qs ++ [x ++ [item]] := by
    induction qs generalizing f with
    | nil => rfl
    | cons y qs ih => exact congrArg (y :: ·) (ih (f := { f with queues := qs ++ [x] }) rfl)
  rw [Feed.put, h, hlast]

/-- A replay copies the log into the new queue. -/
theorem run_replay {qs : List (List (Option E))} {i k : ℕ} (hloop : w.loop = .replaying qs.length i)
    (hqueue : w.feed.queues = qs ++ [(w.feed.log.take i).map some]) (hk : i + k = w.feed.log.length) :
    run step w (List.replicate k .replay) = some { w with
      feed := { w.feed with queues := qs ++ [w.feed.log.map some] }, loop := .replaying qs.length w.feed.log.length } := by
  induction k generalizing w i with
  | zero =>
    obtain rfl : i = w.feed.log.length := hk
    rw [List.take_length] at hqueue
    rw [← hloop, ← hqueue]
    rfl
  | succ k ih =>
    have hlt : i < w.feed.log.length := by omega
    have hstep : w.step .replay = some { w with
        feed := { w.feed with queues := qs ++ [(w.feed.log.take (i + 1)).map some] }, loop := .replaying qs.length (i + 1) } := by
      simp only [step, hloop, List.getElem?_eq_getElem hlt, put_last hqueue]
      rw [List.take_add_one, List.getElem?_eq_getElem hlt, List.map_append]
      rfl
    rw [List.replicate_succ, run, hstep, Option.bind_some]
    exact ih rfl rfl (by change i + 1 + k = w.feed.log.length; omega)

/-- `subscribe`, operation by operation. -/
theorem run_subscribe (hidle : w.loop = .idle) :
    run step w (.subscribe :: (List.replicate w.feed.log.length .replay ++ [.replay, .register])) =
      some { w with feed := w.feed.subscribe } := by
  have hbegin : w.step .subscribe = some { w with
      feed := { w.feed with queues := w.feed.queues ++ [[]] }, loop := .replaying w.feed.queues.length 0 } := by
    simp only [step, hidle]
  rw [run, hbegin, Option.bind_some]
  have hreplayed := run_replay (w := { w with
      feed := { w.feed with queues := w.feed.queues ++ [[]] }, loop := .replaying w.feed.queues.length 0 }) rfl rfl (Nat.zero_add _)
  rw [run_append, hreplayed, Option.bind_some]
  simp only [run, step, List.getElem?_eq_none (le_refl _), Option.bind_some]
  unfold Feed.subscribe
  split <;> rw [← hidle] <;> rfl

end Whole

end Wire

open Wire

/-- In an orderly run, a queue that `subscribe` has returned and that was not given up holds, once the job has settled, the events
that were emitted before, each once and in order, and then one `END`; before that it holds all events but for one at most that is
on its way to it. -/
theorem subscriber_receives {acts : List (WireAct E)} {w : Wire E} (hrun : run step {} acts = some w)
    (hcond : Along step Orderly {} acts) {q : ℕ} (hq : q < w.feed.queues.length) (hstays : q ∉ w.gone) (hmade : ¬ w.Joining q) :
    (w.feed.done = true → ∃ m, w.settledAt = some m ∧ w.feed.queues[q]? = some ((w.feed.log.take m).map some ++ [none])) ∧
    (w.settledAt = none → ∃ n, w.feed.queues[q]? = some ((w.feed.log.take n).map some) ∧
      (n = w.feed.log.length ∨ n + 1 = w.feed.log.length ∧ w.Owes q)) := by
  have h : w.Sound := Machine.invariant (fun s a s' hP hI hs => Wire.Sound.step hP hI hs) Wire.sound_start hcond hrun
  constructor
  · intro hdone
    obtain ⟨hsome, hnil⟩ := h.done_settled hdone
    obtain ⟨m, hm⟩ := Option.isSome_iff_exists.1 hsome
    exact ⟨m, hm, h.ended m hm q hq hstays (by simp [hnil]) hmade⟩
  · intro hm
    have hsub := (h.known hm q hq hstays).resolve_right hmade
    obtain ⟨howes, hheld⟩ | ⟨-, hheld⟩ := h.live hm q hsub
    · have hpos := h.log_pos howes
      exact ⟨_, by simpa [Wire.Holds] using hheld, Or.inr ⟨Nat.sub_add_cancel hpos, howes⟩⟩
    · exact ⟨_, by simpa [Wire.Holds] using hheld, Or.inl rfl⟩

/-- One event and one subscriber, undisturbed. -/
def oneSubscriber : List (WireAct ℕ) :=
  [.subscribe, .replay, .register, .append 0, .snapshot, .hand, .emitted, .settle, .handEnd, .clear, .finish]

/-- One event, one subscriber, one settle: the queue holds the event and the sentinel. -/
theorem subscriber_receives_one :
    (true = true → ∃ m, some 1 = some m ∧ [[some 0, none]][0]? = some (([0].take m).map some ++ [none])) ∧
      ((some 1 : Option ℕ) = none → ∃ n, [[some 0, none]][0]? = some (([0].take n).map some) ∧
        (n = 1 ∨ n + 1 = 1 ∧ Owes (E := ℕ) ⟨⟨[0], [[some 0, none]], [], true⟩, .idle, .idle, some 1, []⟩ 0)) :=
  @subscriber_receives ℕ oneSubscriber ⟨⟨[0], [[some 0, none]], [], true⟩, .idle, .idle, some 1, []⟩ rfl
    (by simp [oneSubscriber, Along, Orderly, step, Feed.put, handedOut, Owes, Awaits]) 0 (by decide) (by decide) (not_joining rfl 0)

/-- A client subscribes between the append of an event and the look for its subscribers: it is seeded with the event, which then is
handed to it as well. -/
theorem subscriber_receives_twice :
    ∃ w, run step ({} : Wire ℕ) [.append 0, .subscribe, .replay, .replay, .register, .snapshot, .hand, .emitted, .settle, .handEnd,
        .clear, .finish] = some w ∧
      w.feed.done = true ∧ w.feed.log = [0] ∧ w.settledAt = some 1 ∧ 0 ∉ w.gone ∧ ¬ w.Joining 0 ∧
      w.feed.queues = [[some 0, some 0, none]] :=
  ⟨_, rfl, rfl, rfl, rfl, by decide, not_joining rfl 0, rfl⟩

/-- It subscribes while an event is emitted between its replay and its registration: it never receives the event. -/
example : (run step ({} : Wire ℕ) [.subscribe, .replay, .append 0, .snapshot, .emitted, .register, .settle, .handEnd, .clear,
    .finish]).map (fun w => w.feed.queues) = some [[none]] := rfl

end Orka
