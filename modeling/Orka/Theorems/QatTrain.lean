import Orka.QatTrain
import Orka.Theorems.Qat

/-!
# Resuming a run

A checkpoint holds the values of the parameters and the states of the optimizer, the schedule and the generator. It does not hold
the cached assignments or their age: a resumed run follows the uninterrupted one if every layer was about to drop its assignment.
-/

namespace Orka

variable {α : Type} [Field α] [LinearOrder α]

namespace QatLinear

variable {q q' : QatLinear α}

/-- A forward only changes the cache. -/
theorem forward_cache (q : QatLinear α) : ∃ c v n, q.forward = { q with cachedIdx := c, lastVersion := v, optstepsSince := n } := by
  cases hwant : q.wantRefresh.1 with
  | true => exact ⟨_, _, _, forward_refresh hwant⟩
  | false =>
    rw [forward_reuse hwant]
    cases hidx : q.cachedIdx with
    | none => exact ⟨_, _, _, by rw [wantRefresh_none hidx]⟩
    | some idx =>
      obtain ⟨_, heq⟩ | ⟨_, heq⟩ := wantRefresh_cached hidx
      · exact ⟨_, _, _, by rw [heq]⟩
      · exact ⟨_, _, _, by rw [heq]⟩

omit [Field α] [LinearOrder α] in
/-- What is stored in a layer is what it holds afterwards. -/
theorem values_store (q : QatLinear α) (v : LayerValues α) (bumps : ℕ) :
    (q.store v bumps).values = ⟨v.shadow, v.scales, List.zipWith (fun _ x => x) q.values.codebooks v.codebooks,
      match q.values.bias, v.bias with
      | some _, some x => some x
      | b, _ => b⟩ := by
  have hbias : (q.store v bumps).values.bias = match q.values.bias, v.bias with
      | some _, some x => some x
      | b, _ => b := by
    unfold values store
    cases q.bias <;> cases v.bias <;> rfl
  refine LayerValues.mk.injEq .. ▸ ⟨rfl, rfl, ?_, hbias⟩
  change (List.zipWith (fun p x => p.store x bumps) q.codebooks v.codebooks).map QatParam.value =
    List.zipWith (fun _ x => x) (q.codebooks.map QatParam.value) v.codebooks
  rw [List.map_zipWith, List.zipWith_map_left]
  rfl

/-- Two layers of one shape with the same values. -/
structure Twin (q q' : QatLinear α) : Prop where
  groupSize : q.groupSize = q'.groupSize
  blockSize : q.blockSize = q'.blockSize
  reassignEvery : q.reassignEvery = q'.reassignEvery
  values : q.values = q'.values

/-- They have the same assignment cached, of the same age, and have seen the same number of versions. -/
structure InStep (q q' : QatLinear α) : Prop extends Twin q q' where
  cached : ∃ idx, q.cachedIdx = some idx ∧ q'.cachedIdx = some idx
  since : q.optstepsSince = q'.optstepsSince
  unseen : q.shadow.version - q.lastVersion = q'.shadow.version - q'.lastVersion

omit [Field α] [LinearOrder α] in
theorem Twin.store (h : Twin q q') (v : LayerValues α) (bumps : ℕ) : Twin (q.store v bumps) (q'.store v bumps) :=
  ⟨h.groupSize, h.blockSize, h.reassignEvery, by rw [values_store, values_store, h.values]⟩

omit [Field α] [LinearOrder α] in
/-- Layers in step stored alike are in step. -/
theorem InStep.store (h : InStep q q') (v : LayerValues α) (bumps : ℕ) : InStep (q.store v bumps) (q'.store v bumps) where
  toTwin := h.toTwin.store v bumps
  cached := h.cached
  since := h.since
  unseen := by
    have hunseen := h.unseen
    simp only [QatLinear.store, QatParam.store]
    push_cast
    omega

/-- Twins that are both due take the same assignment. -/
theorem Twin.forward (h : Twin q q') (hq : q.wantRefresh.1 = true) (hq' : q'.wantRefresh.1 = true) :
    InStep q.forward q'.forward := by
  rw [forward_refresh hq, forward_refresh hq']
  refine ⟨⟨h.groupSize, h.blockSize, h.reassignEvery, h.values⟩, ⟨_, rfl, ?_⟩, rfl, ?_⟩
  · rw [h.values, h.groupSize, h.blockSize]
  · simp only [sub_self]

/-- Layers in step refresh together. -/
theorem InStep.forward (h : InStep q q') : InStep q.forward q'.forward := by
  obtain ⟨idx, hidx, hidx'⟩ := h.cached
  have hunseen := h.unseen
  have hboth : q.wantRefresh.1 = q'.wantRefresh.1 ∧ InStep q.wantRefresh.2 q'.wantRefresh.2 := by
    obtain ⟨hv, heq⟩ | ⟨hv, heq⟩ := wantRefresh_cached hidx <;> obtain ⟨hv', heq'⟩ | ⟨hv', heq'⟩ := wantRefresh_cached hidx'
    · rw [heq, heq', h.since, h.reassignEvery]
      exact ⟨rfl, h⟩
    · omega
    · omega
    · rw [heq, heq', h.since, h.reassignEvery]
      exact ⟨rfl, ⟨h.groupSize, h.blockSize, rfl, h.values⟩, h.cached, rfl, by simp only [sub_self]⟩
  cases hwant : q.wantRefresh.1 with
  | true => exact h.toTwin.forward hwant (hboth.1 ▸ hwant)
  | false =>
    rw [forward_reuse hwant, forward_reuse (hboth.1 ▸ hwant)]
    exact hboth.2

/-- Layers in step stay in step through any number of forwards. -/
theorem InStep.iterate (h : InStep q q') (n : ℕ) :
    InStep (QatLinear.forward^[n] q) (QatLinear.forward^[n] q') := by
  induction n with
  | zero => exact h
  | succ n ih =>
    rw [Function.iterate_succ_apply', Function.iterate_succ_apply']
    exact ih.forward

/-- A forward keeps the interval. -/
theorem reassignEvery_forward (q : QatLinear α) : q.forward.reassignEvery = q.reassignEvery := by
  obtain ⟨_, _, _, h⟩ := q.forward_cache
  rw [h]

/-- A forward has seen the version of the shadow. -/
theorem lastVersion_forward (q : QatLinear α) : q.forward.lastVersion = q.forward.shadow.version := by
  cases hwant : q.wantRefresh.1 with
  | true => rw [forward_refresh hwant]
  | false =>
    rw [forward_reuse hwant]
    cases hidx : q.cachedIdx with
    | none =>
      rw [wantRefresh_none hidx] at hwant
      cases hwant
    | some idx =>
      obtain ⟨hv, heq⟩ | ⟨_, heq⟩ := wantRefresh_cached hidx
      · rw [heq]
        exact hv.symm
      · rw [heq]

omit [Field α] [LinearOrder α] in
/-- A step then makes it due, if one step is as old as an assignment may be. -/
theorem due_store {v : LayerValues α} {bumps : ℕ} (hR : q.reassignEvery ≤ 1) (hseen : q.lastVersion = q.shadow.version)
    (hbumps : 0 < bumps) : (q.store v bumps).wantRefresh.1 = true := by
  cases hidx : q.cachedIdx with
  | none => rw [wantRefresh_none (q := q.store v bumps) hidx]
  | some idx =>
    obtain ⟨hv, _⟩ | ⟨_, heq⟩ := wantRefresh_cached (q := q.store v bumps) hidx
    · have hv : ((q.shadow.version + bumps : ℕ) : ℤ) = q.lastVersion := hv
      omega
    · rw [heq, decide_eq_true_eq]
      change q.reassignEvery ≤ (q.optstepsSince + 1 : ℕ)
      omega

/-- A layer rebuilt for another: of its shape, and not used. -/
structure Rebuilt (q q' : QatLinear α) : Prop where
  groupSize : q.groupSize = q'.groupSize
  blockSize : q.blockSize = q'.blockSize
  reassignEvery : q.reassignEvery = q'.reassignEvery
  codebooks : q.codebooks.length = q'.codebooks.length
  bias : q.bias.isSome = q'.bias.isSome
  unused : q'.cachedIdx = none

omit [Field α] [LinearOrder α] in
/-- Loading the values makes it a twin. -/
theorem Rebuilt.load (h : Rebuilt q q') : Twin q (q'.store q.values 1) := by
  refine ⟨h.groupSize, h.blockSize, h.reassignEvery, ?_⟩
  have hcodebooks : List.zipWith (fun _ x => x) q'.values.codebooks q.values.codebooks = q.values.codebooks := by
    refine List.ext_getElem ?_ fun i hi hi' => List.getElem_zipWith
    rw [List.length_zipWith]
    simp only [values, List.length_map, h.codebooks, min_self]
  have hbias : (match q'.values.bias, q.values.bias with
      | some _, some x => some x
      | b, _ => b) = q.values.bias := by
    have hb := h.bias
    unfold values
    cases hq : q.bias <;> cases hq' : q'.bias
    · rfl
    · rw [hq, hq'] at hb
      cases hb
    · rw [hq, hq'] at hb
      cases hb
    · rfl
  rw [values_store, hcodebooks, hbias]

end QatLinear

namespace OffloadAdamW

variable {sqrt : α → α} {opt opt' : OffloadAdamW α}

omit [LinearOrder α] [Field α] in
/-- The state set for a parameter is the one found. -/
theorem get?_set (id k : ℕ) (st : Moments α) :
    get? { opt with state := Dict.set opt.state k st } id = if id = k then some st else opt.get? id := by
  have hkey : ∀ d : List (ℕ × Moments α), (d.map fun w => if w.1 = k then (k, st) else w).find? (fun w => w.1 = id) =
      (d.find? fun w => w.1 = id).map fun w => if w.1 = k then (k, st) else w := by
    intro d
    rw [List.find?_map]
    refine congrArg _ (congrArg (fun p => d.find? p) (funext fun w => ?_))
    simp only [Function.comp_apply]
    split
    · next h => rw [h]
    · rfl
  unfold get? Dict.set
  split
  · next hmem =>
    simp only [hkey, Option.map_map]
    cases hfind : opt.state.find? fun w => w.1 = id with
    | none =>
      rw [List.find?_eq_none] at hfind
      rw [if_neg fun h => ?_]
      · rfl
      · obtain ⟨w, hw, hwk⟩ := List.mem_map.1 hmem
        exact hfind w hw (by simpa using hwk.trans h.symm)
    | some w =>
      have hw : w.1 = id := by simpa using List.find?_some hfind
      by_cases h : id = k
      · simp [hw, h]
      · simp [hw, h]
  · next hmem =>
    simp only [List.find?_append, List.find?_singleton]
    by_cases h : id = k
    · subst h
      have hnone : (opt.state.find? fun w => w.1 = id) = none := by
        rw [List.find?_eq_none]
        exact fun w hw hwk => hmem (List.mem_map.2 ⟨w, hw, by simpa using hwk⟩)
      simp [hnone]
    · simp [h, Ne.symm h]

/-- Two optimizers that differ only in the moments of parameters other than these. -/
def AgreeOn (ids : List ℕ) (opt opt' : OffloadAdamW α) : Prop :=
  { opt with state := [] } = { opt' with state := [] } ∧ ∀ id ∈ ids, opt.get? id = opt'.get? id

omit [LinearOrder α] [Field α] in
/-- Setting one state in both keeps the agreement. -/
theorem AgreeOn.set {ids : List ℕ} (h : AgreeOn ids opt opt') (k : ℕ) (st : Moments α) :
    AgreeOn ids { opt with state := Dict.set opt.state k st } { opt' with state := Dict.set opt'.state k st } :=
  ⟨h.1, fun id hid => by rw [get?_set, get?_set, h.2 id hid]⟩

/-- Optimizers that agree on a parameter step it alike. -/
theorem AgreeOn.stepParam {ids : List ℕ} (h : AgreeOn ids opt opt') {p : QatParam α} (hp : p.id ∈ ids) :
    AgreeOn ids (OffloadAdamW.stepParam sqrt opt p).1 (OffloadAdamW.stepParam sqrt opt' p).1 ∧
      (OffloadAdamW.stepParam sqrt opt p).2 = (OffloadAdamW.stepParam sqrt opt' p).2 := by
  have hget := h.2
  have hset := h.set p.id
  have hsame := h.1
  obtain ⟨lr, b1, b2, eps, wd, t, state⟩ := opt
  obtain ⟨lr', b1', b2', eps', wd', t', state'⟩ := opt'
  obtain ⟨rfl, rfl, rfl, rfl, rfl, rfl⟩ : lr = lr' ∧ b1 = b1' ∧ b2 = b2' ∧ eps = eps' ∧ wd = wd' ∧ t = t' := by
    simpa using hsame
  unfold OffloadAdamW.stepParam
  cases p.grad with
  | none => exact ⟨h, rfl⟩
  | some g =>
    simp only [hget p.id hp]
    split
    · exact ⟨hset _, rfl⟩
    · exact ⟨hset _, rfl⟩

/-- Optimizers that agree on the parameters step them alike. -/
theorem AgreeOn.stepParams {ids : List ℕ} {ps : List (QatParam α)} (h : AgreeOn ids opt opt') (hps : ∀ p ∈ ps, p.id ∈ ids) :
    (OffloadAdamW.stepParams sqrt opt ps).2 = (OffloadAdamW.stepParams sqrt opt' ps).2 := by
  induction ps generalizing opt opt' with
  | nil => rfl
  | cons p ps ih =>
    obtain ⟨hfirst, hp⟩ : AgreeOn ids (OffloadAdamW.stepParam sqrt opt p).1 (OffloadAdamW.stepParam sqrt opt' p).1 ∧ _ :=
      h.stepParam (hps p List.mem_cons_self)
    rw [OffloadAdamW.stepParams, OffloadAdamW.stepParams, hp, ih hfirst fun q hq => hps q (List.mem_cons_of_mem _ hq)]

/-- `CPUOffloadAdamW` keeps its moments by identity: parameters of other identities are stepped as if no moments had been saved. -/
theorem step_loadStateDict_other {ps : List (QatParam α)} (hps : ∀ p ∈ ps, p.id ∉ opt'.state.map Prod.fst) :
    ((opt.loadStateDict opt'.stateDict).step sqrt ps).2 = (({ opt with t := opt'.t, state := [] } : OffloadAdamW α).step sqrt ps).2 := by
  have hagree : AgreeOn (ps.map QatParam.id) { opt.loadStateDict opt'.stateDict with t := opt'.t + 1 }
      { opt with t := opt'.t + 1, state := [] } := by
    refine ⟨rfl, fun id hid => ?_⟩
    obtain ⟨p, hp, rfl⟩ := List.mem_map.1 hid
    have hnone : (opt'.state.find? fun w => w.1 = p.id) = none := by
      rw [List.find?_eq_none]
      exact fun w hw hwp => hps p hp (List.mem_map.2 ⟨w, hw, by simpa using hwp⟩)
    exact congrArg (Option.map Prod.snd) hnone
  exact hagree.stepParams fun p hp => List.mem_map_of_mem hp

end OffloadAdamW

open QatLinear

/-- Related lists that a function does not tell apart map alike. -/
theorem map_eq_of_forall₂ {A B : Type} {R : A → A → Prop} {xs ys : List A} {f : A → B} (hR : ∀ x y, R x y → f x = f y)
    (h : List.Forall₂ R xs ys) : xs.map f = ys.map f := by
  induction h with
  | nil => rfl
  | cons hxy _ ih => rw [List.map_cons, List.map_cons, hR _ _ hxy, ih]

/-- A relation kept by a function is kept by zipping with it. -/
theorem forall₂_zipWith {A B C : Type} {R : A → A → Prop} {S : C → C → Prop} {f : A → B → C} {xs ys : List A}
    (hf : ∀ x y b, R x y → S (f x b) (f y b)) (h : List.Forall₂ R xs ys) (bs : List B) :
    List.Forall₂ S (List.zipWith f xs bs) (List.zipWith f ys bs) := by
  induction h generalizing bs with
  | nil => exact .nil
  | cons hxy _ ih =>
    cases bs with
    | nil => exact .nil
    | cons b bs => exact .cons (hf _ _ b hxy) (ih bs)

/-- The layers of an uninterrupted run and of a resumed one: in step, or due. -/
def Ready (q q' : QatLinear α) : Prop := InStep q q' ∨ Twin q q' ∧ q.wantRefresh.1 = true ∧ q'.wantRefresh.1 = true

/-- Ready layers are in step after a forward. -/
theorem Ready.forward {q q' : QatLinear α} : Ready q q' → InStep q.forward q'.forward
  | .inl h => h.forward
  | .inr ⟨h, hq, hq'⟩ => h.forward hq hq'

omit [Field α] [LinearOrder α] in
/-- Ready layers hold the same values. -/
theorem Ready.values {q q' : QatLinear α} : Ready q q' → q.values = q'.values
  | .inl h => h.values
  | .inr ⟨h, _⟩ => h.values

omit [Field α] [LinearOrder α] in
/-- Layers that are due and the layers rebuilt for them, with the values loaded. -/
theorem forall₂_load {ls ls' : List (QatLinear α)} (hnew : List.Forall₂ Rebuilt ls ls') (hdue : ∀ l ∈ ls, l.wantRefresh.1 = true) :
    List.Forall₂ Ready ls (List.zipWith (fun l v => l.store v 1) ls' (ls.map QatLinear.values)) := by
  induction hnew with
  | nil => exact .nil
  | cons hq _ ih =>
    refine .cons (.inr ⟨hq.load, hdue _ List.mem_cons_self, ?_⟩) (ih fun l hl => hdue l (List.mem_cons_of_mem _ hl))
    rw [wantRefresh_none (show (QatLinear.store _ _ 1).cachedIdx = none from hq.unused)]

namespace Trainer

variable {β γ σ τ ρ : Type} {T : Trainer α β γ σ τ ρ} {s s' : Training α σ τ ρ}

/-- What PyTorch states of an optimizer, a schedule and a generator whose saved state a new object loads. The first part says that
an optimizer does not tell parameters by their identities. -/
structure Restores (T : Trainer α β γ σ τ ρ) (new : Training α σ τ ρ) : Prop where
  identities : ∀ opt ids ids' values grads, T.optStep opt ids values grads = T.optStep opt ids' values grads
  opt : ∀ opt, T.optLoad new.opt opt = opt
  sched : ∀ sched, T.schedLoad new.sched sched = sched
  rng : ∀ rng, T.rngSetState new.rng rng = rng

/-- Two processes whose next steps are the same. -/
structure Matched (s s' : Training α σ τ ρ) : Prop where
  layers : List.Forall₂ Ready s.layers s'.layers
  opt : s.opt = s'.opt
  sched : s.sched = s'.sched
  rng : s.rng = s'.rng

/-- A micro-batch takes matched layers to layers in step, with the same gradients. -/
theorem microBatch_ready {w w' : List (QatLinear α) × γ × ρ} (h : List.Forall₂ Ready w.1 w'.1) (hw : w.2 = w'.2) :
    List.Forall₂ InStep (T.microBatch w).1 (T.microBatch w').1 ∧ (T.microBatch w).2 = (T.microBatch w').2 := by
  have hforward : List.Forall₂ InStep (w.1.map QatLinear.forward) (w'.1.map QatLinear.forward) := by
    rw [List.forall₂_map_left_iff, List.forall₂_map_right_iff]
    exact h.imp fun _ _ => Ready.forward
  refine ⟨?_, ?_⟩
  · unfold microBatch
    rw [List.forall₂_map_left_iff, List.forall₂_map_right_iff]
    exact hforward.imp fun _ _ hq => hq.iterate T.recomputes
  · have hvalues := map_eq_of_forall₂ (f := QatLinear.values) (fun _ _ hq => hq.values) hforward
    have hcached := map_eq_of_forall₂ (f := QatLinear.cachedIdx) (fun _ _ ⟨_, ⟨_, hq, hq'⟩, _, _⟩ => hq.trans hq'.symm) hforward
    unfold microBatch
    simp only [hvalues, hcached, hw]

/-- One accumulation brings ready layers in step and draws alike. -/
theorem accumulate_ready {ls ls' : List (QatLinear α)} (rng : ρ) (h : List.Forall₂ Ready ls ls') :
    List.Forall₂ InStep (T.accumulate ls rng).1 (T.accumulate ls' rng).1 ∧ (T.accumulate ls rng).2 = (T.accumulate ls' rng).2 := by
  obtain ⟨n, hn⟩ : ∃ n, (max 1 T.gradAccum).toNat = n + 1 := ⟨(max 1 T.gradAccum).toNat - 1, by omega⟩
  unfold accumulate
  rw [hn]
  clear hn
  induction n with
  | zero => exact microBatch_ready h rfl
  | succ n ih =>
    rw [Function.iterate_succ_apply', Function.iterate_succ_apply' _ (n + 1)]
    exact microBatch_ready (ih.1.imp fun _ _ => Or.inl) ih.2

/-- **Simulation.** Matched processes stay matched. -/
theorem Matched.trainStep (hident : ∀ opt ids ids' values grads, T.optStep opt ids values grads = T.optStep opt ids' values grads)
    (h : Matched s s') : Matched (T.trainStep s) (T.trainStep s') := by
  obtain ⟨hlayers, hrest⟩ := accumulate_ready (T := T) s.rng h.layers
  have hvalues := map_eq_of_forall₂ (f := QatLinear.values) (fun _ _ hq => hq.values) hlayers
  have hupdate : T.optStep s.opt ((T.accumulate s.layers s.rng).1.flatMap fun l => l.params.map QatParam.id)
        ((T.accumulate s.layers s.rng).1.map QatLinear.values) (T.clipGradNorm (T.accumulate s.layers s.rng).2.1) =
      T.optStep s'.opt ((T.accumulate s'.layers s'.rng).1.flatMap fun l => l.params.map QatParam.id)
        ((T.accumulate s'.layers s'.rng).1.map QatLinear.values) (T.clipGradNorm (T.accumulate s'.layers s'.rng).2.1) := by
    rw [← h.rng, ← h.opt, hvalues, hrest]
    exact hident ..
  unfold Trainer.trainStep
  refine ⟨?_, ?_, ?_, ?_⟩
  · simp only [hupdate, ← h.rng]
    exact forall₂_zipWith (R := InStep) (f := fun l v => l.store v T.bumps) (fun _ _ v hq => Or.inl (hq.store v T.bumps)) hlayers _
  · simp only [hupdate, h.sched]
  · simp only [hupdate, h.sched]
  · simp only [← h.rng, hrest]

/-- A micro-batch leaves every layer having seen the version of its shadow. -/
theorem microBatch_seen {w : List (QatLinear α) × γ × ρ} (h : ∀ l ∈ w.1, l.reassignEvery ≤ 1) :
    ∀ l ∈ (T.microBatch w).1, l.reassignEvery ≤ 1 ∧ l.lastVersion = l.shadow.version := by
  intro l hl
  obtain ⟨l', hl', rfl⟩ := List.mem_map.1 hl
  obtain ⟨l, hmem, rfl⟩ := List.mem_map.1 hl'
  rw [← Function.iterate_succ_apply (f := QatLinear.forward) T.recomputes, Function.iterate_succ_apply']
  have hR : (QatLinear.forward^[T.recomputes] l).reassignEvery = l.reassignEvery := by
    induction T.recomputes with
    | zero => rfl
    | succ n ih => rw [Function.iterate_succ_apply', reassignEvery_forward, ih]
  rw [reassignEvery_forward, hR]
  exact ⟨h l hmem, lastVersion_forward _⟩

/-- After an accumulation every layer has seen its shadow's version. -/
theorem accumulate_seen {ls : List (QatLinear α)} (rng : ρ) (h : ∀ l ∈ ls, l.reassignEvery ≤ 1) :
    ∀ l ∈ (T.accumulate ls rng).1, l.reassignEvery ≤ 1 ∧ l.lastVersion = l.shadow.version := by
  obtain ⟨n, hn⟩ : ∃ n, (max 1 T.gradAccum).toNat = n + 1 := ⟨(max 1 T.gradAccum).toNat - 1, by omega⟩
  unfold accumulate
  rw [hn]
  clear hn
  induction n with
  | zero => exact microBatch_seen h
  | succ n ih =>
    rw [Function.iterate_succ_apply']
    exact microBatch_seen fun l hl => (ih l hl).1

/-- With a search after every step and an optimizer that writes in place, every layer is due after a step. -/
theorem due_trainStep (hR : ∀ l ∈ s.layers, l.reassignEvery ≤ 1) (hbumps : 0 < T.bumps) :
    ∀ l ∈ (T.trainStep s).layers, l.wantRefresh.1 = true := by
  intro l hl
  obtain ⟨i, hi, rfl⟩ := List.getElem_of_mem hl
  rw [show (T.trainStep s).layers[i] = _ from List.getElem_zipWith]
  obtain ⟨hR', hseen⟩ := accumulate_seen (T := T) s.rng hR _ (List.getElem_mem _)
  exact due_store hR' hseen hbumps

/-- **Resuming.** If every layer is due where a checkpoint is saved, and the optimizer's state is found again, the resumed run has the
parameters of the uninterrupted one after every further step. -/
theorem resumed_values_eq {start new : Training α σ τ ρ} {k : ℕ} (hload : T.Restores new)
    (hnew : List.Forall₂ Rebuilt (T.trainStep^[k] start).layers new.layers)
    (hdue : ∀ l ∈ (T.trainStep^[k] start).layers, l.wantRefresh.1 = true) (n : ℕ) :
    (T.trainStep^[n] (T.resume new (T.trainStep^[k] start).saveCkpt)).values = (T.trainStep^[n + k] start).values := by
  rw [Function.iterate_add_apply]
  have hmatched : Matched (T.trainStep^[n] (T.trainStep^[k] start))
      (T.trainStep^[n] (T.resume new (T.trainStep^[k] start).saveCkpt)) := by
    induction n with
    | zero =>
      exact ⟨forall₂_load hnew hdue, (hload.opt _).symm, (hload.sched _).symm, (hload.rng _).symm⟩
    | succ n ih =>
      rw [Function.iterate_succ_apply', Function.iterate_succ_apply']
      exact ih.trainStep hload.identities
  exact (map_eq_of_forall₂ (fun _ _ => Ready.values) hmatched.layers).symm

/-- A gradient that is the sum of the indices used, and an optimizer that takes a hundredth of it, and a thousandth beside, from
every weight. -/
def indexTrainer : Trainer ℚ Unit ℚ Unit Unit Unit where
  zeroGrad := 0
  randint _ := ((), ())
  backward grad _ idx _ := grad + (idx.map fun l => (((l.getD []).flatten.sum : ℕ) : ℚ)).sum
  clipGradNorm := id
  optStep _ _ values grad := ((), values.map fun v => { v with shadow := v.shadow.map fun x => x - 1/1000 - grad/100 })
  bumps := 1
  schedStep _ _ := ((), ())
  optLoad _ old := old
  schedLoad _ old := old
  rngSetState _ old := old

/-- A process with one layer of two weights, whose assignment is searched every `R` steps. -/
def oneLayer (R : ℤ) : Training ℚ Unit Unit Unit := ⟨[{ QatRun.twoWeights false with reassignEvery := R }], (), (), (), 0⟩

/-- One layer, saved after a step and resumed for three. -/
theorem resumed_values_eq_oneLayer :
    (indexTrainer.trainStep^[3] (indexTrainer.resume (oneLayer 1) (indexTrainer.trainStep^[1] (oneLayer 1)).saveCkpt)).values =
      (indexTrainer.trainStep^[3 + 1] (oneLayer 1)).values :=
  resumed_values_eq ⟨fun _ _ _ _ _ => rfl, fun _ => rfl, fun _ => rfl, fun _ => rfl⟩
    (.cons ⟨rfl, rfl, rfl, rfl, rfl, rfl⟩ .nil) (by decide +kernel) 3

/-- With a search every two steps, a run resumed after one step searches at once and the uninterrupted run does not. -/
theorem resumed_values_differ :
    indexTrainer.Restores (oneLayer 2) ∧ List.Forall₂ Rebuilt (indexTrainer.trainStep^[1] (oneLayer 2)).layers (oneLayer 2).layers ∧
      (indexTrainer.trainStep^[1] (indexTrainer.resume (oneLayer 2) (indexTrainer.trainStep^[1] (oneLayer 2)).saveCkpt)).values ≠
        (indexTrainer.trainStep^[1 + 1] (oneLayer 2)).values :=
  ⟨⟨fun _ _ _ _ _ => rfl, fun _ => rfl, fun _ => rfl, fun _ => rfl⟩, .cons ⟨rfl, rfl, rfl, rfl, rfl, rfl⟩ .nil, by decide +kernel⟩

end Trainer

end Orka
