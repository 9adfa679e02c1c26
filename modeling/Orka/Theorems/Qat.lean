import Orka.Qat

/-!
# How old a cached assignment is

A forward that does not refresh counts a step by the change of the shadow's version. Where every step changes the version, the count
is the age of the cached assignment in steps.
-/

namespace Orka

open Machine

variable {α : Type} [Field α] [LinearOrder α]

namespace QatLinear

variable {q : QatLinear α}

/-- A forward that refreshes searches the assignment and counts anew. -/
theorem forward_refresh (h : q.wantRefresh.1 = true) :
    q.forward = { q with
      cachedIdx := some (q.values.stageAssign q.groupSize q.blockSize), lastVersion := q.shadow.version, optstepsSince := 0 } := by
  have hnoted : ∃ v n, q.wantRefresh.2 = { q with lastVersion := v, optstepsSince := n } := by
    unfold wantRefresh
    split
    · exact ⟨_, _, rfl⟩
    · simp only
      split <;> exact ⟨_, _, rfl⟩
  obtain ⟨v, n, hnoted⟩ := hnoted
  unfold forward quantizeImpl
  simp only [h, if_true, hnoted]
  rfl

/-- A forward that does not refresh keeps the assignment. -/
theorem forward_reuse (h : q.wantRefresh.1 = false) : q.forward = q.wantRefresh.2 := by
  unfold forward quantizeImpl
  simp only [h, Bool.false_eq_true, if_false]

omit [Field α] [LinearOrder α] in
/-- What the layer asks for, and notes, where an assignment is cached. -/
theorem wantRefresh_cached {idx : List (List ℕ)} (h : q.cachedIdx = some idx) :
    ((q.shadow.version : ℤ) = q.lastVersion ∧ q.wantRefresh = (decide (q.reassignEvery ≤ q.optstepsSince), q)) ∨
      ((q.shadow.version : ℤ) ≠ q.lastVersion ∧ q.wantRefresh = (decide (q.reassignEvery ≤ (q.optstepsSince + 1 : ℕ)),
        { q with lastVersion := q.shadow.version, optstepsSince := q.optstepsSince + 1 })) := by
  by_cases hv : (q.shadow.version : ℤ) = q.lastVersion
  · refine Or.inl ⟨hv, ?_⟩
    simp only [wantRefresh, h, hv, ne_eq, not_true_eq_false, if_false]
  · refine Or.inr ⟨hv, ?_⟩
    simp only [wantRefresh, h, ne_eq, hv, not_false_eq_true, if_true]

omit [Field α] [LinearOrder α] in
theorem wantRefresh_none (h : q.cachedIdx = none) : q.wantRefresh = (true, q) := by
  simp only [wantRefresh, h]

end QatLinear

namespace QatRun

variable {sqrt : α → α} {s s' : QatRun α}

/-- The steps of a run as they come in training: a forward lies between two of them, and each changes the shadow. -/
def Alternates (s : QatRun α) : QatAct α → Prop
  | .forward => True
  | .inPlace _ _ => s.stepped = false
  | .offload grads => s.stepped = false ∧ ∃ g, grads.head? = some (some g)

/-- `CPUOffloadAdamW` holds, or is about to take, the parameter itself as its master copy. -/
def WritesInPlace (opt : OffloadAdamW α) (p : QatParam α) : Prop :=
  match opt.get? p.id with
  | none => p.hostFloat = true
  | some st => st.p32 = none

/-- A step of `CPUOffloadAdamW` comes before any assignment is cached, or writes to the shadow itself. -/
def Counted (s : QatRun α) : QatAct α → Prop
  | .offload _ => s.layer.cachedIdx = none ∨ WritesInPlace s.opt s.layer.shadow
  | _ => True

/-- The cached assignment is that of the values some number of steps ago, and that number is what the layer has counted, with the
step that it has not yet seen. -/
structure Dated (groupSize blockSize : ℕ) (R : ℤ) (s : QatRun α) : Prop where
  config : s.layer.groupSize = groupSize ∧ s.layer.blockSize = blockSize ∧ s.layer.reassignEvery = R
  head : s.past.head? = some s.layer.values
  cached : ∀ idx, s.layer.cachedIdx = some idx → ∃ age v, s.past[age]? = some v ∧ idx = v.stageAssign groupSize blockSize ∧
    (s.layer.optstepsSince : ℤ) < R ∧
    if s.stepped then age = s.layer.optstepsSince + 1 ∧ s.layer.lastVersion < s.layer.shadow.version
    else age = s.layer.optstepsSince ∧ s.layer.lastVersion = s.layer.shadow.version

variable {groupSize blockSize : ℕ} {R : ℤ}

/-- A forward uses an assignment of values of fewer than `R` steps ago. -/
theorem Dated.forward (hR : 1 ≤ R) (h : Dated groupSize blockSize R s) :
    Dated groupSize blockSize R { s with layer := s.layer.forward, stepped := false } ∧
      ∃ (k : ℕ) (v : LayerValues α), (k : ℤ) < R ∧ s.past[k]? = some v ∧
        s.layer.forward.cachedIdx = some (v.stageAssign groupSize blockSize) := by
  obtain ⟨hg, hb, hRe⟩ := h.config
  have hhead : s.past[0]? = some s.layer.values := by rw [← List.head?_eq_getElem?]; exact h.head
  cases hwant : s.layer.wantRefresh.1 with
  | true =>
    have hassign : s.layer.values.stageAssign s.layer.groupSize s.layer.blockSize =
        s.layer.values.stageAssign groupSize blockSize := by rw [hg, hb]
    rw [QatLinear.forward_refresh hwant]
    refine ⟨⟨⟨hg, hb, hRe⟩, h.head, fun idx hidx => ?_⟩, 0, _, by exact_mod_cast hR, hhead, congrArg some hassign⟩
    obtain rfl := Option.some.inj hidx
    exact ⟨0, _, hhead, hassign, by change ((0 : ℕ) : ℤ) < R; omega, rfl, rfl⟩
  | false =>
    cases hidx : s.layer.cachedIdx with
    | none =>
      rw [QatLinear.wantRefresh_none hidx] at hwant
      cases hwant
    | some idx =>
      obtain ⟨age, v, hage, rfl, hlt, hcount⟩ := h.cached idx hidx
      rw [QatLinear.forward_reuse hwant]
      rcases QatLinear.wantRefresh_cached hidx with ⟨hv, heq⟩ | ⟨hv, heq⟩
      · -- the version has not changed, so no step has come
        have hstepped : s.stepped = false := by
          by_contra hyes
          rw [if_pos (by simpa using hyes)] at hcount
          omega
        rw [if_neg (by simp [hstepped])] at hcount
        rw [heq]
        refine ⟨⟨⟨hg, hb, hRe⟩, h.head, fun idx' hidx' => ?_⟩, age, v, by rw [hcount.1]; exact hlt, hage, hidx⟩
        obtain rfl := Option.some.inj (hidx.symm.trans hidx')
        exact ⟨age, v, hage, rfl, hlt, hcount⟩
      · have hstepped : s.stepped = true := by
          by_contra hno
          rw [if_neg hno] at hcount
          exact hv hcount.2.symm
        rw [if_pos hstepped] at hcount
        rw [heq, hRe, decide_eq_false_iff_not, not_le] at hwant
        rw [heq]
        refine ⟨⟨⟨hg, hb, hRe⟩, h.head, fun idx' hidx' => ?_⟩, age, v, by rw [hcount.1]; exact hwant, hage, hidx⟩
        obtain rfl := Option.some.inj (hidx.symm.trans hidx')
        exact ⟨age, v, hage, rfl, hwant, hcount.1, rfl⟩

/-- After a step that changes the shadow's version the cached assignment is one step older, and the layer will see it. -/
theorem Dated.stepped (h : Dated groupSize blockSize R s) (hfirst : s.stepped = false) {layer : QatLinear α} {opt : OffloadAdamW α}
    (hconfig : layer.groupSize = s.layer.groupSize ∧ layer.blockSize = s.layer.blockSize ∧
      layer.reassignEvery = s.layer.reassignEvery)
    (hcache : layer.cachedIdx = s.layer.cachedIdx ∧ layer.lastVersion = s.layer.lastVersion ∧
      layer.optstepsSince = s.layer.optstepsSince)
    (hversion : s.layer.cachedIdx = none ∨ s.layer.shadow.version < layer.shadow.version) :
    Dated groupSize blockSize R ⟨layer, opt, layer.values :: s.past, true⟩ := by
  obtain ⟨hg, hb, hRe⟩ := hconfig
  obtain ⟨hidxs, hlast, hsince⟩ := hcache
  refine ⟨⟨hg.trans h.config.1, hb.trans h.config.2.1, hRe.trans h.config.2.2⟩, rfl, fun idx hidx => ?_⟩
  change layer.cachedIdx = some idx at hidx
  rw [hidxs] at hidx
  obtain ⟨age, v, hage, rfl, hlt, hcount⟩ := h.cached idx hidx
  rw [if_neg (by simp [hfirst])] at hcount
  have hmore : s.layer.shadow.version < layer.shadow.version := hversion.resolve_left (by rw [hidx]; nofun)
  refine ⟨age + 1, v, hage, rfl, hsince ▸ hlt, ?_⟩
  rw [if_pos rfl]
  change age + 1 = layer.optstepsSince + 1 ∧ layer.lastVersion < layer.shadow.version
  rw [hsince, hlast, hcount.1, hcount.2]
  exact ⟨rfl, by exact_mod_cast hmore⟩

/-- A master copy that is the parameter itself is written in place. -/
theorem version_stepParam {opt : OffloadAdamW α} {p : QatParam α} {g : List α} (hg : p.grad = some g) (hp : WritesInPlace opt p) :
    p.version < (OffloadAdamW.stepParam sqrt opt p).2.version := by
  have hmaster : ∀ m v : List α, ((opt.get? p.id).getD ⟨m, v, if p.hostFloat then none else some p.value⟩).p32 = none := by
    intro m v
    unfold WritesInPlace at hp
    split at hp
    · next h => simp [h, hp]
    · next st h => simpa [h] using hp
  unfold OffloadAdamW.stepParam
  simp only [hg, hmaster, QatParam.store]
  split <;> omega

/-- `CPUOffloadAdamW` steps the shadow first, and leaves alone what a layer has beside its parameters. -/
theorem step_offload {grads : List (Option (List α))} {g : List α} (hg : grads.head? = some (some g))
    (hstep : s.step sqrt (.offload grads) = some s') :
    ∃ scales codebooks bias, s'.layer = { s.layer with
        shadow := (OffloadAdamW.stepParam sqrt { s.opt with t := s.opt.t + 1 } { s.layer.shadow with grad := some g }).2
        scales := scales, codebooks := codebooks, bias := bias } ∧
      s' = ⟨s'.layer, s'.opt, s'.layer.values :: s.past, true⟩ := by
  rw [QatRun.step] at hstep
  split at hstep
  case isFalse => cases hstep
  next hlen =>
    obtain rfl := Option.some.inj hstep
    obtain _ | ⟨g', _ | ⟨g'', gs⟩⟩ := grads
    · cases hg
    · simp [QatLinear.params] at hlen
    · obtain rfl : g' = some g := Option.some.inj hg
      exact ⟨_, _, _, rfl, rfl⟩

/-- **Invariant.** Where every step changes the shadow's version, the count is the age. -/
theorem Dated.step {a : QatAct α} (hR : 1 ≤ R) (h : Dated groupSize blockSize R s) (ha : Alternates s a ∧ Counted s a)
    (hstep : s.step sqrt a = some s') : Dated groupSize blockSize R s' := by
  obtain ⟨halt, hcount⟩ := ha
  cases a with
  | forward =>
    obtain rfl := Option.some.inj hstep
    exact (h.forward hR).1
  | inPlace v more =>
    obtain rfl := Option.some.inj hstep
    refine h.stepped halt ⟨rfl, rfl, rfl⟩ ⟨rfl, rfl, rfl⟩ (Or.inr ?_)
    change s.layer.shadow.version < s.layer.shadow.version + (more + 1)
    omega
  | offload grads =>
    obtain ⟨hfirst, g, hg⟩ := halt
    obtain ⟨scales, codebooks, bias, hlayer, hs'⟩ := step_offload hg hstep
    rw [hs']
    refine h.stepped hfirst ?_ ?_ (hcount.imp_right fun hp => ?_)
    · rw [hlayer]
      exact ⟨rfl, rfl, rfl⟩
    · rw [hlayer]
      exact ⟨rfl, rfl, rfl⟩
    · rw [hlayer]
      exact version_stepParam (p := { s.layer.shadow with grad := some g }) rfl hp

/-- **The age of an assignment.** In a run with a forward between any two steps, where `CPUOffloadAdamW` only steps a layer that has
nothing cached or whose shadow is its own master copy, a forward uses the assignment of the values of fewer than `R` steps ago. -/
theorem forward_assignment_recent {layer : QatLinear α} {opt : OffloadAdamW α} {acts : List (QatAct α)}
    (hnew : layer.cachedIdx = none) (hR : 1 ≤ layer.reassignEvery) (hrun : run (step sqrt) (start layer opt) acts = some s)
    (halt : Along (step sqrt) Alternates (start layer opt) acts) (hcount : Along (step sqrt) Counted (start layer opt) acts) :
    ∃ (k : ℕ) (v : LayerValues α), (k : ℤ) < layer.reassignEvery ∧ s.past[k]? = some v ∧
      s.layer.forward.cachedIdx = some (v.stageAssign layer.groupSize layer.blockSize) := by
  have hstart : Dated layer.groupSize layer.blockSize layer.reassignEvery (start layer opt) :=
    ⟨⟨rfl, rfl, rfl⟩, rfl, fun idx hidx => by cases hnew.symm.trans hidx⟩
  exact ((invariant (fun _ _ _ ha h hstep => h.step hR ha hstep) hstart (halt.and hcount) hrun).forward hR).2

/-- A layer of two weights, whose second lies just nearer to the first row of its codebook, in host memory or not. -/
def twoWeights (hostFloat : Bool) : QatLinear ℚ where
  groupSize := 1
  blockSize := 2
  shadow := { id := 0, value := [1, 5004/10000], hostFloat := hostFloat }
  scales := { id := 1, value := [1] }
  codebooks := [{ id := 2, value := [1, 0] }]

/-- `CPUOffloadAdamW` as it is made by default. -/
def offloadAdamW : OffloadAdamW ℚ := { lr := 1/1000, b1 := 9/10, b2 := 999/1000, eps := 1/100000000, wd := 1/100 }

/-- Gradients of `1` for the two weights and none for the rest. -/
def unitGrads : List (Option (List ℚ)) := [some [1, 1], none, none]

/-- Two weights, a forward and a step of the offloaded optimizer. -/
theorem forward_assignment_recent_twoWeights :
    ∃ s, run (step Rat.sqrt) (start (twoWeights true) offloadAdamW) [.forward, .offload unitGrads] = some s ∧
      ∃ (k : ℕ) (v : LayerValues ℚ), (k : ℤ) < 1 ∧ s.past[k]? = some v ∧
        s.layer.forward.cachedIdx = some (v.stageAssign 1 2) := by
  have hsome : (run (step Rat.sqrt) (start (twoWeights true) offloadAdamW) [.forward, .offload unitGrads]).isSome := by
    decide +kernel
  obtain ⟨s, hs⟩ := Option.isSome_iff_exists.1 hsome
  refine ⟨s, hs, forward_assignment_recent rfl le_rfl hs ⟨trivial, fun t ht => ?_⟩ ⟨trivial, fun t ht => ?_⟩⟩
  · obtain rfl := Option.some.inj ht
    exact ⟨⟨rfl, _, rfl⟩, fun _ _ => trivial⟩
  · obtain rfl := Option.some.inj ht
    exact ⟨Or.inr rfl, fun _ _ => trivial⟩

/-- With the weights elsewhere, the master copy apart from them, a step moves the second weight to the other row and the next forward
does not see it, though every step asks for a new assignment. -/
theorem forward_assignment_stale :
    ∃ s, run (step Rat.sqrt) (start (twoWeights false) offloadAdamW) [.forward, .offload unitGrads] = some s ∧
      Along (step Rat.sqrt) Alternates (start (twoWeights false) offloadAdamW) [.forward, .offload unitGrads] ∧
      ¬∃ (k : ℕ) (v : LayerValues ℚ), (k : ℤ) < 1 ∧ s.past[k]? = some v ∧
        s.layer.forward.cachedIdx = some (v.stageAssign 1 2) := by
  have hrun : (run (step Rat.sqrt) (start (twoWeights false) offloadAdamW) [.forward, .offload unitGrads]).any fun s =>
      s.past.head?.map (fun v => v.stageAssign 1 2) = some [[0, 1]] ∧ s.layer.forward.cachedIdx = some [[0, 0]] := by
    decide +kernel
  obtain ⟨s, hs, hs'⟩ := (Option.any_eq_true _ _).1 hrun
  obtain ⟨hnow, hused⟩ := of_decide_eq_true hs'
  refine ⟨s, hs, ⟨trivial, fun t ht => ?_⟩, fun ⟨k, v, hk, hv, hidx⟩ => ?_⟩
  · obtain rfl := Option.some.inj ht
    exact ⟨⟨rfl, _, rfl⟩, fun _ _ => trivial⟩
  · obtain rfl : k = 0 := by omega
    rw [List.head?_eq_getElem?, hv] at hnow
    rw [hused] at hidx
    cases (Option.some.inj hidx).trans (Option.some.inj hnow)

end QatRun

end Orka
