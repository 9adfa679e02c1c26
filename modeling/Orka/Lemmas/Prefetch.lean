import Orka.Prefetch

/-!
# The tensors a pack takes, without the loop

What the loop of the producer has sorted after a prefix of the source is a function of the prefix, until `max_tensors` cuts the
loop off.
-/

namespace Orka

open Steps

variable {τ : Type}

namespace SelectArgs

variable (args : SelectArgs)

/-- A candidate that is listed and not skipped: the tensors that are counted. -/
def eligible (t : SourceTensor τ) : Bool := isQuantCandidate t.name t.shape && args.listed t.name && !args.skipped t.name

/-- A tensor that stays as it is. -/
def passes (t : SourceTensor τ) : Bool :=
  !isQuantCandidate t.name t.shape || (!args.listed t.name && args.onlyTensorsPassthrough) ||
    (args.listed t.name && args.skipped t.name)

/-- The number of tensors counted. -/
def counted (ts : List (SourceTensor τ)) : ℕ := ts.countP args.eligible

/-- The counted tensors of the pack's slot, with `n` counted before. -/
def emittedFrom : ℕ → List (SourceTensor τ) → List (SourceTensor τ)
  | _, [] => []
  | n, t :: ts =>
    if args.eligible t then (if args.ownSlot n then t :: emittedFrom (n + 1) ts else emittedFrom (n + 1) ts)
    else emittedFrom n ts

/-- The listed candidate `t` comes after `pre` and finds `max_tensors` candidates emitted. -/
def CutAt (pre : List (SourceTensor τ)) (t : SourceTensor τ) : Prop :=
  isQuantCandidate t.name t.shape = true ∧ args.listed t.name = true ∧ args.full (args.emittedFrom 0 pre).length = true

/-- The tensor `t` after `pre` is beyond `max_tensors`: it or a tensor before it was cut off. -/
def BeyondMax (pre : List (SourceTensor τ)) (t : SourceTensor τ) : Prop :=
  ∃ a s b, pre ++ [t] = a ++ s :: b ∧ args.CutAt a s

/-- The candidate `t` after `pre` is left out on purpose: it is unlisted and unlisted tensors do not pass through, or it is in
the slot of another partition, or beyond `max_tensors`. -/
def Omitted (pre : List (SourceTensor τ)) (t : SourceTensor τ) : Prop :=
  (args.listed t.name = false ∧ args.onlyTensorsPassthrough = false) ∨
    (args.eligible t = true ∧ args.ownSlot (args.counted pre) = false) ∨ args.BeyondMax pre t

/-- What the loop has sorted after a prefix, if nothing was cut off. -/
def afterAll (pre : List (SourceTensor τ)) : Selection τ := ⟨args.emittedFrom 0 pre, pre.filter args.passes, args.counted pre⟩

end SelectArgs

namespace PrefetchAux

open SelectArgs

variable {args : SelectArgs}

theorem counted_append (a b : List (SourceTensor τ)) : args.counted (a ++ b) = args.counted a + args.counted b :=
  List.countP_append

/-- What follows is emitted from the count reached. -/
theorem emittedFrom_append (n : ℕ) (a b : List (SourceTensor τ)) :
    args.emittedFrom n (a ++ b) = args.emittedFrom n a ++ args.emittedFrom (n + args.counted a) b := by
  induction a generalizing n with
  | nil => rfl
  | cons t a ih =>
    rw [List.cons_append, emittedFrom, emittedFrom]
    by_cases he : args.eligible t
    · have hc : args.counted (t :: a) = args.counted a + 1 := List.countP_cons_of_pos he
      rw [if_pos he, if_pos he, ih, hc]
      split
      · rw [List.cons_append, Nat.add_assoc, Nat.add_comm 1]
      · rw [Nat.add_assoc, Nat.add_comm 1]
    · have hc : args.counted (t :: a) = args.counted a := List.countP_cons_of_neg he
      rw [if_neg he, if_neg he, ih, hc]

/-- A tensor is emitted if it is counted and its number falls into the slot. -/
theorem mem_emittedFrom {n : ℕ} {l : List (SourceTensor τ)} {t : SourceTensor τ} :
    t ∈ args.emittedFrom n l ↔
      ∃ a b, l = a ++ t :: b ∧ args.eligible t = true ∧ args.ownSlot (n + args.counted a) = true := by
  constructor
  · induction l generalizing n with
    | nil =>
      intro h
      cases h
    | cons s l ih =>
      intro h
      rw [emittedFrom] at h
      by_cases he : args.eligible s
      · rw [if_pos he] at h
        have hrest : t ∈ args.emittedFrom (n + 1) l →
            ∃ a b, s :: l = a ++ t :: b ∧ args.eligible t = true ∧ args.ownSlot (n + args.counted a) = true := by
          intro h
          obtain ⟨a, b, rfl, het, ho⟩ := ih h
          refine ⟨s :: a, b, rfl, het, ?_⟩
          have hc : args.counted (s :: a) = args.counted a + 1 := List.countP_cons_of_pos he
          rwa [hc, Nat.add_comm (args.counted a), ← Nat.add_assoc]
        split at h
        · rename_i ho
          rcases List.mem_cons.1 h with rfl | h
          · exact ⟨[], l, rfl, he, ho⟩
          · exact hrest h
        · exact hrest h
      · rw [if_neg he] at h
        obtain ⟨a, b, rfl, het, ho⟩ := ih h
        refine ⟨s :: a, b, rfl, het, ?_⟩
        have hc : args.counted (s :: a) = args.counted a := List.countP_cons_of_neg he
        rwa [hc]
  · rintro ⟨a, b, rfl, he, ho⟩
    rw [emittedFrom_append, emittedFrom, if_pos he, if_pos ho]
    simp

/-- One round of the loop that is not cut off. -/
theorem selectLoop_cons {st : Selection τ} {t : SourceTensor τ} {ts : List (SourceTensor τ)}
    (h : ¬ (isQuantCandidate t.name t.shape = true ∧ args.listed t.name = true ∧ args.full st.emitted.length = true)) :
    selectLoop args (t :: ts) st = selectLoop args ts
      ⟨st.emitted ++ args.emittedFrom st.candidateCount [t], st.passthrough ++ [t].filter args.passes,
        st.candidateCount + args.counted [t]⟩ := by
  obtain ⟨em, pt, n⟩ := st
  simp only [selectLoop]
  by_cases hc : isQuantCandidate t.name t.shape = true
  · by_cases hl : args.listed t.name = true
    · have hf : args.full em.length = false := Bool.eq_false_iff.2 fun hf => h ⟨hc, hl, hf⟩
      by_cases hs : args.skipped t.name = true
      · simp [hc, hl, hf, hs, passes, eligible, emittedFrom, counted]
      · by_cases ho : args.ownSlot n = true
        · simp [hc, hl, hf, hs, ho, passes, eligible, emittedFrom, counted]
        · simp [hc, hl, hf, hs, ho, passes, eligible, emittedFrom, counted]
    · by_cases hp : args.onlyTensorsPassthrough = true
      · simp [hp, hc, hl, passes, eligible, emittedFrom, counted]
      · simp [hp, hc, hl, passes, eligible, emittedFrom, counted]
  · simp [hc, passes, eligible, emittedFrom, counted]

/-- The last tensor is selected after all the others. -/
theorem afterAll_snoc (pre : List (SourceTensor τ)) (t : SourceTensor τ) :
    args.afterAll (pre ++ [t]) = ⟨(args.afterAll pre).emitted ++ args.emittedFrom (args.afterAll pre).candidateCount [t],
      (args.afterAll pre).passthrough ++ [t].filter args.passes, (args.afterAll pre).candidateCount + args.counted [t]⟩ := by
  simp only [afterAll]
  rw [emittedFrom_append, Nat.zero_add, List.filter_append, counted_append]

/-- **What the loop sorts**: a prefix of the source that ends before the first tensor cut off. -/
theorem select_spec (args : SelectArgs) (source : List (SourceTensor τ)) :
    ∃ done rest, source = done ++ rest ∧ select args source = args.afterAll done ∧
      (∀ a t b, done = a ++ t :: b → ¬ args.CutAt a t) ∧ (rest = [] ∨ ∃ t r, rest = t :: r ∧ args.CutAt done t) := by
  -- the loop on what is left after a prefix without a cut
  have run : ∀ ts pre : List (SourceTensor τ), (∀ a t b, pre = a ++ t :: b → ¬ args.CutAt a t) →
      ∃ done rest, ts = done ++ rest ∧ selectLoop args ts (args.afterAll pre) = args.afterAll (pre ++ done) ∧
        (∀ a t b, pre ++ done = a ++ t :: b → ¬ args.CutAt a t) ∧
        (rest = [] ∨ ∃ t r, rest = t :: r ∧ args.CutAt (pre ++ done) t) := by
    intro ts
    induction ts with
    | nil =>
      intro pre hpre
      exact ⟨[], [], rfl, by rw [selectLoop, List.append_nil], by rwa [List.append_nil], Or.inl rfl⟩
    | cons t ts ih =>
      intro pre hpre
      by_cases hcut : args.CutAt pre t
      · refine ⟨[], t :: ts, rfl, ?_, by rwa [List.append_nil], Or.inr ⟨t, ts, rfl, by rwa [List.append_nil]⟩⟩
        obtain ⟨hc, hl, hf⟩ := hcut
        have hf' : args.full (args.afterAll pre).emitted.length = true := hf
        rw [selectLoop, if_neg (by simp [hc]), if_neg (by simp [hl]), if_pos hf', List.append_nil]
      · have hpre' : ∀ a s b, pre ++ [t] = a ++ s :: b → ¬ args.CutAt a s := by
          intro a s b he
          rcases List.eq_nil_or_concat b with rfl | ⟨b', x, rfl⟩
          · obtain ⟨rfl, hs⟩ := List.append_inj' he rfl
            rw [List.singleton_inj] at hs
            rwa [← hs]
          · rw [List.concat_eq_append, ← List.cons_append, ← List.append_assoc] at he
            exact hpre a s b' (List.append_inj' he rfl).1
        obtain ⟨done, rest, rfl, hrun, hno, hend⟩ := ih (pre ++ [t]) hpre'
        refine ⟨t :: done, rest, rfl, ?_, ?_, ?_⟩
        · rw [selectLoop_cons (show ¬ (_ ∧ _ ∧ args.full (args.afterAll pre).emitted.length = true) from hcut),
            ← afterAll_snoc, hrun, List.append_assoc]
          rfl
        · rwa [List.append_assoc] at hno
        · rwa [List.append_assoc] at hend
  obtain ⟨done, rest, hs, hrun, hno, hend⟩ := run source [] (by simp)
  exact ⟨done, rest, hs, hrun, hno, hend⟩

/-- What passes through comes from the prefix, in its order. -/
theorem mem_passthrough_afterAll {pre : List (SourceTensor τ)} {t : SourceTensor τ} :
    t ∈ (args.afterAll pre).passthrough ↔ t ∈ pre ∧ args.passes t = true := List.mem_filter

/-- What is emitted is an eligible tensor of the source. -/
theorem emitted_sub {n : ℕ} {l : List (SourceTensor τ)} {t : SourceTensor τ} (h : t ∈ args.emittedFrom n l) :
    t ∈ l ∧ args.eligible t = true := by
  obtain ⟨a, b, rfl, he, -⟩ := mem_emittedFrom.1 h
  exact ⟨by simp, he⟩

/-- Two places of one name in a source of distinct names are the same place. -/
theorem split_unique {l a a' b b' : List (SourceTensor τ)} {t t' : SourceTensor τ} (hn : (l.map SourceTensor.name).Nodup)
    (h : l = a ++ t :: b) (h' : l = a' ++ t' :: b') (he : t.name = t'.name) : a = a' ∧ t = t' ∧ b = b' := by
  have hlen : a.length = a'.length := by
    have h1 : l[a.length]? = some t := by rw [h]; simp
    have h2 : l[a'.length]? = some t' := by rw [h']; simp
    have hlt : a.length < (l.map SourceTensor.name).length := by rw [h]; simp
    have e : (l.map SourceTensor.name)[a.length]? = (l.map SourceTensor.name)[a'.length]? := by
      rw [List.getElem?_map, List.getElem?_map, h1, h2, Option.map_some, Option.map_some, he]
    exact (List.getElem?_inj hlt hn).1 e
  obtain ⟨rfl, hr⟩ := List.append_inj (h.symm.trans h') hlen
  obtain ⟨rfl, rfl⟩ := List.cons.inj hr
  exact ⟨rfl, rfl, rfl⟩

/-- The entries of a pack that returns carry the names of the emitted tensors: skipped ones are not emitted, so leaving them
out a second time changes nothing. -/
theorem packCheckpoint_eq_ok {ε : Type} {mode : CodebookMode} {finish : List (SourceTensor τ) → SourceTensor τ → Except PyErr ε}
    {source : List (SourceTensor τ)} {packed : Packed τ ε} (h : packCheckpoint mode args finish source = .ok packed) :
    packed.tensors.map Prod.fst = (select args source).emitted.map SourceTensor.name ∧
      packed.passthrough = (select args source).passthrough := by
  have hcand : candidatesOf mode args (select args source).emitted = (select args source).emitted := by
    obtain ⟨done, rest, hs, hsel, -, -⟩ := select_spec args source
    have hfilter : (select args source).emitted.filter (fun t => ¬ args.skipped t.name) = (select args source).emitted := by
      rw [List.filter_eq_self, hsel]
      intro t ht
      have := (emitted_sub ht).2
      simp only [eligible, Bool.and_eq_true, Bool.not_eq_true'] at this
      simp [this.2]
    cases mode
    · rfl
    · exact hfilter
    · exact hfilter
  simp only [packCheckpoint, hcand] at h
  split at h
  · cases h
  · split at h
    · cases h
    · obtain ⟨entries, he, rfl⟩ := map_eq_ok.1 h
      refine ⟨?_, rfl⟩
      generalize (select args source).emitted = l at he
      have names : ∀ (cs l : List (SourceTensor τ)) (entries : List (String × ε)),
          (l.mapM fun t => (finish cs t).map fun e => (t.name, e)) = .ok entries → entries.map Prod.fst = l.map SourceTensor.name := by
        intro cs l
        induction l with
        | nil =>
          intro entries he
          obtain rfl := Except.ok.inj he
          rfl
        | cons t l ih =>
          intro entries he
          rw [mapM_cons_eq] at he
          obtain ⟨v, hv, he⟩ := bind_eq_ok.1 he
          obtain ⟨vs, hvs, rfl⟩ := map_eq_ok.1 he
          obtain ⟨e, -, rfl⟩ := map_eq_ok.1 hv
          rw [List.map_cons, List.map_cons, ih vs hvs]
      exact names l l entries he

end PrefetchAux

end Orka
