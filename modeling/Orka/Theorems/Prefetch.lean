import Orka.Lemmas.Prefetch

/-!
# Every tensor of a source is accounted for

A pack that returns has put every tensor into its manifest, into its passthrough tensors or, on purpose, into neither, unless
`max_tensors` cut the producer's loop off before a tensor that is no candidate.
-/

namespace Orka

open SelectArgs PrefetchAux

variable {τ ε : Type}

/-- One of three statements and no other. -/
def ExactlyOne (a b c : Prop) : Prop := (a ∧ ¬ b ∧ ¬ c) ∨ (¬ a ∧ b ∧ ¬ c) ∨ (¬ a ∧ ¬ b ∧ c)

/-- A tensor that the loop reached. -/
theorem accounted_of_reached {args : SelectArgs} {a b rest : List (SourceTensor τ)} {t : SourceTensor τ}
    (hn : ((a ++ t :: b ++ rest).map SourceTensor.name).Nodup) (hno : ∀ x s y, a ++ t :: b = x ++ s :: y → ¬ args.CutAt x s) :
    ¬ args.BeyondMax a t ∧ (t ∈ (args.afterAll (a ++ t :: b)).passthrough ↔ args.passes t = true) ∧
      (t.name ∈ (args.afterAll (a ++ t :: b)).emitted.map SourceTensor.name ↔
        args.eligible t = true ∧ args.ownSlot (args.counted a) = true) := by
  have hn' : ((a ++ t :: b).map SourceTensor.name).Nodup := by
    rw [List.map_append] at hn
    exact (List.nodup_append.1 hn).1
  refine ⟨?_, ?_, ?_⟩
  · rintro ⟨x, s, y, he, hcut⟩
    refine hno x s (y ++ b) ?_ hcut
    rw [← List.cons_append, ← List.append_assoc, ← he]
    simp
  · rw [mem_passthrough_afterAll]
    simp
  · constructor
    · intro h
      obtain ⟨t', ht', he⟩ := List.mem_map.1 h
      obtain ⟨a', b', hs, hel, ho⟩ := mem_emittedFrom.1 ht'
      obtain ⟨rfl, rfl, -⟩ := split_unique hn' rfl hs he.symm
      exact ⟨hel, by rwa [Nat.zero_add] at ho⟩
    · rintro ⟨hel, ho⟩
      exact List.mem_map.2 ⟨t, mem_emittedFrom.2 ⟨a, b, rfl, hel, by rwa [Nat.zero_add]⟩, rfl⟩

/-- A candidate that the loop reached is accounted for once. -/
theorem exactlyOne_of_reached {args : SelectArgs} {a b rest : List (SourceTensor τ)} {t : SourceTensor τ}
    (hn : ((a ++ t :: b ++ rest).map SourceTensor.name).Nodup) (hno : ∀ x s y, a ++ t :: b = x ++ s :: y → ¬ args.CutAt x s)
    (hc : isQuantCandidate t.name t.shape = true) :
    ExactlyOne (t.name ∈ (args.afterAll (a ++ t :: b)).emitted.map SourceTensor.name)
      (t ∈ (args.afterAll (a ++ t :: b)).passthrough) (args.Omitted a t) := by
  obtain ⟨hmax, hpass, hemit⟩ := accounted_of_reached hn hno
  rw [ExactlyOne, hpass, hemit, Omitted]
  simp only [hmax, or_false]
  -- the tests of the loop, in its order
  by_cases hl : args.listed t.name = true
  · by_cases hs : args.skipped t.name = true
    · simp [passes, eligible, hc, hl, hs]
    · by_cases ho : args.ownSlot (args.counted a) = true
      · simp [passes, eligible, hc, hl, hs, ho]
      · simp [passes, eligible, hc, hl, hs, ho]
  · by_cases hp : args.onlyTensorsPassthrough = true
    · simp [passes, eligible, hc, hl, hp]
    · simp [passes, eligible, hc, hl, hp]

/-- A tensor is reached by the loop, or it comes after the cut. -/
theorem reached_or_beyond {args : SelectArgs} {done rest pre post : List (SourceTensor τ)} {t : SourceTensor τ}
    (hend : rest = [] ∨ ∃ s r, rest = s :: r ∧ args.CutAt done s) (he : done ++ rest = pre ++ t :: post) :
    (∃ b, done = pre ++ t :: b) ∨ args.BeyondMax pre t ∧ ¬ ∃ b, done = pre ++ t :: b := by
  have hbeyond : ∀ s x, args.CutAt done s → pre ++ [t] = done ++ s :: x →
      args.BeyondMax pre t ∧ ¬ ∃ b, done = pre ++ t :: b := by
    intro s x hcut hx
    refine ⟨⟨done, s, x, hx, hcut⟩, ?_⟩
    rintro ⟨b, hb⟩
    refine absurd (congrArg List.length hx) ?_
    rw [hb]
    simp
  rcases List.append_eq_append_iff.1 he with ⟨c, rfl, hc⟩ | ⟨c, rfl, hc⟩
  · obtain ⟨s, r, rfl, hcut⟩ : ∃ s r, rest = s :: r ∧ args.CutAt done s := by
      rcases hend with rfl | hend
      · simp at hc
      · exact hend
    right
    cases c with
    | nil =>
      obtain ⟨rfl, -⟩ := List.cons.inj hc
      exact hbeyond s [] hcut (by simp)
    | cons u c =>
      obtain ⟨rfl, -⟩ := List.cons.inj hc
      exact hbeyond s (c ++ [t]) hcut (by simp)
  · cases c with
    | nil =>
      rw [List.nil_append] at hc
      rcases hend with rfl | ⟨s, r, rfl, hcut⟩
      · cases hc
      · obtain ⟨rfl, -⟩ := List.cons.inj hc
        exact Or.inr (hbeyond t [] (by simpa using hcut) (by simp))
    | cons u c =>
      obtain ⟨rfl, -⟩ := List.cons.inj hc
      exact Or.inl ⟨c, rfl⟩

/-- After the cut a tensor is neither an entry nor passed through. -/
theorem absent_of_not_reached {args : SelectArgs} {done rest pre post : List (SourceTensor τ)} {t : SourceTensor τ}
    (hn : ((done ++ rest).map SourceTensor.name).Nodup) (he : done ++ rest = pre ++ t :: post)
    (hnot : ¬ ∃ b, done = pre ++ t :: b) :
    t ∉ (args.afterAll done).passthrough ∧ t.name ∉ (args.afterAll done).emitted.map SourceTensor.name := by
  have hmem : ∀ u ∈ done, u.name ≠ t.name := by
    intro u hu hname
    obtain ⟨x, y, hxy⟩ := List.append_of_mem hu
    have hu' : done ++ rest = x ++ u :: (y ++ rest) := by rw [hxy]; simp
    obtain ⟨rfl, rfl, -⟩ := split_unique hn hu' he hname
    exact hnot ⟨y, hxy⟩
  refine ⟨fun ht => hmem t (mem_passthrough_afterAll.1 ht).1 rfl, fun ht => ?_⟩
  obtain ⟨u, hu, hname⟩ := List.mem_map.1 ht
  exact hmem u (emitted_sub hu).1 hname

/-- **When a pack accounts for every tensor of its source.** Every tensor that is no candidate passes through, and every
candidate is a manifest entry, passes through or is left out on purpose, one of the three, exactly if no tensor that is no
candidate comes after a listed candidate that finds `max_tensors` candidates emitted. -/
theorem packCheckpoint_complete_iff (mode : CodebookMode) (args : SelectArgs)
    (finish : List (SourceTensor τ) → SourceTensor τ → Except PyErr ε) (source : List (SourceTensor τ))
    (hn : (source.map SourceTensor.name).Nodup) (packed : Packed τ ε)
    (h : packCheckpoint mode args finish source = .ok packed) :
    (∀ pre t post, source = pre ++ t :: post →
      (isQuantCandidate t.name t.shape = false → t ∈ packed.passthrough ∧ t.name ∉ packed.tensors.map Prod.fst) ∧
      (isQuantCandidate t.name t.shape = true →
        ExactlyOne (t.name ∈ packed.tensors.map Prod.fst) (t ∈ packed.passthrough) (args.Omitted pre t))) ↔
      ∀ pre t post, source = pre ++ t :: post → isQuantCandidate t.name t.shape = false → ¬ args.BeyondMax pre t := by
  obtain ⟨hnames, hpt⟩ := packCheckpoint_eq_ok h
  obtain ⟨done, rest, rfl, hsel, hno, hend⟩ := select_spec args source
  rw [hnames, hpt, hsel]
  constructor
  · intro hall pre t post he hc hbeyond
    have hpass := ((hall pre t post he).1 hc).1
    rcases reached_or_beyond hend he with ⟨b, rfl⟩ | ⟨-, hnot⟩
    · exact (accounted_of_reached hn hno).1 hbeyond
    · exact (absent_of_not_reached hn he hnot).1 hpass
  · intro hcond pre t post he
    rcases reached_or_beyond hend he with ⟨b, rfl⟩ | ⟨hbeyond, hnot⟩
    · refine ⟨fun hc => ?_, fun hc => exactlyOne_of_reached hn hno hc⟩
      obtain ⟨-, hpass, hemit⟩ := accounted_of_reached hn hno
      rw [hpass, hemit]
      simp [passes, eligible, hc]
    · refine ⟨fun hc => absurd hbeyond (hcond pre t post he hc), fun _ => ?_⟩
      obtain ⟨hpass, hemit⟩ := absent_of_not_reached hn he hnot
      exact Or.inr (Or.inr ⟨hemit, hpass, Or.inr (Or.inr hbeyond)⟩)

/-- Two weights and the norm that follows them. -/
def twoWeights : List (SourceTensor Unit) :=
  [⟨"model.layers.0.mlp.w1.weight", [8, 8], ()⟩, ⟨"model.layers.0.mlp.w2.weight", [8, 8], ()⟩, ⟨"model.norm.weight", [8], ()⟩]

/-- A pack of one tensor at most stops at the second weight: the norm behind it is neither packed nor passed through. -/
theorem packCheckpoint_twoWeights :
    packCheckpoint .perTensor { maxTensors := some 1 } (fun _ _ => .ok ()) twoWeights =
        .ok ⟨[("model.layers.0.mlp.w1.weight", ())], []⟩ ∧
      isQuantCandidate "model.norm.weight" [8] = false ∧ (⟨"model.norm.weight", [8], ()⟩ : SourceTensor Unit) ∈ twoWeights := by
  have hsel : select { maxTensors := some 1 } twoWeights = ⟨[⟨"model.layers.0.mlp.w1.weight", [8, 8], ()⟩], [], 1⟩ := by
    decide +kernel
  refine ⟨?_, by decide +kernel, by simp [twoWeights]⟩
  rw [packCheckpoint, hsel]
  rfl

/-- Without a maximum the norm passes through and every tensor is accounted for. -/
theorem packCheckpoint_complete_twoWeights :
    ∃ packed, packCheckpoint .perTensor {} (fun _ _ => .ok ()) twoWeights = .ok packed ∧
      ∀ pre t post, twoWeights = pre ++ t :: post →
        (isQuantCandidate t.name t.shape = false → t ∈ packed.passthrough ∧ t.name ∉ packed.tensors.map Prod.fst) ∧
        (isQuantCandidate t.name t.shape = true →
          ExactlyOne (t.name ∈ packed.tensors.map Prod.fst) (t ∈ packed.passthrough) (Omitted {} pre t)) := by
  have hsel : select {} twoWeights = ⟨twoWeights.take 2, twoWeights.drop 2, 2⟩ := by decide +kernel
  have h : packCheckpoint .perTensor {} (fun _ _ => .ok ()) twoWeights =
      .ok ⟨[("model.layers.0.mlp.w1.weight", ()), ("model.layers.0.mlp.w2.weight", ())], twoWeights.drop 2⟩ := by
    rw [packCheckpoint, hsel]
    rfl
  refine ⟨_, h, (packCheckpoint_complete_iff .perTensor {} (fun _ _ => .ok ()) twoWeights (by decide) _ h).2 ?_⟩
  rintro pre t post - - ⟨a, s, b, -, -, -, hfull⟩
  exact Bool.noConfusion hfull

end Orka
