import Orka.Lemmas.Prefetch
import Orka.Merge

/-!
# Merging what does not overlap

Files copied side by side when no two inputs have one path, entries collected when no two have one name, and how the slots of a
partition divide the tensors of a source.
-/

namespace Orka

/-- The arguments for one slot of a partition. -/
def SelectArgs.slot (args : SelectArgs) (count index : ℕ) : SelectArgs := { args with partition := some (count, index) }

namespace MergeAux

open Steps SelectArgs PrefetchAux

section Copy

variable {α τ : Type} [DecidableEq α]

/-- No path is in both. -/
def Apart (a b : List (String × File α)) : Prop := ∀ p, Journal.get a p = none ∨ Journal.get b p = none

/-- Copying files that are not there yet. -/
theorem copyArtifactFiles_ok (source target : List (String × File α)) {paths : List String} (hn : paths.Nodup)
    (h : ∀ p ∈ paths, Journal.get target p = none) :
    ∃ r, copyArtifactFiles source paths target = .ok r ∧
      ∀ p, Journal.get r p = if p ∈ paths then Journal.get source p else Journal.get target p := by
  induction paths generalizing target with
  | nil => exact ⟨target, rfl, fun p => by simp⟩
  | cons path paths ih =>
    obtain ⟨hnot, hn⟩ := List.nodup_cons.1 hn
    have hpath := h path List.mem_cons_self
    cases hs : Journal.get source path with
    | none =>
      obtain ⟨r, hr, hget⟩ := ih target hn fun p hp => h p (List.mem_cons_of_mem _ hp)
      refine ⟨r, by rw [copyArtifactFiles, hs]; exact hr, fun p => ?_⟩
      rw [hget]
      by_cases hp : p = path
      · subst hp
        rw [if_neg hnot, if_pos List.mem_cons_self, hpath, hs]
      · simp only [List.mem_cons, hp, false_or]
    | some file =>
      have hother : ∀ p, p ≠ path → Journal.get (target ++ [(path, file)]) p = Journal.get target p := by
        intro p hp
        rw [Journal.get_append]
        simp [Journal.get, hp.symm]
      obtain ⟨r, hr, hget⟩ := ih (target ++ [(path, file)]) hn fun p hp => by
        rw [hother p fun e => hnot (e ▸ hp)]
        exact h p (List.mem_cons_of_mem _ hp)
      refine ⟨r, by rw [copyArtifactFiles, hs, hpath]; exact hr, fun p => ?_⟩
      rw [hget]
      by_cases hp : p = path
      · subst hp
        rw [if_neg hnot, if_pos List.mem_cons_self, Journal.get_append, hs]
        simp [Journal.get]
      · simp only [List.mem_cons, hp, false_or, hother p hp]

/-- Copying inputs that are apart from each other and from what is there. -/
theorem copyAll_ok (dirs : List (Directory α τ)) (target : List (String × File α))
    (hd : dirs.Pairwise fun d d' => Apart d.files d'.files) (ht : ∀ d ∈ dirs, Apart d.files target) :
    ∃ r, copyAll dirs target = .ok r ∧ (∀ p v, Journal.get target p = some v → Journal.get r p = some v) ∧
      ∀ d ∈ dirs, ∀ p v, Journal.get d.files p = some v → Journal.get r p = some v := by
  induction dirs generalizing target with
  | nil => exact ⟨target, rfl, fun p v h => h, by simp⟩
  | cons d dirs ih =>
    obtain ⟨hhead, hd⟩ := List.pairwise_cons.1 hd
    obtain ⟨target', hcopy, hget⟩ := copyArtifactFiles_ok d.files target (Journal.nodup_keys d.files)
      fun p hp => (ht d List.mem_cons_self p).resolve_left (Journal.mem_keys.1 hp)
    have hboth : ∀ p v, Journal.get d.files p = some v ∨ Journal.get target p = some v → Journal.get target' p = some v := by
      intro p v h
      rw [hget]
      by_cases hp : p ∈ Journal.keys d.files
      · rw [if_pos hp]
        refine h.resolve_right fun h' => ?_
        rcases ht d List.mem_cons_self p with hn | hn
        · exact Journal.mem_keys.1 hp hn
        · cases h'.symm.trans hn
      · rw [if_neg hp]
        have hn : Journal.get d.files p = none := by
          by_contra hn
          exact hp (Journal.mem_keys.2 hn)
        exact h.resolve_left fun h' => by cases h'.symm.trans hn
    obtain ⟨r, hr, htarget, hdirs⟩ := ih target' hd fun d' hd' p => by
      rw [hget]
      by_cases hp : p ∈ Journal.keys d.files
      · exact Or.inl ((hhead d' hd' p).resolve_left (Journal.mem_keys.1 hp))
      · rw [if_neg hp]
        exact ht d' (List.mem_cons_of_mem _ hd') p
    refine ⟨r, by rw [copyAll, hcopy]; exact hr, fun p v h => htarget p v (hboth p v (Or.inr h)), ?_⟩
    rintro d' (_ | ⟨_, hd'⟩) p v h
    · exact htarget p v (hboth p v (Or.inl h))
    · exact hdirs d' hd' p v h

end Copy

/-- Entries of distinct names. -/
theorem mergeTensors_ok {tms : List TensorMeta} (merged : List TensorMeta) (h : ((merged ++ tms).map TensorMeta.name).Nodup) :
    mergeTensors tms merged = .ok (merged ++ tms) := by
  induction tms generalizing merged with
  | nil => rw [mergeTensors, List.append_nil]
  | cons tm tms ih =>
    rw [← List.singleton_append, ← List.append_assoc] at h
    have hnot : tm.name ∉ merged.map TensorMeta.name := by
      rw [List.map_append, List.map_append] at h
      have := (List.nodup_append.1 (List.nodup_append.1 h).1).2.2
      exact fun hm => this _ hm _ (List.mem_map_of_mem List.mem_cons_self) rfl
    rw [mergeTensors, if_neg hnot, ih _ h, List.append_assoc, List.singleton_append]

section Passthrough

variable {τ : Type}

/-- Merging goes through an append. -/
theorem mergePassthrough_append (names : List String) (a b kept : List (SourceTensor τ)) :
    mergePassthrough names (a ++ b) kept = mergePassthrough names b (mergePassthrough names a kept) := by
  induction a generalizing kept with
  | nil => rfl
  | cons t a ih =>
    rw [List.cons_append, mergePassthrough, mergePassthrough]
    split
    · exact ih kept
    · exact ih _

/-- Tensors that are kept already change nothing. -/
theorem mergePassthrough_again {names : List String} {ts kept : List (SourceTensor τ)}
    (h : ∀ t ∈ ts, t.name ∈ kept.map SourceTensor.name) : mergePassthrough names ts kept = kept := by
  induction ts with
  | nil => rfl
  | cons t ts ih =>
    rw [mergePassthrough, if_pos (Or.inr (h t List.mem_cons_self))]
    exact ih fun t ht => h t (List.mem_cons_of_mem _ ht)

/-- Tensors of distinct names that nothing packs are all kept. -/
theorem mergePassthrough_all {names : List String} {ts kept : List (SourceTensor τ)}
    (hn : ((kept ++ ts).map SourceTensor.name).Nodup) (h : ∀ t ∈ ts, t.name ∉ names) :
    mergePassthrough names ts kept = kept ++ ts := by
  induction ts generalizing kept with
  | nil => rw [mergePassthrough, List.append_nil]
  | cons t ts ih =>
    rw [← List.singleton_append, ← List.append_assoc] at hn
    have hnot : t.name ∉ kept.map SourceTensor.name := by
      rw [List.map_append, List.map_append] at hn
      have := (List.nodup_append.1 (List.nodup_append.1 hn).1).2.2
      exact fun hm => this _ hm _ (List.mem_map_of_mem List.mem_cons_self) rfl
    rw [mergePassthrough, if_neg (by simp [h t List.mem_cons_self, hnot]), ih hn fun t ht => h t (List.mem_cons_of_mem _ ht),
      List.append_assoc, List.singleton_append]

/-- Inputs that all pass the same tensors through. -/
theorem mergePassthrough_same {ι : Type} {names : List String} {ts : List (SourceTensor τ)} (order : List ι)
    (hne : order ≠ []) (hn : (ts.map SourceTensor.name).Nodup) (h : ∀ t ∈ ts, t.name ∉ names) :
    mergePassthrough names (order.flatMap fun _ => ts) [] = ts := by
  have again : ∀ order : List ι, mergePassthrough names (order.flatMap fun _ => ts) ts = ts := by
    intro order
    refine mergePassthrough_again fun t ht => ?_
    obtain ⟨-, -, ht⟩ := List.mem_flatMap.1 ht
    exact List.mem_map_of_mem ht
  cases order with
  | nil => exact absurd rfl hne
  | cons i order =>
    rw [List.flatMap_cons, mergePassthrough_append, mergePassthrough_all (by simpa using hn) h, List.nil_append, again]

end Passthrough

/-! ## Slots -/

section Slots

variable {τ : Type} {args : SelectArgs}

variable (args) in
/-- Without a maximum the loop comes to the end of the source. -/
theorem select_eq_afterAll (h : args.maxTensors = none) (source : List (SourceTensor τ)) :
    select args source = args.afterAll source := by
  obtain ⟨done, rest, rfl, hsel, -, hend⟩ := select_spec args source
  rcases hend with rfl | ⟨t, r, rfl, -, -, hfull⟩
  · rw [hsel, List.append_nil]
  · rw [full, h] at hfull
    cases hfull

/-- What a slot takes: the counted tensors whose number it divides into it. -/
theorem mem_emitted_slot {count index : ℕ} {source : List (SourceTensor τ)} {t : SourceTensor τ} :
    t ∈ (args.slot count index).emittedFrom 0 source ↔
      ∃ a b, source = a ++ t :: b ∧ args.eligible t = true ∧ args.counted a % count = index := by
  rw [mem_emittedFrom]
  simp only [ownSlot, slot, Nat.zero_add, decide_eq_true_eq]
  exact Iff.rfl

/-- What a pack without a partition takes. -/
theorem mem_emitted_whole (h : args.partition = none) {source : List (SourceTensor τ)} {t : SourceTensor τ} :
    t ∈ args.emittedFrom 0 source ↔ t ∈ source ∧ args.eligible t = true := by
  rw [mem_emittedFrom]
  simp only [ownSlot, h, and_true]
  constructor
  · rintro ⟨a, b, rfl, he⟩
    exact ⟨by simp, he⟩
  · rintro ⟨ht, he⟩
    obtain ⟨a, b, rfl⟩ := List.append_of_mem ht
    exact ⟨a, b, rfl, he⟩

/-- Every slot's tensors are the pack's. -/
theorem mem_emitted_of_slot (h : args.partition = none) {count index : ℕ} {source : List (SourceTensor τ)}
    {t : SourceTensor τ} (ht : t ∈ (args.slot count index).emittedFrom 0 source) : t ∈ args.emittedFrom 0 source := by
  obtain ⟨a, b, rfl, he, -⟩ := mem_emitted_slot.1 ht
  exact (mem_emitted_whole h).2 ⟨by simp, he⟩

/-- Every tensor is in a slot. -/
theorem exists_slot (h : args.partition = none) {count : ℕ} (hc : 0 < count) {source : List (SourceTensor τ)}
    {t : SourceTensor τ} (ht : t ∈ args.emittedFrom 0 source) :
    ∃ index < count, t ∈ (args.slot count index).emittedFrom 0 source := by
  obtain ⟨hs, he⟩ := (mem_emitted_whole h).1 ht
  obtain ⟨a, b, rfl⟩ := List.append_of_mem hs
  exact ⟨args.counted a % count, Nat.mod_lt _ hc, mem_emitted_slot.2 ⟨a, b, rfl, he, rfl⟩⟩

/-- Tensors of one name are in one slot. -/
theorem slot_unique {count i j : ℕ} {source : List (SourceTensor τ)} (hn : (source.map SourceTensor.name).Nodup)
    {t t' : SourceTensor τ} (ht : t ∈ (args.slot count i).emittedFrom 0 source)
    (ht' : t' ∈ (args.slot count j).emittedFrom 0 source) (he : t.name = t'.name) : i = j := by
  obtain ⟨a, b, hs, -, rfl⟩ := mem_emitted_slot.1 ht
  obtain ⟨a', b', hs', -, rfl⟩ := mem_emitted_slot.1 ht'
  obtain ⟨rfl, -, -⟩ := split_unique hn hs hs' he
  rfl

/-- What is emitted comes from the source, in its order. -/
theorem emittedFrom_sublist (args : SelectArgs) (n : ℕ) (source : List (SourceTensor τ)) :
    (args.emittedFrom n source).Sublist source := by
  induction source generalizing n with
  | nil => exact List.Sublist.refl _
  | cons t source ih =>
    rw [emittedFrom]
    split
    · split
      · exact (ih _).cons_cons t
      · exact (ih _).cons t
    · exact (ih _).cons t

/-- A tensor that passes through is not counted. -/
theorem not_eligible_of_passes {t : SourceTensor τ} (h : args.passes t = true) : args.eligible t = false := by
  simp only [passes, eligible] at h ⊢
  revert h
  cases isQuantCandidate t.name t.shape <;> cases args.listed t.name <;> cases args.skipped t.name <;> simp

end Slots

end MergeAux

end Orka
