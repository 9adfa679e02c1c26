import Orka.Names

/-!
# Different files have different names

Of tensors whose safe names differ no two files share a name: what follows the tensor's name is never the end of what follows
another's.
-/

namespace Orka.NamesAux

/-- The characters of a suffix, last one first. -/
def revSuffix (short : Bool) (file : TensorFile) : List Char := (file.suffix short).toList.reverse

/-- A stage's number and the `s` before it, last character first. -/
def revStage (stage : ℕ) : List Char := (Nat.toDigits 10 stage).reverse ++ ['s', '.']

/-- A codebook's suffix, read from the end. -/
theorem revSuffix_codebook (stage : ℕ) :
    revSuffix false (.codebook stage) = ['2', '3', 'f', '.', 'k', 'o', 'o', 'b', 'e', 'd', 'o', 'c', '.'] ++ revStage stage := by
  simp [revSuffix, TensorFile.suffix, revStage]

/-- An index file's suffix, read from the end. -/
theorem revSuffix_indices (stage : ℕ) :
    revSuffix false (.indices stage) = ['s', 'e', 'c', 'i', 'd', 'n', 'i', '.'] ++ revStage stage := by
  simp [revSuffix, TensorFile.suffix, revStage]

/-- The digits of a stage's number end at the `s`. -/
theorem eq_of_revStage {i j : ℕ} (h : revStage i <+: revStage j) : i = j := by
  obtain ⟨t, ht⟩ := h
  have hdig : ∀ n : ℕ, ∀ c ∈ (Nat.toDigits 10 n).reverse, c.isDigit = true := fun n c hc =>
    Nat.isDigit_of_mem_toDigits (by decide) (le_refl _) (List.mem_reverse.1 hc)
  have cut : ∀ (n : ℕ) (t : List Char), ((revStage n ++ t).takeWhile Char.isDigit) = (Nat.toDigits 10 n).reverse := by
    intro n t
    rw [revStage, List.append_assoc, List.takeWhile_append_of_pos (hdig n)]
    simp
  have e := cut i t
  rw [ht, ← List.append_nil (revStage j), cut j []] at e
  have := List.reverse_injective e
  calc i = Nat.ofDigitChars 10 (Nat.toDigits 10 i) 0 := Nat.ofDigitChars_ten_toDigits.symm
    _ = j := by rw [← this, Nat.ofDigitChars_ten_toDigits]

/-- In the short form a pack has one stage, which is stage 0. -/
def Shortened (short : Bool) : TensorFile → Prop
  | .codebook stage | .indices stage => short = true → stage = 0
  | _ => True

/-- No suffix is the end of another. -/
theorem eq_of_revSuffix {short : Bool} {f g : TensorFile} (hf : Shortened short f) (hg : Shortened short g)
    (h : revSuffix short f <+: revSuffix short g) : f = g := by
  cases short with
  | true =>
    -- eleven words, of which none begins another
    cases f <;> cases g <;> simp only [Shortened, forall_const] at hf hg <;> try subst hf
    all_goals try subst hg
    all_goals first
      | rfl
      | exact absurd h (by decide)
  | false =>
    cases f <;> cases g
    all_goals try simp only [revSuffix_codebook, revSuffix_indices] at h
    all_goals first
      | rfl
      | rw [eq_of_revStage ((List.prefix_append_right_inj _).1 h)]
      | (exfalso; revert h; simp [revSuffix, TensorFile.suffix])

/-- **Paths tell files apart**: two files with one path are the same file of the same safe name. -/
theorem tensorPath_inj {short : Bool} {safe safe' : String} {f g : TensorFile} (hf : Shortened short f)
    (hg : Shortened short g) (h : tensorPath short safe f = tensorPath short safe' g) : safe = safe' ∧ f = g := by
  have hs : safe ++ f.suffix short = safe' ++ g.suffix short := (String.append_right_inj _).1 h
  have hl := congrArg (fun s => s.toList.reverse) hs
  simp only [String.toList_append, List.reverse_append] at hl
  have hfg : f = g := by
    rcases List.append_eq_append_iff.1 hl with ⟨c, hc, -⟩ | ⟨c, hc, -⟩
    · exact eq_of_revSuffix hf hg ⟨c, hc.symm⟩
    · exact (eq_of_revSuffix hg hf ⟨c, hc.symm⟩).symm
  subst hfg
  exact ⟨(String.append_left_inj _).1 hs, rfl⟩

/-- A shared codebook is no tensor's file. -/
theorem tensorPath_ne_shared (short : Bool) (safe : String) (f : TensorFile) (nStages : ℕ) (key : String) (stage : ℕ) :
    tensorPath short safe f ≠ sharedCodebookPath nStages key stage := by
  intro h
  have := congrArg (fun s => s.toList.head?) h
  simp [tensorPath, sharedCodebookPath] at this

/-- Shared codebooks of different keys or stages have different files. -/
theorem sharedCodebookPath_inj {nStages : ℕ} {key key' : String} {i j : ℕ} (hn : nStages = 1 → i = j)
    (h : sharedCodebookPath nStages key i = sharedCodebookPath nStages key' j) : key = key' ∧ i = j := by
  have hs := (String.append_right_inj _).1 h
  by_cases h1 : nStages = 1
  · simp only [if_pos h1] at hs
    exact ⟨(String.append_left_inj _).1 hs, hn h1⟩
  · simp only [if_neg h1] at hs
    have hsuffix : ∀ k : ℕ, (".s" ++ toString k ++ ".codebook.f32" : String) = (TensorFile.codebook k).suffix false := fun _ => rfl
    rw [hsuffix, hsuffix] at hs
    have hp : tensorPath false key (.codebook i) = tensorPath false key' (.codebook j) := congrArg ("tensors/" ++ ·) hs
    obtain ⟨rfl, hf⟩ := tensorPath_inj (fun h => nomatch h) (fun h => nomatch h) hp
    exact ⟨rfl, TensorFile.codebook.inj hf⟩

end Orka.NamesAux
