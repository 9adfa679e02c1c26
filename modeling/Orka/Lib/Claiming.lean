import Mathlib.Data.List.Induction
import Mathlib.Data.List.Pairwise
import Mathlib.Data.List.Nodup
import Mathlib.Data.Set.Basic
import Mathlib.Order.Basic
import Orka.Lib.Numerals

/-!
# Claiming

A scan makes an element a master when it has several neighbours and no earlier master has it among its own. The neighbourhoods of
the masters may overlap all the same.
-/

namespace Claiming

variable {T : Type} (N : T → List T)

/-- `i` is a neighbour of one of `ms`. -/
def Claimed (ms : List T) (i : T) : Prop := ∃ m ∈ ms, i ∈ N m

section Scan

variable [DecidableEq T]

instance (ms : List T) (i : T) : Decidable (Claimed N ms i) := inferInstanceAs (Decidable (∃ m ∈ ms, i ∈ N m))

/-- The masters after one more element. -/
def visit (ms : List T) (i : T) : List T := if ¬ Claimed N ms i ∧ 1 < (N i).length then ms ++ [i] else ms

/-- The masters of a scan, in the order they were made. -/
def masters (order : List T) : List T := order.foldl (visit N) []

variable {N}

@[simp] theorem masters_nil : masters N [] = [] := rfl

@[simp] theorem masters_concat (order : List T) (i : T) : masters N (order ++ [i]) = visit N (masters N order) i :=
  List.foldl_append

/-- A visit adds the visited one where it is unclaimed and has others near. -/
theorem mem_visit {ms : List T} {i m : T} :
    m ∈ visit N ms i ↔ m ∈ ms ∨ (m = i ∧ ¬ Claimed N ms i ∧ 1 < (N i).length) := by
  unfold visit
  split
  · next h => simp [h]
  · next h => simp [h]

/-- A master was visited. -/
theorem mem_of_mem_masters {order : List T} {m : T} (h : m ∈ masters N order) : m ∈ order := by
  induction order using List.reverseRecOn with
  | nil => simp at h
  | append_singleton order i ih =>
    rw [masters_concat, mem_visit] at h
    rcases h with h | ⟨rfl, -, -⟩
    · exact List.mem_append_left _ (ih h)
    · simp

/-- A master has others near. -/
theorem one_lt_of_mem_masters {order : List T} {m : T} (h : m ∈ masters N order) : 1 < (N m).length := by
  induction order using List.reverseRecOn with
  | nil => simp at h
  | append_singleton order i ih =>
    rw [masters_concat, mem_visit] at h
    rcases h with h | ⟨rfl, -, hlarge⟩
    · exact ih h
    · exact hlarge

/-- No master is a neighbour of an earlier one. -/
theorem masters_pairwise (order : List T) : (masters N order).Pairwise fun m i => i ∉ N m := by
  induction order using List.reverseRecOn with
  | nil => exact List.Pairwise.nil
  | append_singleton order i ih =>
    rw [masters_concat]
    unfold visit
    split
    · next h =>
      rw [List.pairwise_append]
      exact ⟨ih, List.pairwise_singleton _ _, fun m hm j hj => by
        rw [List.mem_singleton.1 hj]
        exact fun hi => h.1 ⟨m, hm, hi⟩⟩
    · exact ih

/-- A master stays one. -/
theorem masters_prefix {order more : List T} {m : T} (h : m ∈ masters N order) : m ∈ masters N (order ++ more) := by
  induction more using List.reverseRecOn with
  | nil => simpa using h
  | append_singleton more i ih =>
    rw [← List.append_assoc, masters_concat, mem_visit]
    exact .inl ih

end Scan

/-! ## Covers -/

section Cover

variable [LinearOrder T] {N}

/-- Every element smaller than a scanned one is scanned before it. -/
def Ascending (order : List T) : Prop := ∀ p i, p ++ [i] <+: order → ∀ m ∈ order, m < i → m ∈ p

/-- In an ascending order what was visited before is smaller. -/
theorem Ascending.lt_of_mem {order : List T} (h : Ascending order) {p : List T} {i : T} (hp : p ++ [i] <+: order) (hi : i ∉ p)
    {m : T} (hm : m ∈ p) : m < i := by
  by_contra hlt
  have hne : i ≠ m := fun he => hi (he ▸ hm)
  obtain ⟨q, r, rfl⟩ := List.append_of_mem hm
  have hq : q ++ [m] <+: order := by
    refine List.IsPrefix.trans ⟨r ++ [i], ?_⟩ hp
    simp
  exact hi (List.mem_append_left _ (h q m hq i (hp.subset (by simp)) (lt_of_le_of_ne (not_lt.1 hlt) hne)))

/-- Two ascending ranges, where the second brings nothing smaller than the first ends with. -/
theorem Ascending.append {a b : List T} (ha : a.Pairwise (· < ·)) (hb : b.Pairwise (· < ·))
    (hab : ∀ m ∈ b, ∀ i ∈ a, m < i → m ∈ a) : Ascending (a ++ b) := by
  -- in an ascending range what is smaller stands before
  have before : ∀ {l p r : List T} {i m : T}, l.Pairwise (· < ·) → l = p ++ i :: r → m ∈ l → m < i → m ∈ p := by
    rintro l p r i m hl rfl hm hlt
    rcases List.mem_append.1 hm with hm | hm
    · exact hm
    · have hr := (List.pairwise_cons.1 (List.pairwise_append.1 hl).2.1).1
      rcases List.mem_cons.1 hm with rfl | hm
      · exact absurd hlt (lt_irrefl _)
      · exact absurd (hr m hm) hlt.not_gt
  rintro p i ⟨r, hr⟩ m hm hlt
  rw [List.append_assoc, List.singleton_append, List.append_eq_append_iff] at hr
  rcases hr with ⟨c, hac, hir⟩ | ⟨c, rfl, hbc⟩
  · cases c with
    | nil =>
      rw [List.append_nil] at hac
      subst hac
      rcases List.mem_append.1 hm with hm | hm
      · exact hm
      · exact absurd (before hb (p := []) hir.symm hm hlt) (List.not_mem_nil)
    | cons j c =>
      rw [List.cons_append] at hir
      obtain ⟨rfl, -⟩ := List.cons.inj hir
      have hma : m ∈ a := by
        rcases List.mem_append.1 hm with hm | hm
        · exact hm
        · exact hab m hm i (hac ▸ by simp) hlt
      exact before ha hac hma hlt
  · rcases List.mem_append.1 hm with hm | hm
    · exact List.mem_append_left _ hm
    · exact List.mem_append_right _ (before hb hbc hm hlt)

/-- Scanned centres with disjoint neighbourhoods, each at or before what it covers, that cover all that has several neighbours. -/
structure Cover (N : T → List T) (order : List T) (centres : Set T) : Prop where
  scanned : ∀ m ∈ centres, m ∈ order
  own : ∀ m ∈ centres, m ∈ N m
  large : ∀ m ∈ centres, 1 < (N m).length
  apart : ∀ m ∈ centres, ∀ m' ∈ centres, m ≠ m' → List.Disjoint (N m) (N m')
  covers : ∀ i ∈ order, 1 < (N i).length → ∃ m ∈ centres, m ≤ i ∧ i ∈ N m

/-- The centres of a cover are the masters. -/
theorem Cover.mem_masters {order : List T} {centres : Set T} (h : Cover N order centres) (hasc : Ascending order) {p : List T}
    (hp : p <+: order) : ∀ m, m ∈ masters N p ↔ m ∈ p ∧ m ∈ centres := by
  induction p using List.reverseRecOn with
  | nil => simp
  | append_singleton p i ih =>
    have ih := ih ((List.prefix_append p [i]).trans hp)
    have hi : i ∈ order := hp.subset (by simp)
    intro m
    rw [masters_concat, mem_visit, ih, List.mem_append, List.mem_singleton]
    constructor
    · rintro (⟨hmp, hmc⟩ | ⟨rfl, hfree, hlarge⟩)
      · exact ⟨.inl hmp, hmc⟩
      · -- what covers it cannot have been scanned before it
        obtain ⟨c, hc, hle, hmc⟩ := h.covers m hi hlarge
        rcases hle.eq_or_lt with rfl | hlt
        · exact ⟨.inr rfl, hc⟩
        · exact absurd ⟨c, (ih c).2 ⟨hasc p m hp c (h.scanned c hc) hlt, hc⟩, hmc⟩ hfree
    · rintro ⟨hmp | rfl, hmc⟩
      · exact .inl ⟨hmp, hmc⟩
      · by_cases hmp : m ∈ p
        · exact .inl ⟨hmp, hmc⟩
        · refine .inr ⟨rfl, fun ⟨c, hcm, hmem⟩ => ?_, h.large m hmc⟩
          obtain ⟨hcp, hcc⟩ := (ih c).1 hcm
          have hne : c ≠ m := fun he => hmp (he ▸ hcp)
          exact h.apart c hcc m hmc hne hmem (h.own m hmc)

/-- **When the masters are apart**: each its own neighbour and no two sharing one, exactly when there is a cover. -/
theorem masters_apart_iff {order : List T} (hasc : Ascending order) :
    ((∀ m ∈ masters N order, m ∈ N m) ∧ (masters N order).Pairwise fun m i => List.Disjoint (N m) (N i)) ↔
      ∃ centres, Cover N order centres := by
  constructor
  · rintro ⟨hown, hapart⟩
    have hsymm : Std.Symm fun m i => List.Disjoint (N m) (N i) := ⟨fun _ _ => List.disjoint_symm⟩
    refine ⟨{m | m ∈ masters N order}, fun m hm => mem_of_mem_masters hm, hown, fun m hm => one_lt_of_mem_masters hm, ?_, ?_⟩
    · exact fun m hm m' hm' hne => hapart.forall hm hm' hne
    · intro i hi hlarge
      -- at its first visit an element is claimed or becomes a master
      obtain ⟨p, r, rfl, hip⟩ := List.eq_append_cons_of_mem hi
      have hprefix : p ++ [i] <+: p ++ i :: r := ⟨r, by simp⟩
      by_cases hc : Claimed N (masters N p) i
      · obtain ⟨m, hm, him⟩ := hc
        exact ⟨m, masters_prefix hm, (hasc.lt_of_mem hprefix hip (mem_of_mem_masters hm)).le, him⟩
      · have hm : i ∈ masters N (p ++ i :: r) := by
          rw [show p ++ i :: r = (p ++ [i]) ++ r by simp]
          exact masters_prefix (by rw [masters_concat, mem_visit]; exact .inr ⟨rfl, hc, hlarge⟩)
        exact ⟨i, hm, le_rfl, hown i hm⟩
  · rintro ⟨centres, hcover⟩
    have hmem := hcover.mem_masters hasc (List.prefix_refl order)
    have hown : ∀ m ∈ masters N order, m ∈ N m := fun m hm => hcover.own m ((hmem m).1 hm).2
    refine ⟨hown, List.Pairwise.imp_of_mem (fun {m i} hm hi hnot => ?_) (masters_pairwise order)⟩
    exact hcover.apart m ((hmem m).1 hm).2 i ((hmem i).1 hi).2 fun he => hnot (he ▸ hown i hi)

end Cover

end Claiming
