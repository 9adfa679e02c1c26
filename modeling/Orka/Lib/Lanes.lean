import Orka.Lib.Steps

/-!
# Lanes

A vectorised loop does the same to every lane of a vector. What each lane keeps in a step, the vector keeps.
-/

namespace Lanes

open Steps

variable {σ τ ε : Type}

/-- Lane `k` of a vector satisfies `P k`. -/
def Each (P : ℕ → σ → Prop) (xs : List σ) : Prop := ∀ k x, xs[k]? = some x → P k x

variable {P : ℕ → σ → Prop} {Q : ℕ → τ → Prop} {xs : List σ} {x : σ}

theorem each_cons : Each P (x :: xs) ↔ P 0 x ∧ Each (fun k => P (k + 1)) xs := by
  refine ⟨fun h => ⟨h 0 x rfl, fun k y hy => h (k + 1) y hy⟩, fun ⟨h0, hs⟩ k y hy => ?_⟩
  cases k with
  | zero => exact Option.some.inj hy ▸ h0
  | succ k => exact hs k y hy

/-- Equal lanes that each satisfy the property. -/
theorem each_replicate {n : ℕ} (h : ∀ k < n, P k x) : Each P (List.replicate n x) := by
  intro k y hy
  obtain ⟨hk, rfl⟩ := by simpa [List.getElem?_replicate] using hy
  exact h k hk

/-- Numbered lanes carry their numbers. -/
theorem each_zipIdx (h : Each P xs) : Each (fun k (y : σ × ℕ) => y.2 = k ∧ P k y.1) xs.zipIdx := by
  intro k y hy
  rw [List.getElem?_zipIdx, Option.map_eq_some_iff] at hy
  obtain ⟨z, hz, rfl⟩ := hy
  exact ⟨Nat.zero_add k, h k z hz⟩

/-- **One vectorised step.** -/
theorem exists_mapM_each {f : σ → Except ε τ} (h : Each P xs) (hf : ∀ k x, P k x → ∃ y, f x = .ok y ∧ Q k y) :
    ∃ ys, xs.mapM f = .ok ys ∧ ys.length = xs.length ∧ Each Q ys := by
  induction xs generalizing P Q with
  | nil => exact ⟨[], rfl, rfl, fun k y hy => by simp at hy⟩
  | cons x xs ih =>
    obtain ⟨h0, hs⟩ := each_cons.1 h
    obtain ⟨y, hy, hQ⟩ := hf 0 x h0
    obtain ⟨ys, hys, hlen, hQs⟩ := ih hs fun k z hz => hf (k + 1) z hz
    refine ⟨y :: ys, ?_, congrArg (· + 1) hlen, each_cons.2 ⟨hQ, hQs⟩⟩
    rw [mapM_cons_eq, hy, ok_bind, hys, ok_map]

/-- One vectorised step that knows its lanes. -/
theorem exists_mapM_zipIdx_each {f : σ × ℕ → Except ε τ} (h : Each P xs) (hf : ∀ k x, P k x → ∃ y, f (x, k) = .ok y ∧ Q k y) :
    ∃ ys, xs.zipIdx.mapM f = .ok ys ∧ ys.length = xs.length ∧ Each Q ys := by
  have hstep : ∀ k (y : σ × ℕ), y.2 = k ∧ P k y.1 → ∃ z, f y = .ok z ∧ Q k z := by
    rintro k ⟨y, _⟩ ⟨rfl, hy⟩
    exact hf _ y hy
  obtain ⟨ys, hys, hlen, hQ⟩ := exists_mapM_each (each_zipIdx h) hstep
  exact ⟨ys, hys, hlen.trans List.length_zipIdx, hQ⟩

end Lanes
