import Orka.Lib.Steps
import Mathlib.Algebra.Order.Field.Basic

/-!
# Halving an interval

Bisection with a test that may fail: where its ends lie on the grid of the halvings, what is known of them, and that of two tests
the one that says yes more often never ends higher.
-/

set_option linter.unusedSectionVars false

namespace Halving

open Steps

variable {α ε : Type} [Field α] [LinearOrder α] [IsStrictOrderedRing α]

/-- `n` halvings of an interval: the upper end moves to the middle where the test says yes, else the lower end does. -/
def bisect (exceeds : α → Except ε Bool) : ℕ → α → α → Except ε (α × α)
  | 0, lo, hi => .ok (lo, hi)
  | n + 1, lo, hi =>
    let mid := (lo + hi) / 2
    (exceeds mid).bind fun b => if b then bisect exceeds n lo mid else bisect exceeds n mid hi

variable {exceeds exceeds' : α → Except ε Bool}

/-- What the first halving decides. -/
theorem bisect_succ {n : ℕ} {lo hi : α} {e : α × α} (h : bisect exceeds (n + 1) lo hi = .ok e) :
    (exceeds ((lo + hi) / 2) = .ok true ∧ bisect exceeds n lo ((lo + hi) / 2) = .ok e) ∨
      (exceeds ((lo + hi) / 2) = .ok false ∧ bisect exceeds n ((lo + hi) / 2) hi = .ok e) := by
  obtain ⟨b, hb, h⟩ := bind_eq_ok.1 h
  cases b with
  | true => exact Or.inl ⟨hb, h⟩
  | false => exact Or.inr ⟨hb, h⟩

/-- The ends stay in the interval, in order. -/
theorem bisect_bounds {n : ℕ} {lo hi l u : α} (hle : lo ≤ hi) (h : bisect exceeds n lo hi = .ok (l, u)) : lo ≤ l ∧ l ≤ u ∧ u ≤ hi := by
  induction n generalizing lo hi with
  | zero =>
    obtain ⟨rfl, rfl⟩ := Prod.mk.inj (Except.ok.inj h)
    exact ⟨le_refl _, hle, le_refl _⟩
  | succ n ih =>
    rcases bisect_succ h with ⟨-, h⟩ | ⟨-, h⟩
    · obtain ⟨h1, h2, h3⟩ := ih (by linarith) h
      exact ⟨h1, h2, by linarith⟩
    · obtain ⟨h1, h2, h3⟩ := ih (by linarith) h
      exact ⟨by linarith, h2, h3⟩

/-- The ends are neighbours on the grid of the halvings, and each of them that is not an end of the interval was tested. -/
theorem bisect_grid {n : ℕ} {lo hi l u : α} (h : bisect exceeds n lo hi = .ok (l, u)) :
    ∃ k : ℕ, k < 2 ^ n ∧ l = lo + (hi - lo) * k / 2 ^ n ∧ u = lo + (hi - lo) * (k + 1) / 2 ^ n ∧ (k ≠ 0 → exceeds l = .ok false) ∧
      (k + 1 ≠ 2 ^ n → exceeds u = .ok true) := by
  induction n generalizing lo hi with
  | zero =>
    obtain ⟨rfl, rfl⟩ := Prod.mk.inj (Except.ok.inj h)
    exact ⟨0, by norm_num, by simp, by simp, by simp, by simp⟩
  | succ n ih =>
    have hpow : (2 : α) ^ (n + 1) = 2 ^ n * 2 := pow_succ 2 n
    have hne : (2 : α) ^ n ≠ 0 := by positivity
    have hdouble : (2 : ℕ) ^ (n + 1) = 2 ^ n + 2 ^ n := by ring
    rcases bisect_succ h with ⟨hmid, h⟩ | ⟨hmid, h⟩
    · obtain ⟨k, hk, hl, hu, hlo, hup⟩ := ih h
      refine ⟨k, by omega, ?_, ?_, hlo, fun hne' => ?_⟩
      · rw [hl, hpow]
        field_simp
        ring
      · rw [hu, hpow]
        field_simp
        ring
      · by_cases hlast : k + 1 = 2 ^ n
        · have hcast : (k : α) + 1 = 2 ^ n := by exact_mod_cast hlast
          have hmidEq : u = (lo + hi) / 2 := by
            rw [hu, hcast]
            field_simp
            ring
          rw [hmidEq]
          exact hmid
        · exact hup hlast
    · obtain ⟨k, hk, hl, hu, hlo, hup⟩ := ih h
      refine ⟨2 ^ n + k, by omega, ?_, ?_, fun _ => ?_, fun hne' => hup (by omega)⟩
      · rw [hl, hpow]
        push_cast
        field_simp
        ring
      · rw [hu, hpow]
        push_cast
        field_simp
        ring
      · by_cases hfirst : k = 0
        · have hmidEq : l = (lo + hi) / 2 := by
            rw [hl, hfirst]
            simp
          rw [hmidEq]
          exact hmid
        · exact hlo hfirst

/-- Two bisections of one interval: where the first test says yes wherever the second does, it ends at the same ends or below. -/
theorem bisect_le {n : ℕ} {lo hi l u l' u' : α} (hle : lo ≤ hi) (hmore : ∀ x b, exceeds x = .ok b → exceeds' x = .ok true → b = true)
    (h : bisect exceeds n lo hi = .ok (l, u)) (h' : bisect exceeds' n lo hi = .ok (l', u')) : (l = l' ∧ u = u') ∨ u ≤ l' := by
  induction n generalizing lo hi with
  | zero =>
    obtain ⟨rfl, rfl⟩ := Prod.mk.inj (Except.ok.inj h)
    exact Or.inl (Prod.mk.inj (Except.ok.inj h'))
  | succ n ih =>
    rcases bisect_succ h with ⟨hmid, h⟩ | ⟨hmid, h⟩ <;> rcases bisect_succ h' with ⟨hmid', h'⟩ | ⟨hmid', h'⟩
    · exact ih (by linarith) h h'
    · exact Or.inr ((bisect_bounds (by linarith) h).2.2.trans (bisect_bounds (by linarith) h').1)
    · cases hmore _ _ hmid hmid'
    · exact ih (by linarith) h h'

/-- The middle of the ends, likewise. -/
theorem bisect_middle_le {n : ℕ} {lo hi l u l' u' : α} (hle : lo ≤ hi)
    (hmore : ∀ x b, exceeds x = .ok b → exceeds' x = .ok true → b = true) (h : bisect exceeds n lo hi = .ok (l, u))
    (h' : bisect exceeds' n lo hi = .ok (l', u')) : (l + u) / 2 ≤ (l' + u') / 2 := by
  rcases bisect_le hle hmore h h' with ⟨rfl, rfl⟩ | hsep
  · exact le_refl _
  · have h1 := (bisect_bounds hle h).2.1
    have h2 := (bisect_bounds hle h').2.1
    linarith

end Halving
