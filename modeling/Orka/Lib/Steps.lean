import Mathlib
import Orka.Lib.Numerals

/-!
# Fallible steps

Programs in `Except ε`: what a sequence of steps returns when every step succeeds, and that it does not return when one step
fails whatever came before it.
-/

namespace Steps

variable {ε α β : Type}

@[simp] theorem ok_bind (a : α) (f : α → Except ε β) : (Except.ok a).bind f = f a := rfl

@[simp] theorem error_bind (e : ε) (f : α → Except ε β) : (Except.error e).bind f = .error e := rfl

@[simp] theorem ok_map (f : α → β) (a : α) : (Except.ok a : Except ε α).map f = .ok (f a) := rfl

@[simp] theorem error_map (f : α → β) (e : ε) : (Except.error e : Except ε α).map f = .error e := rfl

/-- What a sequence that returns has gone through. -/
theorem bind_eq_ok {x : Except ε α} {f : α → Except ε β} {b : β} : x.bind f = .ok b ↔ ∃ a, x = .ok a ∧ f a = .ok b := by
  cases x with
  | error e => simp
  | ok a => simp

/-- A mapped success comes from a success. -/
theorem map_eq_ok {x : Except ε α} {f : α → β} {b : β} : x.map f = .ok b ↔ ∃ a, x = .ok a ∧ f a = b := by
  cases x with
  | error e => simp
  | ok a => simp

/-- What an option of the result holds was returned. -/
theorem eq_ok_of_toOption {x : Except ε α} {a : α} (h : x.toOption = some a) : x = .ok a := by
  cases x with
  | error e => cases h
  | ok b => exact congrArg Except.ok (Option.some.inj h)

/-- When a sequence returns whose second part returns or not whatever the first has given. -/
theorem exists_bind_iff {x : Except ε α} {f : α → Except ε β} {P : α → Prop} {B : Prop} (hx : ∀ a, x = .ok a → P a)
    (hf : ∀ a, P a → ((∃ b, f a = .ok b) ↔ B)) : (∃ b, x.bind f = .ok b) ↔ (∃ a, x = .ok a) ∧ B := by
  constructor
  · rintro ⟨b, h⟩
    obtain ⟨a, ha, hb⟩ := bind_eq_ok.1 h
    exact ⟨⟨a, ha⟩, (hf a (hx a ha)).1 ⟨b, hb⟩⟩
  · rintro ⟨⟨a, ha⟩, hB⟩
    obtain ⟨b, hb⟩ := (hf a (hx a ha)).2 hB
    exact ⟨b, by rw [ha, ok_bind, hb]⟩

section Loops

variable {ι : Type}

/-- Steps that all succeed. -/
theorem mapM_ok {f : ι → Except ε α} {g : ι → α} {xs : List ι} (h : ∀ x ∈ xs, f x = .ok (g x)) :
    xs.mapM f = .ok (xs.map g) := by
  induction xs with
  | nil => rfl
  | cons x xs ih =>
    rw [List.mapM_cons, h x (by simp), ih fun y hy => h y (List.mem_cons_of_mem _ hy)]
    rfl

/-- The first step, then the rest. -/
theorem mapM_cons_eq (f : ι → Except ε α) (x : ι) (xs : List ι) :
    (x :: xs).mapM f = (f x).bind fun v => (xs.mapM f).map fun vs => v :: vs := by
  rw [List.mapM_cons]
  cases f x with
  | error e => rfl
  | ok v => cases xs.mapM f <;> rfl

theorem foldlM_cons_eq (f : α → ι → Except ε α) (acc : α) (x : ι) (xs : List ι) :
    (x :: xs).foldlM f acc = (f acc x).bind fun acc => xs.foldlM f acc := List.foldlM_cons

/-- One step that fails. -/
theorem mapM_fault {f : ι → Except ε α} {xs : List ι} {x : ι} (hx : x ∈ xs) (h : ∀ v, f x ≠ .ok v) (vs : List α) :
    xs.mapM f ≠ .ok vs := by
  induction xs generalizing vs with
  | nil => cases hx
  | cons y ys ih =>
    rw [mapM_cons_eq]
    intro he
    obtain ⟨v, hv, he⟩ := bind_eq_ok.1 he
    obtain ⟨ws, hws, -⟩ := map_eq_ok.1 he
    rcases List.mem_cons.1 hx with rfl | hx
    · exact h v hv
    · exact ih hx ws hws

/-- A loop returns if every round does. -/
theorem exists_mapM_eq_ok {f : ι → Except ε α} {xs : List ι} :
    (∃ ys, xs.mapM f = .ok ys) ↔ ∀ x ∈ xs, ∃ y, f x = .ok y := by
  induction xs with
  | nil => exact ⟨fun _ => List.forall_mem_nil _, fun _ => ⟨[], rfl⟩⟩
  | cons x xs ih =>
    rw [mapM_cons_eq, List.forall_mem_cons, ← ih]
    constructor
    · rintro ⟨ys, h⟩
      obtain ⟨v, hv, h⟩ := bind_eq_ok.1 h
      obtain ⟨vs, hvs, -⟩ := map_eq_ok.1 h
      exact ⟨⟨v, hv⟩, ⟨vs, hvs⟩⟩
    · rintro ⟨⟨v, hv⟩, ⟨vs, hvs⟩⟩
      exact ⟨v :: vs, by rw [hv, ok_bind, hvs, ok_map]⟩

/-- What a loop that returns has collected. -/
theorem mem_of_mapM_eq_ok {f : ι → Except ε α} {xs : List ι} {ys : List α} (h : xs.mapM f = .ok ys) {y : α} :
    y ∈ ys ↔ ∃ x ∈ xs, f x = .ok y := by
  induction xs generalizing ys with
  | nil =>
    obtain rfl := Except.ok.inj h
    simp
  | cons x xs ih =>
    rw [mapM_cons_eq] at h
    obtain ⟨v, hv, h⟩ := bind_eq_ok.1 h
    obtain ⟨vs, hvs, rfl⟩ := map_eq_ok.1 h
    rw [List.mem_cons, ih hvs]
    simp [hv, eq_comm]

/-- Loops that do the same on every element. -/
theorem mapM_congr {f g : ι → Except ε α} {xs : List ι} (h : ∀ x ∈ xs, f x = g x) : xs.mapM f = xs.mapM g := by
  induction xs with
  | nil => rfl
  | cons x xs ih => rw [mapM_cons_eq, mapM_cons_eq, h x (by simp), ih fun y hy => h y (List.mem_cons_of_mem _ hy)]

/-- Steps equal on the list give equal folds. -/
theorem foldlM_congr {f g : α → ι → Except ε α} {xs : List ι} (h : ∀ x ∈ xs, ∀ acc, f acc x = g acc x) (acc : α) :
    xs.foldlM f acc = xs.foldlM g acc := by
  induction xs generalizing acc with
  | nil => rfl
  | cons x xs ih =>
    rw [foldlM_cons_eq, foldlM_cons_eq, h x (by simp)]
    exact congrArg _ (funext fun acc => ih (fun y hy => h y (List.mem_cons_of_mem _ hy)) acc)

/-- A loop that adds one term a round. -/
theorem foldlM_add [AddCommMonoid α] {f : α → ι → Except ε α} {g : ι → α} {xs : List ι}
    (h : ∀ x ∈ xs, ∀ acc, f acc x = .ok (acc + g x)) (acc : α) : xs.foldlM f acc = .ok (acc + (xs.map g).sum) := by
  induction xs generalizing acc with
  | nil => simp [pure, Except.pure]
  | cons x xs ih =>
    rw [foldlM_cons_eq, h x (by simp), ok_bind, ih fun y hy => h y (List.mem_cons_of_mem _ hy), List.map_cons, List.sum_cons,
      add_assoc]

/-- What every round keeps holds of what the loop returns. -/
theorem foldlM_keeps {f : α → ι → Except ε α} {xs : List ι} {P : α → Prop}
    (hkeep : ∀ x ∈ xs, ∀ a b, P a → f a x = .ok b → P b) {a b : α} (ha : P a) (h : xs.foldlM f a = .ok b) : P b := by
  induction xs generalizing a with
  | nil =>
    obtain rfl := Except.ok.inj h
    exact ha
  | cons x xs ih =>
    rw [foldlM_cons_eq] at h
    obtain ⟨c, hc, h⟩ := bind_eq_ok.1 h
    exact ih (fun y hy => hkeep y (List.mem_cons_of_mem _ hy)) (hkeep x (by simp) a c ha hc) h

/-- A loop returns if every round does, where that depends on what every round keeps only. -/
theorem exists_foldlM_iff {f : α → ι → Except ε α} {xs : List ι} {P : α → Prop} {C : ι → Prop}
    (hstep : ∀ x ∈ xs, ∀ a, P a → ((∃ b, f a x = .ok b) ↔ C x)) (hkeep : ∀ x ∈ xs, ∀ a b, P a → f a x = .ok b → P b) {a : α}
    (ha : P a) : (∃ b, xs.foldlM f a = .ok b) ↔ ∀ x ∈ xs, C x := by
  induction xs generalizing a with
  | nil => exact ⟨fun _ => List.forall_mem_nil _, fun _ => ⟨a, rfl⟩⟩
  | cons x xs ih =>
    rw [foldlM_cons_eq, List.forall_mem_cons, ← hstep x (by simp) a ha]
    exact exists_bind_iff (hkeep x (by simp) a · ha) fun b hb =>
      ih (fun y hy => hstep y (List.mem_cons_of_mem _ hy)) (fun y hy => hkeep y (List.mem_cons_of_mem _ hy)) hb

/-- A loop with a round that always fails. -/
theorem foldlM_fault {f : α → ι → Except ε α} {xs : List ι} {x : ι} (hx : x ∈ xs) (h : ∀ acc v, f acc x ≠ .ok v)
    (acc v : α) : xs.foldlM f acc ≠ .ok v := by
  induction xs generalizing acc with
  | nil => cases hx
  | cons y ys ih =>
    rw [foldlM_cons_eq]
    intro he
    obtain ⟨u, hu, he⟩ := bind_eq_ok.1 he
    rcases List.mem_cons.1 hx with rfl | hx
    · exact h acc u hu
    · exact ih hx u he

/-- A loop whose rounds fail in one way only. -/
theorem foldlM_error {f : α → ι → Except ε α} {xs : List ι} {P : α → Prop} {e : ε}
    (hkeep : ∀ x ∈ xs, ∀ a b, P a → f a x = .ok b → P b) (herr : ∀ x ∈ xs, ∀ a e', P a → f a x = .error e' → e' = e) {a : α}
    (ha : P a) {e' : ε} (h : xs.foldlM f a = .error e') : e' = e := by
  induction xs generalizing a with
  | nil => cases h
  | cons x xs ih =>
    rw [foldlM_cons_eq] at h
    cases hx : f a x with
    | error e'' =>
      rw [hx] at h
      exact Except.error.inj h ▸ herr x (by simp) a e'' ha hx
    | ok b =>
      rw [hx, ok_bind] at h
      exact ih (fun y hy => hkeep y (List.mem_cons_of_mem _ hy)) (fun y hy => herr y (List.mem_cons_of_mem _ hy))
        (hkeep x (by simp) a b ha hx) h

/-- A loop that simulates one that cannot fail. -/
theorem foldlM_simulates {f : α → ι → Except ε α} {g : β → ι → β} {φ : β → α} {xs : List ι}
    (h : ∀ x ∈ xs, ∀ b, f (φ b) x = .ok (φ (g b x))) (b : β) : xs.foldlM f (φ b) = .ok (φ (xs.foldl g b)) := by
  induction xs generalizing b with
  | nil => rfl
  | cons x xs ih => rw [foldlM_cons_eq, h x (by simp), ok_bind, List.foldl_cons, ih fun y hy => h y (List.mem_cons_of_mem _ hy)]

/-- A loop of so many steps leads where its steps lead. -/
theorem foldlM_reaches {step : α → Except ε α} {R : α → α → Prop} (hstep : ∀ a b, step a = .ok b → R a b) {xs : List ι} {a b : α}
    (h : xs.foldlM (fun a _ => step a) a = .ok b) : Relation.ReflTransGen R a b := by
  induction xs generalizing a with
  | nil =>
    obtain rfl := Except.ok.inj h
    exact .refl
  | cons x xs ih =>
    rw [foldlM_cons_eq] at h
    obtain ⟨next, hnext, h⟩ := bind_eq_ok.1 h
    exact .head (hstep _ _ hnext) (ih h)

end Loops

end Steps
