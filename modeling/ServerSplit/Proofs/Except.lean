/-! Steps that may fail, taken apart again where they ended well. -/
namespace ServerSplit

variable {α β ε : Type}

@[simp] theorem ok_bind (a : α) (k : α → Except ε β) : (.ok a >>= k) = k a := rfl

theorem exists_of_bind {r : Except ε α} {k : α → Except ε β} {b : β} (h : (r >>= k) = .ok b) :
    ∃ a, r = .ok a ∧ k a = .ok b := by
  cases r with
  | error e => cases h
  | ok a => exact ⟨a, rfl, h⟩

theorem exists_of_map {r : Except ε α} {g : α → β} {b : β} (h : r.map g = .ok b) :
    ∃ a, r = .ok a ∧ g a = b := by
  cases r with
  | error e => cases h
  | ok a =>
    cases h
    exact ⟨a, rfl, rfl⟩

/-- A row of steps ends well where each of them does. -/
theorem mapM_eq_ok_iff {f : α → Except ε β} {g : α → Option β} (hf : ∀ x y, f x = .ok y ↔ g x = some y)
    {xs : List α} {ys : List β} : xs.mapM f = .ok ys ↔ xs.map g = ys.map some := by
  induction xs generalizing ys with
  | nil => cases ys <;> simp [pure, Except.pure]
  | cons x xs ih =>
    rw [List.mapM_cons]
    constructor
    · intro h
      obtain ⟨y, hy, h⟩ := exists_of_bind h
      obtain ⟨zs, hzs, h⟩ := exists_of_bind h
      cases h
      rw [List.map_cons, List.map_cons, (hf x y).1 hy, ih.1 hzs]
    · intro h
      cases ys with
      | nil => cases h
      | cons y ys =>
        obtain ⟨hy, hys⟩ := List.cons.inj h
        rw [(hf x y).2 hy, ok_bind, ih.2 hys]
        rfl

theorem exists_map_some_iff {os : List (Option α)} : (∃ xs : List α, os = xs.map some) ↔ ∀ o ∈ os, o.isSome = true := by
  constructor
  · rintro ⟨xs, rfl⟩
    simp
  · intro h
    induction os with
    | nil => exact ⟨[], rfl⟩
    | cons o os ih =>
      obtain ⟨ho, hos⟩ := List.forall_mem_cons.1 h
      obtain ⟨x, rfl⟩ := Option.isSome_iff_exists.1 ho
      obtain ⟨xs, hxs⟩ := ih hos
      exact ⟨x :: xs, by rw [List.map_cons, hxs]⟩

/-- What is left of the steps gives what is left of the results. -/
theorem filter_of_map_eq {g : α → Option β} {p : α → Bool} {q : β → Bool} (hpq : ∀ x y, g x = some y → p x = q y)
    {xs : List α} {ys : List β} (h : xs.map g = ys.map some) : (xs.filter p).map g = (ys.filter q).map some := by
  induction xs generalizing ys with
  | nil =>
    cases ys with
    | nil => rfl
    | cons y ys => cases h
  | cons x xs ih =>
    cases ys with
    | nil => cases h
    | cons y ys =>
      obtain ⟨hy, hys⟩ := List.cons.inj h
      have hp := hpq x y hy
      cases hq : q y with
      | true => simp [hp, hq, hy, ih hys]
      | false => simp [hp, hq, ih hys]

end ServerSplit
