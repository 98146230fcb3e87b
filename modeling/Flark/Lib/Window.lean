import Mathlib.Data.List.Basic

/-!
# Windows

The last changes of a state and the state they began at: past a capacity the oldest change is
folded into that state. What the window says the state is now is what all changes make of the
first state, folded or not.
-/

namespace Flark

/-- A state, the changes kept since, and how many came before them. -/
structure Window (σ δ : Type) where
  start : σ
  kept : List δ
  folded : Nat

namespace Window

variable {σ δ : Type} (apply : σ → δ → σ) (capacity : Nat) (w : Window σ δ) (d : δ)

/-- The state after the changes kept. -/
def now : σ := w.kept.foldl apply w.start

/-- All changes so far. -/
def count : Nat := w.folded + w.kept.length

/-- Keep a change, folding the oldest past the capacity. -/
def push : Window σ δ :=
  match w.kept ++ [d] with
  | [] => w
  | oldest :: rest =>
    if capacity < (oldest :: rest).length then ⟨apply w.start oldest, rest, w.folded + 1⟩
    else ⟨w.start, oldest :: rest, w.folded⟩

/-- What a window keeps, and where it starts, behind one more change. -/
theorem push_cases :
    (push apply capacity w d = ⟨w.start, w.kept ++ [d], w.folded⟩ ∧
      w.kept.length + 1 ≤ capacity) ∨
    ∃ oldest rest, w.kept ++ [d] = oldest :: rest ∧ capacity ≤ rest.length ∧
      push apply capacity w d = ⟨apply w.start oldest, rest, w.folded + 1⟩ := by
  have hlength : (w.kept ++ [d]).length = w.kept.length + 1 := by
    rw [List.length_append, List.length_singleton]
  rw [push]
  cases hkept : w.kept ++ [d] with
  | nil => exact absurd hkept (List.append_ne_nil_of_right_ne_nil _ (List.cons_ne_nil d []))
  | cons oldest rest =>
    rw [hkept] at hlength
    dsimp only
    split
    · next hlt => exact Or.inr ⟨oldest, rest, rfl, Nat.le_of_lt_succ hlt, rfl⟩
    · next hle => exact Or.inl ⟨rfl, by omega⟩

/-- Folding loses nothing. -/
theorem now_push : (push apply capacity w d).now apply = apply (w.now apply) d := by
  have hall : (w.kept ++ [d]).foldl apply w.start = apply (w.now apply) d := by
    rw [List.foldl_append]
    rfl
  rcases push_cases apply capacity w d with ⟨heq, -⟩ | ⟨oldest, rest, hkept, -, heq⟩
  · rw [heq]
    exact hall
  · rw [heq, ← hall, hkept, List.foldl_cons]
    rfl

theorem count_push : (push apply capacity w d).count = w.count + 1 := by
  have hlength : (w.kept ++ [d]).length = w.kept.length + 1 := by
    rw [List.length_append, List.length_singleton]
  rcases push_cases apply capacity w d with ⟨heq, -⟩ | ⟨oldest, rest, hkept, -, heq⟩
  · rw [heq, count, count, hlength, Nat.add_assoc]
  · rw [hkept, List.length_cons] at hlength
    rw [heq, count, count]
    dsimp only
    omega

theorem length_push_le (h : w.kept.length ≤ capacity) :
    (push apply capacity w d).kept.length ≤ capacity := by
  rcases push_cases apply capacity w d with ⟨heq, hle⟩ | ⟨oldest, rest, hkept, -, heq⟩
  · rw [heq, List.length_append, List.length_singleton]
    exact hle
  · have hlength := congrArg List.length hkept
    rw [List.length_append, List.length_singleton, List.length_cons] at hlength
    rw [heq]
    dsimp only
    omega

end Window

end Flark
