import Mathlib.Logic.Basic

/-!
# Programs

Programs with a state that outlives a throw: a program returns or throws, and leaves a state either
way.

* `Program`: a program, with its sequencing;
* `Program.bind_ok`, `Program.bind_error`: how a sequence goes on from the outcome of its first part.
-/

namespace Flark

/-- A program with state `σ` that returns an `α` or throws an `ε`. -/
def Program (ε σ α : Type) : Type := σ → Except ε α × σ

namespace Program

variable {ε σ α β : Type}

/-- The program that does nothing but return. -/
def return_ (a : α) : Program ε σ α := fun s => (.ok a, s)

/-- One program, and then another one that may depend on what it returned. A throw ends both. -/
def followedBy (m : Program ε σ α) (f : α → Program ε σ β) : Program ε σ β := fun s =>
  match m s with
  | (.ok a, s') => f a s'
  | (.error e, s') => (.error e, s')

instance : Monad (Program ε σ) where
  pure := return_
  bind := followedBy

/-- The state as it is. -/
def get : Program ε σ σ := fun s => (.ok s, s)

/-- A change of the state. -/
def modify (f : σ → σ) : Program ε σ Unit := fun s => (.ok (), f s)

def throw (e : ε) : Program ε σ α := fun s => (.error e, s)

@[simp] theorem pure_apply (a : α) (s : σ) : (pure a : Program ε σ α) s = (.ok a, s) := rfl

theorem bind_apply (m : Program ε σ α) (f : α → Program ε σ β) (s : σ) :
    (m >>= f) s = match m s with
      | (.ok a, s') => f a s'
      | (.error e, s') => (.error e, s') := rfl

theorem bind_ok {m : Program ε σ α} {f : α → Program ε σ β} {s s' : σ} {a : α}
    (h : m s = (.ok a, s')) : (m >>= f) s = f a s' := by
  rw [bind_apply, h]

theorem bind_error {m : Program ε σ α} {f : α → Program ε σ β} {s s' : σ} {e : ε}
    (h : m s = (.error e, s')) : (m >>= f) s = (.error e, s') := by
  rw [bind_apply, h]

theorem map_apply (f : α → β) (m : Program ε σ α) (s : σ) :
    (f <$> m) s = ((m s).1.map f, (m s).2) := by
  change (m >>= fun a => pure (f a)) s = _
  rw [bind_apply]
  rcases m s with ⟨e | a, s'⟩ <;> rfl

@[simp] theorem get_apply (s : σ) : (get : Program ε σ σ) s = (.ok s, s) := rfl

@[simp] theorem modify_apply (f : σ → σ) (s : σ) :
    (modify f : Program ε σ Unit) s = (.ok (), f s) := rfl

@[simp] theorem throw_apply (e : ε) (s : σ) : (throw e : Program ε σ α) s = (.error e, s) := rfl

end Program

end Flark
