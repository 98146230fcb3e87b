import Mathlib.Data.List.Nodup
import Mathlib.Logic.Function.Basic

/-!
# Blocks of memory

The memory that an allocator gives out, as its users see it: blocks with an address, a length, and
what was written into them last. A block is given back once, with the length it was asked with.

* `Blocks.Holds`: the blocks that are given out and not given back are just these;
* `Blocks.free_eq`: what may be given back.
-/

namespace Flark

/-- A block that is given out. -/
structure Block (α : Type*) where
  length : Nat
  content : α

/-- The blocks that are given out, by their addresses. -/
abbrev Blocks (α : Type*) : Type _ := Nat → Option (Block α)

namespace Blocks

variable {α : Type*}

def empty : Blocks α := fun _ => none

/-- A block that is given out. -/
def alloc (b : Blocks α) (a n : Nat) (x : α) : Blocks α := Function.update b a (some ⟨n, x⟩)

/-- What is written into a block. -/
def write (b : Blocks α) (a : Nat) (f : α → α) : Blocks α :=
  Function.update b a ((b a).map fun k => { k with content := f k.content })

def drop (b : Blocks α) (a : Nat) : Blocks α := Function.update b a none

/-- A block that is given back, unless there is no such block of this length. -/
def free (b : Blocks α) (a n : Nat) : Option (Blocks α) :=
  if (b a).any fun k => k.length == n then some (b.drop a) else none

variable {b : Blocks α} {a a' n : Nat} {x : α} {f : α → α} {l : List Nat}

@[simp] theorem alloc_self : b.alloc a n x a = some ⟨n, x⟩ := Function.update_self _ _ _

theorem alloc_of_ne (h : a' ≠ a) : b.alloc a n x a' = b a' := Function.update_of_ne h _ _

theorem write_self {k : Block α} (h : b a = some k) :
    b.write a f a = some { k with content := f k.content } := by
  rw [write, Function.update_self, h]
  rfl

theorem write_of_ne (h : a' ≠ a) : b.write a f a' = b a' := Function.update_of_ne h _ _

theorem drop_of_ne (h : a' ≠ a) : b.drop a a' = b a' := Function.update_of_ne h _ _

/-- Of two blocks it does not matter which one goes first. -/
theorem drop_alloc (h : a ≠ a') : (b.alloc a n x).drop a' = (b.drop a').alloc a n x :=
  Function.update_comm h _ _ _

theorem free_eq {k : Block α} (h : b a = some k) (hn : k.length = n) :
    b.free a n = some (b.drop a) := by
  rw [free, h, Option.any_some, hn, beq_self_eq_true, if_pos rfl]

/-- The blocks are those at these addresses. -/
def Holds (b : Blocks α) (l : List Nat) : Prop := ∀ a, (b a).isSome ↔ a ∈ l

theorem holds_empty : (empty : Blocks α).Holds [] := fun _ => ⟨nofun, nofun⟩

theorem Holds.alloc (h : b.Holds l) : (b.alloc a n x).Holds (a :: l) := by
  intro c
  by_cases hc : c = a
  · subst hc
    rw [alloc_self]
    exact ⟨fun _ => List.mem_cons_self, fun _ => rfl⟩
  · rw [alloc_of_ne hc, h c, List.mem_cons, or_iff_right hc]

theorem Holds.write (h : b.Holds l) : (b.write a f).Holds l := by
  intro c
  by_cases hc : c = a
  · subst hc
    rw [Blocks.write, Function.update_self, Option.isSome_map]
    exact h c
  · rw [write_of_ne hc]
    exact h c

theorem Holds.drop (h : b.Holds (a :: l)) (ha : a ∉ l) : (b.drop a).Holds l := by
  intro c
  by_cases hc : c = a
  · subst hc
    rw [Blocks.drop, Function.update_self]
    exact ⟨fun hnone => absurd hnone nofun, fun hc => absurd hc ha⟩
  · rw [drop_of_ne hc, h c, List.mem_cons, or_iff_right hc]

theorem Holds.perm {l' : List Nat} (h : b.Holds l) (hl : l.Perm l') : b.Holds l' :=
  fun a => (h a).trans hl.mem_iff

end Blocks

end Flark
