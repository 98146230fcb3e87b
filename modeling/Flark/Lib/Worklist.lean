import Mathlib.Data.Finset.Card
import Mathlib.Data.List.Dedup
import Mathlib.Logic.Relation
import Mathlib.Order.Defs.LinearOrder

/-!
# Worklists

A search of what can be reached from an element, by a list of those seen and a queue of those
whose successors are still to be taken. It ends after as many turns as there are elements to
see.

* `Worklist.run`: the search;
* `Worklist.mem_run`: it finds what can be reached;
* `Worklist.nodup_run`: it finds nothing twice;
* `Worklist.reaches_or_jumps`: on a line, a way past an element goes through it or jumps over it.
-/

namespace Flark

namespace Worklist

variable {α : Type*}

/-- The search: take one element from the queue, and see its successors. -/
def run [DecidableEq α] (successors : α → List α) : (fuel : Nat) → (seen queue : List α) → List α
  | 0, seen, _ => seen
  | _, seen, [] => seen
  | fuel + 1, seen, x :: queue =>
    let fresh := (successors x).dedup.filter (· ∉ seen)
    run successors fuel (seen ++ fresh) (fresh ++ queue)

variable {successors : α → List α}

/-- One element leads to the other. -/
def Leads (successors : α → List α) (x y : α) : Prop := y ∈ successors x

/-- What holds of a search that began at `root`, in a set of elements that contains all that can
    be seen: what is seen can be reached, and its successors are seen unless it waits. -/
structure Invariant (successors : α → List α) (all : Finset α) (root : α) (seen queue : List α) :
    Prop where
  nodup : seen.Nodup
  sound : ∀ x ∈ seen, Relation.ReflTransGen (Leads successors) root x
  rooted : root ∈ seen
  within : ∀ x ∈ seen, x ∈ all
  waiting : ∀ x ∈ queue, x ∈ seen
  closed : ∀ x ∈ seen, x ∈ queue ∨ ∀ y ∈ successors x, y ∈ seen

variable {all : Finset α} {root : α} {seen queue : List α}

theorem Invariant.start (h : root ∈ all) : Invariant successors all root [root] [root] where
  nodup := List.nodup_singleton _
  sound x hx := by
    rw [List.mem_singleton.1 hx]
  rooted := List.mem_singleton_self _
  within x hx := by
    rwa [List.mem_singleton.1 hx]
  waiting x hx := hx
  closed x hx := Or.inl hx

/-- Nothing waits: all that can be reached is seen. -/
theorem Invariant.complete (h : Invariant successors all root seen []) {x : α}
    (hx : Relation.ReflTransGen (Leads successors) root x) : x ∈ seen := by
  induction hx with
  | refl => exact h.rooted
  | tail _ hstep ih => exact (h.closed _ ih).resolve_left List.not_mem_nil _ hstep

variable [DecidableEq α]

theorem mem_fresh {x y : α} :
    y ∈ (successors x).dedup.filter (· ∉ seen) ↔ y ∈ successors x ∧ y ∉ seen := by
  rw [List.mem_filter, List.mem_dedup, decide_eq_true_eq]

theorem Invariant.turn {x : α} (h : Invariant successors all root seen (x :: queue))
    (hall : ∀ y ∈ successors x, y ∈ all) :
    Invariant successors all root (seen ++ (successors x).dedup.filter (· ∉ seen))
      ((successors x).dedup.filter (· ∉ seen) ++ queue) where
  nodup := h.nodup.append ((List.nodup_dedup _).filter _) fun y hy hfresh => (mem_fresh.1 hfresh).2 hy
  sound y hy := by
    rcases List.mem_append.1 hy with hy | hy
    · exact h.sound y hy
    · exact (h.sound x (h.waiting x List.mem_cons_self)).tail (mem_fresh.1 hy).1
  rooted := List.mem_append_left _ h.rooted
  within y hy := by
    rcases List.mem_append.1 hy with hy | hy
    · exact h.within y hy
    · exact hall y (mem_fresh.1 hy).1
  waiting y hy := by
    rcases List.mem_append.1 hy with hy | hy
    · exact List.mem_append_right _ hy
    · exact List.mem_append_left _ (h.waiting y (List.mem_cons_of_mem _ hy))
  closed y hy := by
    rcases List.mem_append.1 hy with hy | hy
    · rcases h.closed y hy with hqueue | hclosed
      · rcases List.mem_cons.1 hqueue with rfl | hqueue
        · -- The element just taken: each of its successors was seen before, or is now.
          refine Or.inr fun z hz => ?_
          by_cases hseen : z ∈ seen
          · exact List.mem_append_left _ hseen
          · exact List.mem_append_right _ (mem_fresh.2 ⟨hz, hseen⟩)
        · exact Or.inl (List.mem_append_right _ hqueue)
      · exact Or.inr fun z hz => List.mem_append_left _ (hclosed z hz)
    · exact Or.inl (List.mem_append_left _ hy)

theorem Invariant.length_le (h : Invariant successors all root seen queue) :
    seen.length ≤ all.card := by
  rw [← List.toFinset_card_of_nodup h.nodup]
  exact Finset.card_le_card fun x hx => h.within x (List.mem_toFinset.1 hx)

/-- With a turn for each element that waits or is not seen yet, the search ends with nothing
    waiting. -/
theorem Invariant.run (h : Invariant successors all root seen queue)
    (hall : ∀ x ∈ all, ∀ y ∈ successors x, y ∈ all) {fuel : Nat}
    (hfuel : queue.length + (all.card - seen.length) ≤ fuel) :
    Invariant successors all root (run successors fuel seen queue) [] := by
  induction fuel generalizing seen queue with
  | zero =>
    have hnil : queue = [] := List.eq_nil_of_length_eq_zero (by omega)
    rwa [hnil] at h
  | succ fuel ih =>
    cases queue with
    | nil => exact h
    | cons x queue =>
      have hx := h.within x (h.waiting x List.mem_cons_self)
      have hturn := h.turn (hall x hx)
      have hle := hturn.length_le
      refine ih hturn ?_
      rw [List.length_append] at hle ⊢
      rw [List.length_append]
      rw [List.length_cons] at hfuel
      omega

section

variable (hroot : root ∈ all) (hall : ∀ x ∈ all, ∀ y ∈ successors x, y ∈ all) {fuel : Nat}
  (hfuel : all.card ≤ fuel)

include hroot hall hfuel

theorem invariant_run : Invariant successors all root (run successors fuel [root] [root]) [] := by
  have hcard : 0 < all.card := Finset.card_pos.2 ⟨root, hroot⟩
  refine (Invariant.start hroot).run hall ?_
  rw [List.length_singleton]
  omega

theorem mem_run {x : α} : x ∈ run successors fuel [root] [root] ↔
    Relation.ReflTransGen (Leads successors) root x := by
  have h := invariant_run hroot hall hfuel
  exact ⟨h.sound x, h.complete⟩

theorem nodup_run : (run successors fuel [root] [root]).Nodup :=
  (invariant_run hroot hall hfuel).nodup

end

/-- A way from one side of an element of a line to the other goes through it, or one of its steps
    jumps over it. -/
theorem reaches_or_jumps {β : Type*} [LinearOrder β] {R : β → β → Prop} {x y z : β}
    (h : Relation.ReflTransGen R x y) (hx : x ≤ z) (hy : z ≤ y) :
    Relation.ReflTransGen R x z ∨ ∃ u v, R u v ∧ u < z ∧ z < v := by
  induction h with
  | refl =>
    rw [le_antisymm hx hy]
    exact Or.inl Relation.ReflTransGen.refl
  | @tail u v hreach hstep ih =>
    rcases le_or_gt z u with hle | hlt
    · exact ih hle
    · rcases hy.lt_or_eq with hlt' | rfl
      · exact Or.inr ⟨u, v, hstep, hlt, hlt'⟩
      · exact Or.inl (hreach.tail hstep)

end Worklist

end Flark
