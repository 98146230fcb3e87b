import Mathlib.Data.List.Sort

/-!
# Buckets

Elements dealt into numbered lists.

* `distribute`: each element goes to the list its key names, which then has the elements of
  that key in order (`distribute_eq`);
* `pushRange`: one element added to the lists of a range of numbers;
* `sortUnlessAscending`: a list sorted only where it is out of order, which is the list sorted.
-/

namespace Flark

namespace Buckets

variable {α : Type*}

/-! ## Dealing by key -/

/-- Each element appended to the list that its key names. -/
def distribute (key : α → ℕ) (n : ℕ) (xs : List α) : List (List α) :=
  xs.foldl (fun buckets x => buckets.modify (key x) (· ++ [x])) (List.replicate n [])

theorem foldl_modify_eq (key : α → ℕ) (xs : List α) (buckets : List (List α)) :
    xs.foldl (fun buckets x => buckets.modify (key x) (· ++ [x])) buckets =
      buckets.mapIdx fun k ys => ys ++ xs.filter fun x => key x == k := by
  induction xs generalizing buckets with
  | nil =>
    refine List.ext_getElem (by simp) fun k hk hk' => ?_
    simp
  | cons x xs ih =>
    rw [List.foldl_cons, ih]
    refine List.ext_getElem (by simp) fun k hk hk' => ?_
    rw [List.getElem_mapIdx, List.getElem_mapIdx, List.getElem_modify, List.filter_cons]
    by_cases hkey : key x = k
    · rw [if_pos hkey, if_pos (beq_iff_eq.2 hkey), List.append_assoc]
      rfl
    · rw [if_neg hkey, if_neg (mt beq_iff_eq.1 hkey)]

/-- Bucket `k` has the elements with key `k`, in order. -/
theorem distribute_eq (key : α → ℕ) (n : ℕ) (xs : List α) :
    distribute key n xs = (List.range n).map fun k => xs.filter fun x => key x == k := by
  rw [distribute, foldl_modify_eq]
  refine List.ext_getElem (by simp) fun k hk hk' => ?_
  simp

/-! ## Adding to a range -/

/-- `x` appended to the `n` lists from number `lo` on. -/
def pushRange (x : α) : (n lo : ℕ) → List (List α) → List (List α)
  | 0, _, buckets => buckets
  | n + 1, lo, buckets => pushRange x n (lo + 1) (buckets.modify lo (· ++ [x]))

@[simp] theorem length_pushRange (x : α) (n lo : ℕ) (buckets : List (List α)) :
    (pushRange x n lo buckets).length = buckets.length := by
  induction n generalizing lo buckets with
  | zero => rfl
  | succ n ih => rw [pushRange, ih, List.length_modify]

theorem getElem?_pushRange (x : α) (n lo : ℕ) (buckets : List (List α)) (k : ℕ) :
    (pushRange x n lo buckets)[k]? =
      buckets[k]?.map fun ys => if lo ≤ k ∧ k < lo + n then ys ++ [x] else ys := by
  induction n generalizing lo buckets with
  | zero =>
    have hno : ¬(lo ≤ k ∧ k < lo + 0) := by omega
    simp only [if_neg hno, Option.map_id']
    rfl
  | succ n ih =>
    rw [pushRange, ih, List.getElem?_modify, Option.map_eq_map, Option.map_map]
    refine congrArg (Option.map · _) (funext fun ys => ?_)
    -- List `lo` is the first of the range; the others are those the recursion adds to.
    rcases Nat.lt_trichotomy k lo with h | rfl | h
    · rw [if_neg (by omega), Function.comp_apply, if_neg (by omega), if_neg (by omega)]
    · rw [if_pos (by omega), Function.comp_apply, if_neg (by omega), if_pos rfl]
    · rw [Function.comp_apply, if_neg (show ¬lo = k by omega)]
      exact if_congr (by omega) rfl rfl

/-! ## Sorting where needed -/

section

variable (r : α → α → Prop) [DecidableRel r]

/-- The loop over neighbours: no element is out of order with the one before it. -/
def ascending : List α → Bool
  | x :: y :: rest => decide (r x y) && ascending (y :: rest)
  | _ => true

def sortUnlessAscending (xs : List α) : List α :=
  if ascending r xs then xs else xs.insertionSort r

theorem pairwise_of_ascending [IsTrans α r] {xs : List α} (h : ascending r xs = true) :
    xs.Pairwise r := by
  refine List.isChain_iff_pairwise.1 ?_
  induction xs with
  | nil => exact List.IsChain.nil
  | cons x xs ih =>
    cases xs with
    | nil => exact List.IsChain.singleton x
    | cons y rest =>
      obtain ⟨hxy, hrest⟩ := Bool.and_eq_true_iff.1 h
      exact List.isChain_cons_cons.2 ⟨of_decide_eq_true hxy, ih hrest⟩

/-- Inserting an element keeps a relation between elements in order, if it relates the element to
    each of the others in the order that they come to. -/
theorem pairwise_orderedInsert_of {Q : α → α → Prop} [IsTrans α r] {x : α} {xs : List α}
    (hsorted : xs.Pairwise r) (hxs : xs.Pairwise Q)
    (hx : ∀ y ∈ xs, (r x y → Q x y) ∧ (¬r x y → Q y x)) : (xs.orderedInsert r x).Pairwise Q := by
  induction xs with
  | nil => exact List.pairwise_singleton Q x
  | cons y xs ih =>
    obtain ⟨hsmall, hsorted'⟩ := List.pairwise_cons.1 hsorted
    obtain ⟨hy, hxs'⟩ := List.pairwise_cons.1 hxs
    obtain ⟨hxy, hx'⟩ := List.forall_mem_cons.1 hx
    rw [List.orderedInsert_cons]
    by_cases hle : r x y
    · rw [if_pos hle]
      refine List.pairwise_cons.2 ⟨List.forall_mem_cons.2 ⟨hxy.1 hle, fun z hz => ?_⟩, hxs⟩
      exact (hx' z hz).1 (IsTrans.trans x y z hle (hsmall z hz))
    · rw [if_neg hle]
      refine List.pairwise_cons.2 ⟨fun z hz => ?_, ih hsorted' hxs' hx'⟩
      rcases (List.mem_orderedInsert r).1 hz with rfl | hz
      · exact hxy.2 hle
      · exact hy z hz

/-- A sort that keeps ties in order gives a relation between neighbours from one between the
    elements as they were. -/
theorem pairwise_insertionSort_of {Q : α → α → Prop} [Std.Total r] [IsTrans α r] {xs : List α}
    (h : xs.Pairwise fun x y => (r x y → Q x y) ∧ (¬r x y → Q y x)) :
    (xs.insertionSort r).Pairwise Q := by
  induction xs with
  | nil => exact List.Pairwise.nil
  | cons x xs ih =>
    obtain ⟨hx, hxs⟩ := List.pairwise_cons.1 h
    rw [List.insertionSort_cons]
    exact pairwise_orderedInsert_of r (List.pairwise_insertionSort r xs) (ih hxs)
      fun y hy => hx y ((List.mem_insertionSort r).1 hy)

theorem sortUnlessAscending_eq [IsTrans α r] (xs : List α) :
    sortUnlessAscending r xs = xs.insertionSort r := by
  rw [sortUnlessAscending]
  split
  · next h => exact (List.Pairwise.insertionSort_eq (pairwise_of_ascending r h)).symm
  · rfl

end

end Buckets

end Flark
