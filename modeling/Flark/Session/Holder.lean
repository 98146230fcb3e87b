import Mathlib.Data.List.Nodup
import Mathlib.Order.Lattice

/-!
# Holding a lease

What a session and a reader have in common: each loads a parser in attempts, holds the lease
that an attempt is given and disposes it.

A lease stands for the object the loader gives and is named by its number; so is an attempt,
which stands for its `Completer`. Each lease is recorded with the calls of its `dispose`, and
each attempt with the number of times its future was completed.

* `Holder.Owns`: the leases given are disposed once each but for the one that is held, one
  load is awaited at most, and no future is completed twice.
-/

namespace Flark

/-- `FlarkStatus`. -/
inductive FlarkStatus
  | loading
  | ready
  | failed
  | disposed
  deriving DecidableEq, Repr

/-- Why a lease was disposed: with its holder, because its attempt or its parser failed, or on
    arrival, because its holder was disposed during the load or had started another attempt. -/
inductive Release
  | disposed
  | failed
  | onArrival
  | superseded
  deriving DecidableEq, Repr

structure Holder where
  /-- `_status`. -/
  status : FlarkStatus := .loading
  /-- The leases given, each with the calls of its `dispose`. -/
  leases : List (List Release) := []
  /-- `_lease`. -/
  lease : Option Nat := none
  /-- The attempts made, each with the number of times its future was completed. -/
  attempts : List Nat := []
  /-- `_attempt`. -/
  attempt : Option Nat := none
  /-- The attempts whose loader has not answered, with a lease or an error. -/
  awaiting : List Nat := []
  deriving DecidableEq, Repr

namespace Holder

variable (h : Holder)

/-- A new attempt, with the status it starts in. -/
def begin (status : FlarkStatus) : Holder := { h with
  attempts := h.attempts ++ [0]
  attempt := some h.attempts.length
  status := status }

/-- `isCompleted`. -/
def isCompleted (a : Nat) : Bool := (h.attempts[a]?).any (0 < ·)

/-- `if (!attempt.isCompleted) attempt.complete()`, or `completeError`. -/
def complete (a : Nat) : Holder :=
  if h.isCompleted a then h else { h with attempts := h.attempts.modify a (· + 1) }

/-- `lease?.dispose()`. -/
def release (lease : Option Nat) (why : Release) : Holder :=
  match lease with
  | none => h
  | some l => { h with leases := h.leases.modify l (· ++ [why]) }

/-- `_lease?.dispose(); _lease = null`. -/
def drop (why : Release) : Holder := { h.release h.lease why with lease := none }

/-- `if (_attempt?.isCompleted == false) _attempt!.completeError`. -/
def abandon : Holder :=
  match h.attempt with
  | none => h
  | some a => h.complete a

/-- A lease was disposed as it should: not at all while it is held, once when it is not. -/
structure Owns : Prop where
  released : ∀ (l : Nat) (whys : List Release), h.leases[l]? = some whys →
    h.lease = some l ∧ whys = [] ∨ h.lease ≠ some l ∧ ∃ why, whys = [why] ∧ why ≠ .superseded
  held : ∀ l, h.lease = some l → l < h.leases.length
  free : h.status = .loading ∨ h.status = .disposed → h.lease = none
  /-- The one load awaited is that of the current attempt. -/
  awaited : ∀ a ∈ h.awaiting, (h.status = .loading ∨ h.status = .disposed) ∧ h.attempt = some a
  single : h.awaiting.Nodup
  once : ∀ n ∈ h.attempts, n ≤ 1

variable {h}

theorem owns_init : Owns {} where
  released := fun _ _ hl => nomatch hl
  held := fun _ hl => nomatch hl
  free := fun _ => rfl
  awaited := fun _ ha => nomatch ha
  single := List.nodup_nil
  once := fun _ hn => nomatch hn

@[simp] theorem complete_status (a : Nat) : (h.complete a).status = h.status := by
  rw [complete]
  split <;> rfl

@[simp] theorem complete_lease (a : Nat) : (h.complete a).lease = h.lease := by
  rw [complete]
  split <;> rfl

@[simp] theorem complete_awaiting (a : Nat) : (h.complete a).awaiting = h.awaiting := by
  rw [complete]
  split <;> rfl

@[simp] theorem abandon_status : h.abandon.status = h.status := by
  rw [abandon]
  split
  · rfl
  · exact complete_status _

@[simp] theorem abandon_lease : h.abandon.lease = h.lease := by
  rw [abandon]
  split
  · rfl
  · exact complete_lease _

@[simp] theorem abandon_awaiting : h.abandon.awaiting = h.awaiting := by
  rw [abandon]
  split
  · rfl
  · exact complete_awaiting _

@[simp] theorem drop_status (why : Release) : (h.drop why).status = h.status := by
  rw [drop]
  cases h.lease <;> rfl

@[simp] theorem drop_awaiting (why : Release) : (h.drop why).awaiting = h.awaiting := by
  rw [drop]
  cases h.lease <;> rfl

/-- The status of a holder is no matter of its lease or its future. -/
theorem drop_withStatus (status : FlarkStatus) (why : Release) :
    drop { h with status := status } why = { h.drop why with status := status } := by
  rw [drop, drop]
  cases h.lease <;> rfl

theorem abandon_withStatus (status : FlarkStatus) :
    abandon { h with status := status } = { h.abandon with status := status } := by
  rw [abandon, abandon]
  dsimp only
  split
  · rfl
  · rw [complete, complete, isCompleted, isCompleted]
    split <;> rfl

@[simp] theorem release_status (l : Option Nat) (why : Release) :
    (h.release l why).status = h.status := by
  cases l <;> rfl

@[simp] theorem release_awaiting (l : Option Nat) (why : Release) :
    (h.release l why).awaiting = h.awaiting := by
  cases l <;> rfl

/-- A lease that is given and disposed at once. -/
theorem release_given (leases : List (List Release)) (why : Release) :
    (leases ++ [[]]).modify leases.length (· ++ [why]) = leases ++ [[why]] := by
  induction leases with
  | nil => rfl
  | cons whys leases ih => exact congrArg (whys :: ·) ih

namespace Owns

variable (ho : h.Owns)

include ho

theorem awaiting_eq_nil (hstatus : h.status = .ready ∨ h.status = .failed) : h.awaiting = [] := by
  refine List.eq_nil_iff_forall_not_mem.2 fun a ha => ?_
  rcases (ho.awaited a ha).1 with h' | h' <;> rw [h'] at hstatus <;> simp at hstatus

/-- Once the awaited load is over no other is awaited. -/
theorem erase_eq_nil {a : Nat} (ha : a ∈ h.awaiting) : h.awaiting.erase a = [] := by
  refine List.eq_nil_iff_forall_not_mem.2 fun b hb => ?_
  obtain ⟨hne, hb⟩ := ho.single.mem_erase_iff.1 hb
  refine hne (Option.some.inj ?_)
  rw [← (ho.awaited a ha).2, ← (ho.awaited b hb).2]

theorem complete (a : Nat) : (h.complete a).Owns := by
  rw [Holder.complete]
  split
  · exact ho
  · next hnot =>
    refine { ho with once := fun n hn => ?_ }
    rw [isCompleted, Option.any_eq_true] at hnot
    obtain ⟨i, hi⟩ := List.mem_iff_getElem?.1 hn
    rw [List.getElem?_modify] at hi
    obtain ⟨k, hk, rfl⟩ := Option.map_eq_some_iff.1 hi
    split
    · next heq =>
      subst heq
      by_contra hlt
      exact hnot ⟨k, hk, by simp; omega⟩
    · exact ho.once k (List.mem_of_getElem? hk)

/-- An attempt that loads a parser starts where none is held or awaited. -/
theorem begin_loading (hlease : h.lease = none) (hnone : h.awaiting = []) :
    Owns { h.begin .loading with awaiting := h.awaiting ++ [h.attempts.length] } where
  released := ho.released
  held := ho.held
  free := fun _ => hlease
  awaited a ha := by
    rw [hnone] at ha
    obtain rfl := List.mem_singleton.1 ha
    exact ⟨Or.inl rfl, rfl⟩
  single := by
    rw [hnone]
    exact List.nodup_singleton _
  once n hn := by
    rcases List.mem_append.1 hn with hn | hn
    · exact ho.once n hn
    · exact (List.mem_singleton.1 hn).le.trans (Nat.zero_le 1)

/-- So does one that fails before. -/
theorem begin_failed (hnone : h.awaiting = []) : (h.begin .failed).Owns where
  released := ho.released
  held := ho.held
  free hstatus := by simp [begin] at hstatus
  awaited a ha := by
    rw [Holder.begin, hnone] at ha
    cases ha
  single := ho.single
  once n hn := by
    rcases List.mem_append.1 hn with hn | hn
    · exact ho.once n hn
    · exact (List.mem_singleton.1 hn).le.trans (Nat.zero_le 1)

/-- The load ends without a lease that is kept. -/
theorem answered (a : Nat) : Owns { h with awaiting := h.awaiting.erase a } where
  released := ho.released
  held := ho.held
  free := ho.free
  awaited b hb := ho.awaited b (List.mem_of_mem_erase hb)
  single := ho.single.erase a
  once := ho.once

theorem released_append {why : Release} (hwhy : why ≠ .superseded) :
    Owns { h with leases := h.leases ++ [[why]] } where
  released l whys hl := by
    rcases Nat.lt_or_ge l h.leases.length with hlt | hge
    · rw [List.getElem?_append_left hlt] at hl
      exact ho.released l whys hl
    · rw [List.getElem?_append_right hge] at hl
      obtain ⟨hzero, rfl⟩ := List.getElem?_eq_some_iff.1 hl
      refine Or.inr ⟨fun heq => ?_, why, ?_, hwhy⟩
      · exact absurd (ho.held l heq) (not_lt.2 hge)
      · simp
  held l hl := by
    rw [List.length_append]
    exact (ho.held l hl).trans_le (Nat.le_add_right _ _)
  free := ho.free
  awaited := ho.awaited
  single := ho.single
  once := ho.once

/-- The lease is given to the current attempt, which opens the document. -/
theorem opened (hlease : h.lease = none) {a : Nat} (ha : a ∈ h.awaiting) :
    Owns { h with
      awaiting := h.awaiting.erase a
      leases := h.leases ++ [[]]
      lease := some h.leases.length
      status := .ready } where
  released l whys hl := by
    dsimp only at hl ⊢
    rcases Nat.lt_or_ge l h.leases.length with hlt | hge
    · rw [List.getElem?_append_left hlt] at hl
      rcases ho.released l whys hl with ⟨heq, -⟩ | ⟨-, hwhy⟩
      · rw [hlease] at heq
        cases heq
      · exact Or.inr ⟨fun heq => hlt.ne' (Option.some.inj heq), hwhy⟩
    · have hlt := (List.getElem?_eq_some_iff.1 hl).1
      rw [List.length_append, List.length_singleton] at hlt
      obtain rfl : l = h.leases.length := by omega
      rw [List.getElem?_concat_length] at hl
      exact Or.inl ⟨rfl, (Option.some.inj hl).symm⟩
  held l hl := by
    obtain rfl := Option.some.inj hl
    simp
  free hstatus := by simp at hstatus
  awaited b hb := by
    rw [ho.erase_eq_nil ha] at hb
    cases hb
  single := ho.single.erase a
  once := ho.once

/-- The attempt whose load is over fails. -/
theorem fails (hnone : h.awaiting = []) : Owns { h with status := .failed } where
  released := ho.released
  held := ho.held
  free hstatus := by simp at hstatus
  awaited a ha := by
    rw [hnone] at ha
    cases ha
  single := ho.single
  once := ho.once

/-- What is held is disposed. -/
theorem drop (why : Release) (hwhy : why ≠ .superseded) : (h.drop why).Owns := by
  rw [Holder.drop]
  cases hlease : h.lease with
  | none =>
    rw [release]
    exact { ho with
      released := fun l whys hl => (ho.released l whys hl).imp
        (fun hheld => by rw [hlease] at hheld; cases hheld.1)
        fun hgone => ⟨nofun, hgone.2⟩
      held := nofun
      free := fun _ => rfl }
  | some held =>
    rw [release]
    refine { ho with released := fun l whys hl => ?_, held := nofun, free := fun _ => rfl }
    dsimp only at hl
    rw [List.getElem?_modify] at hl
    obtain ⟨whys', hget, rfl⟩ := Option.map_eq_some_iff.1 hl
    dsimp only
    refine Or.inr ⟨nofun, ?_⟩
    rcases ho.released l whys' hget with ⟨heq, rfl⟩ | ⟨hne, hgone⟩
    · rw [hlease] at heq
      rw [if_pos (Option.some.inj heq)]
      exact ⟨why, rfl, hwhy⟩
    · rw [hlease] at hne
      rw [if_neg fun heq => hne (congrArg some heq)]
      exact hgone

theorem abandon : h.abandon.Owns := by
  rw [Holder.abandon]
  split
  · exact ho
  · exact ho.complete _

theorem disposed (hlease : h.lease = none) : Owns { h with status := .disposed } where
  released := ho.released
  held := ho.held
  free := fun _ => hlease
  awaited a ha := ⟨Or.inr rfl, (ho.awaited a ha).2⟩
  single := ho.single
  once := ho.once

end Owns

end Holder

end Flark
