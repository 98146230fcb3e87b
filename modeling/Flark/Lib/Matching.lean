import Mathlib.Algebra.BigOperators.Group.List.Basic
import Mathlib.Algebra.Ring.Int.Defs

/-!
# Matching

Which element of a list closes what another one opens, where an element may also stop all that is
open. A scan ahead from the one that opens counts the depth, up with each that opens and down with
each that closes (`scan`). A pass over the whole list finds all ends at once, with a stack of what
waits for its end (`pass`).

The two are related by what the scans ahead say at a state of the pass (`State.foreseen`): what
waits `k` places below the top of the stack has depth `k + 1`. No step of the pass changes it.

* `scan_eq_some_iff`: where a scan ends, by the depths of what it goes over (`Returns`);
* `State.foreseen_read`: what is foreseen stays as it is with each element read;
* `lookup_pass`: the pass finds what the scans find.
-/

namespace Flark

namespace Matching

/-- What an element does to those that are open. -/
inductive Part where
  | opens
  | closes
  | stops
  | passes
  deriving DecidableEq, Repr

/-- How an element changes the depth. -/
def Part.delta : Part → Int
  | opens => 1
  | closes => -1
  | stops => 0
  | passes => 0

variable {α : Type*} (part : α → Part)

/-- The scan ahead, from element `i` on and `depth` deep: the place behind the one that ends the
    depth. -/
def scan : (i depth : Nat) → List α → Option Nat
  | _, _, [] => none
  | i, depth, x :: l =>
    match part x with
    | .opens => scan (i + 1) (depth + 1) l
    | .closes => if depth = 1 then some (i + 1) else scan (i + 1) (depth - 1) l
    | .stops => none
    | .passes => scan (i + 1) depth l

/-- What a pass holds: those that wait for their end, the last one first, and the ends found. -/
structure State where
  waiting : List Nat := []
  ends : List (Nat × Option Nat) := []

/-- What waits has no end. -/
def State.giveUp (s : State) : State where
  ends := s.waiting.map (·, none) ++ s.ends

/-- Element `i` is read. -/
def State.read (s : State) (i : Nat) : Part → State
  | .opens => { s with waiting := i :: s.waiting }
  | .closes =>
    match s.waiting with
    | [] => s
    | a :: waiting => { waiting := waiting, ends := (a, some (i + 1)) :: s.ends }
  | .stops => s.giveUp
  | .passes => s

/-- The elements of a list are read, from element `i` on. -/
def State.readAll : (i : Nat) → List α → State → State
  | _, [], s => s
  | i, x :: l, s => readAll (i + 1) l (s.read i (part x))

/-- The pass over a list: the ends found. -/
def pass (i : Nat) (l : List α) (s : State) : List (Nat × Option Nat) :=
  (s.readAll part i l).giveUp.ends

/-! ## Where a scan ends -/

/-- The depth that elements add. -/
def depth (l : List α) : Int := (l.map fun x => (part x).delta).sum

/-- The first `n` elements of a list bring a depth of `d` to zero, the last of them first, and none
    of them stops it. -/
structure Returns (d : Int) (l : List α) (n : Nat) : Prop where
  le : n ≤ l.length
  zero : d + depth part (l.take n) = 0
  pos : ∀ m < n, 0 < d + depth part (l.take m)
  clear : ∀ x ∈ l.take n, part x ≠ .stops

variable {part} {i n : Nat} {d : Int} {x : α} {l l' : List α}

@[simp] theorem depth_nil : depth part [] = 0 := rfl

@[simp] theorem depth_cons : depth part (x :: l) = (part x).delta + depth part l := by
  rw [depth, List.map_cons, List.sum_cons, depth]

theorem returns_zero : Returns part d l 0 ↔ d = 0 :=
  ⟨fun h => by simpa using h.zero, fun h => ⟨Nat.zero_le _, by simpa using h,
    fun _ hm => absurd hm (Nat.not_lt_zero _), by simp⟩⟩

theorem returns_from_zero : Returns part 0 l n ↔ n = 0 := by
  refine ⟨fun h => ?_, fun hn => by rw [hn, returns_zero]⟩
  by_contra hn
  exact absurd (h.pos 0 (Nat.pos_of_ne_zero hn)) (by simp)

theorem not_returns_nil : ¬Returns part d ([] : List α) (n + 1) :=
  fun h => absurd h.le (Nat.not_succ_le_zero n)

theorem returns_cons : Returns part d (x :: l) (n + 1) ↔
    0 < d ∧ part x ≠ .stops ∧ Returns part (d + (part x).delta) l n := by
  constructor
  · intro h
    refine ⟨by simpa using h.pos 0 (Nat.succ_pos n), h.clear x (by simp), ?_, ?_, ?_, ?_⟩
    · exact Nat.le_of_succ_le_succ h.le
    · simpa [add_assoc] using h.zero
    · intro m hm
      simpa [add_assoc] using h.pos (m + 1) (Nat.succ_lt_succ hm)
    · intro y hy
      exact h.clear y (by simp [hy])
  · rintro ⟨hd, hx, h⟩
    refine ⟨Nat.succ_le_succ h.le, ?_, ?_, ?_⟩
    · simpa [add_assoc] using h.zero
    · intro m hm
      cases m with
      | zero => simpa using hd
      | succ m => simpa [add_assoc] using h.pos m (Nat.lt_of_succ_lt_succ hm)
    · intro y hy
      rw [List.take_succ_cons, List.mem_cons] at hy
      rcases hy with rfl | hy
      · exact hx
      · exact h.clear y hy

/-- A scan ends behind the elements that bring its depth to zero, if any do. -/
theorem scan_eq_some_iff {depth stop : Nat} (hdepth : 0 < depth) :
    scan part i depth l = some stop ↔ ∃ n, stop = i + n ∧ Returns part depth l n := by
  induction l generalizing i depth with
  | nil =>
    rw [scan]
    refine ⟨fun h => (by cases h), ?_⟩
    rintro ⟨n, -, h⟩
    cases n with
    | zero => exact absurd (returns_zero.1 h) (by omega)
    | succ n => exact absurd h not_returns_nil
  | cons x l ih =>
    -- The first element is among those that bring the depth to zero.
    have hstep : (∃ n, stop = i + n ∧ Returns part depth (x :: l) n) ↔
        ∃ n, stop = i + 1 + n ∧ part x ≠ .stops ∧
          Returns part (depth + (part x).delta) l n := by
      constructor
      · rintro ⟨n, rfl, h⟩
        cases n with
        | zero => exact absurd (returns_zero.1 h) (by omega)
        | succ n => exact ⟨n, by omega, (returns_cons.1 h).2⟩
      · rintro ⟨n, rfl, h⟩
        exact ⟨n + 1, by omega, returns_cons.2 ⟨by omega, h⟩⟩
    rw [hstep, scan]
    cases hx : part x with
    | opens => simp [Part.delta, ih (Nat.succ_pos depth)]
    | closes =>
      by_cases hone : depth = 1
      · subst hone
        simp [Part.delta, returns_from_zero, eq_comm]
      · have hcast : (depth : Int) + -1 = (depth - 1 : Nat) := by omega
        simp [Part.delta, hone, hcast, ih (show 0 < depth - 1 by omega)]
    | stops => simp
    | passes => simp [Part.delta, ih hdepth]

/-! ## What a pass finds -/

/-- The end of element `a`, as a state and the scan ahead of what waits have it: the last one that
    waits is one deep, the one before it two, and so on. -/
def State.foreseen (part : α → Part) (s : State) (i : Nat) (l : List α) (a : Nat) :
    Option (Option Nat) :=
  match s.waiting.idxOf? a with
  | some k => some (scan part i (k + 1) l)
  | none => s.ends.lookup a

/-- What waits began before element `i`, the last one first. -/
def State.Before (s : State) (i : Nat) : Prop := (i :: s.waiting).Pairwise (· > ·)

namespace State

variable {s : State} {a : Nat}

theorem before_empty : ({} : State).Before i := List.pairwise_singleton _ _

theorem Before.lt (h : s.Before i) (ha : a ∈ s.waiting) : a < i := List.rel_of_pairwise_cons h ha

theorem Before.mono {j : Nat} (h : s.Before i) (hij : i ≤ j) : s.Before j :=
  List.pairwise_cons.2 ⟨fun _ ha => Nat.lt_of_lt_of_le (h.lt ha) hij, h.of_cons⟩

theorem Before.read (h : s.Before i) (p : Part) : (s.read i p).Before (i + 1) := by
  cases p with
  | opens =>
    refine List.pairwise_cons.2 ⟨fun a ha => ?_, h⟩
    rcases List.mem_cons.1 ha with rfl | ha
    · exact Nat.lt_succ_self a
    · exact Nat.lt_succ_of_lt (h.lt ha)
  | closes =>
    rw [State.read]
    split
    · exact h.mono (Nat.le_succ i)
    next b w hw =>
      have hsub : (i :: w).Sublist (i :: s.waiting) := by
        rw [hw]
        exact (List.sublist_cons_self b w).cons_cons i
      exact Before.mono (s := ⟨w, _⟩) (h.sublist hsub) (Nat.le_succ i)
  | stops => exact List.pairwise_singleton _ _
  | passes => exact h.mono (Nat.le_succ i)

variable (part) in
theorem Before.readAll (h : s.Before i) (l : List α) :
    (s.readAll part i l).Before (i + l.length) := by
  induction l generalizing i s with
  | nil => exact h
  | cons x l ih =>
    have := ih (h.read (part x))
    rwa [Nat.add_right_comm] at this

theorem lookup_giveUp :
    s.giveUp.ends.lookup a = if a ∈ s.waiting then some none else s.ends.lookup a := by
  rw [giveUp]
  induction s.waiting with
  | nil => rfl
  | cons b w ih =>
    by_cases hab : a = b
    · simp [hab]
    · simpa [List.lookup_cons, hab, beq_false_of_ne hab] using ih

/-- Where no scan ahead of what waits finds an end, it is as if all were given up. -/
theorem foreseen_of_none (h : ∀ k, scan part i (k + 1) l = none) :
    s.foreseen part i l a = s.giveUp.ends.lookup a := by
  rw [foreseen, lookup_giveUp]
  split
  next k hk =>
    have hmem : a ∈ s.waiting := List.isSome_idxOf?.1 (by rw [hk]; rfl)
    rw [h, if_pos hmem]
  next hk => rw [if_neg (List.idxOf?_eq_none_iff.1 hk)]

/-- An element read changes nothing of what is foreseen for those before it. -/
theorem foreseen_read (h : s.Before i) (ha : a < i) :
    (s.read i (part x)).foreseen part (i + 1) l a = s.foreseen part i (x :: l) a := by
  cases hx : part x with
  | opens =>
    -- One more waits on top, and all below are one deeper.
    have hscan (k : Nat) : scan part i (k + 1) (x :: l) = scan part (i + 1) (k + 1 + 1) l := by
      simp only [scan, hx]
    simp only [foreseen, State.read, List.idxOf?_cons, beq_false_of_ne (Nat.ne_of_gt ha), hscan]
    cases s.waiting.idxOf? a <;> rfl
  | closes =>
    have hone : scan part i 1 (x :: l) = some (i + 1) := by simp [scan, hx]
    have hscan (k : Nat) : scan part i (k + 1 + 1) (x :: l) = scan part (i + 1) (k + 1) l := by
      simp [scan, hx]
    cases hw : s.waiting with
    | nil => simp [foreseen, State.read, hw]
    | cons b w =>
      have hb : b ∉ w := fun hmem => by
        have hpair := h.of_cons
        rw [hw] at hpair
        exact Nat.lt_irrefl b (List.rel_of_pairwise_cons hpair hmem)
      by_cases hab : a = b
      · -- The top one is closed here.
        subst hab
        simp [foreseen, State.read, hw, List.idxOf?_cons, List.idxOf?_eq_none_iff.2 hb, hone]
      · simp only [foreseen, State.read, hw, List.idxOf?_cons, beq_false_of_ne (Ne.symm hab),
          List.lookup_cons, beq_false_of_ne hab]
        cases w.idxOf? a with
        | none => rfl
        | some k => exact congrArg some (hscan k).symm
  | stops =>
    have hnone (k : Nat) : scan part i (k + 1) (x :: l) = none := by
      simp only [scan, hx]
    rw [foreseen_of_none hnone]
    rfl
  | passes =>
    have hscan (k : Nat) : scan part i (k + 1) (x :: l) = scan part (i + 1) (k + 1) l := by
      simp only [scan, hx]
    simp only [foreseen, State.read, hscan]

end State

theorem pass_append (part : α → Part) (i : Nat) (l l' : List α) (s : State) :
    pass part i (l ++ l') s = pass part (i + l.length) l' (s.readAll part i l) := by
  induction l generalizing i s with
  | nil => rfl
  | cons x l ih =>
    have := ih (i + 1) (s.read i (part x))
    rwa [Nat.add_right_comm] at this

/-- The pass finds for each element before it what is foreseen. -/
theorem lookup_pass {s : State} {a : Nat} (h : s.Before i) (ha : a < i) :
    (pass part i l s).lookup a = s.foreseen part i l a := by
  induction l generalizing i s with
  | nil => exact (State.foreseen_of_none fun _ => rfl).symm
  | cons x l ih => exact (ih (h.read _) (Nat.lt_succ_of_lt ha)).trans (State.foreseen_read h ha)

/-- The pass over a list finds an end for each element that opens, and it is the one that the scan
    ahead finds. -/
theorem lookup_pass_opens {o : Nat} (ho : l[o]?.map part = some .opens) :
    (pass part 0 l {}).lookup o = some (scan part (o + 1) 1 (l.drop (o + 1))) := by
  obtain ⟨x, hx, hopens⟩ := Option.map_eq_some_iff.1 ho
  obtain ⟨hlt, rfl⟩ := List.getElem?_eq_some_iff.1 hx
  have hlength : (l.take o).length = o := List.length_take_of_le (Nat.le_of_lt hlt)
  -- The state behind the element: it waits on top.
  obtain ⟨s, hs, hpass⟩ : ∃ s : State, s.Before o ∧
      pass part 0 l {} = pass part (o + 1) (l.drop (o + 1)) (s.read o .opens) := by
    refine ⟨({} : State).readAll part 0 (l.take o), ?_, ?_⟩
    · have := (State.before_empty (i := 0)).readAll part (l.take o)
      rwa [hlength, Nat.zero_add] at this
    · have := pass_append part 0 (l.take o) (l.drop o) {}
      rw [List.take_append_drop, hlength, Nat.zero_add, List.drop_eq_getElem_cons hlt] at this
      rw [this, ← hopens]
      rfl
  rw [hpass, lookup_pass (hs.read .opens) (Nat.lt_succ_self o)]
  simp [State.foreseen, State.read, List.idxOf?_cons]

end Matching

end Flark
