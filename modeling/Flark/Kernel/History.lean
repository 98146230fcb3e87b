import Flark.Kernel.Document
import Mathlib.Algebra.BigOperators.Group.List.Basic

/-!
# History

Undo history: snapshots grouped so that one logical action is one entry (`kernel/history.dart`).
A stack is held with its newest entry first; the source's lists end with it.

* `History.recordState`, `History.undoState`, `History.redoState`: the recording of a change, and
  the way to earlier states and back;
* `History.bookkeeping`: what holds of a history after any run;
* `History.undo_redo_identity`: undo then redo is the identity, and a run of typing one step.
-/

namespace Flark

/-- `PendingStyle`: a style the next typed character will take. -/
structure PendingStyle where
  opening : Text
  closing : Text
  styles : Nat
  /-- A span moved its closing syntax before newly typed white space. -/
  continueAcrossSpaces : Bool := false
  deriving DecidableEq

/-- The state that history keeps: a source, its selection and the intent of typing. -/
structure HistoryState where
  source : Text
  selection : Selection
  pending : Option PendingStyle
  deriving DecidableEq

/-- `HistoryEntry`. -/
structure HistoryEntry where
  state : HistoryState
  group : Nat
  deriving DecidableEq

/-- The units of source that an entry holds. -/
def HistoryEntry.units (e : HistoryEntry) : Nat := e.state.source.length

/-- The caps that a history is made with; the constructor throws where none is positive. Times are
    integers. -/
structure HistoryCaps where
  coalesceWindow : Int
  maxEntries : Nat
  maxSourceCodeUnits : Nat
  positive : 0 < maxEntries
  deriving DecidableEq

/-- `History`, without its caps. -/
structure History where
  undo : List HistoryEntry
  redo : List HistoryEntry
  storedSourceCodeUnits : Int
  group : Nat
  lastTypingAt : Option Int
  lastWasTyping : Bool
  deriving DecidableEq

/-- `HistoryCheckpoint`: a copy of every field. -/
abbrev HistoryCheckpoint := History

/-- What a change is recorded with. -/
structure Recording where
  state : HistoryState
  typing : Bool
  time : Int
  deriving DecidableEq

/-! ## The history -/

/-- `_targetOf`: the oldest of the entries on top that are of one group. -/
def targetOf : List HistoryEntry → Option HistoryEntry
  | [] => none
  | e :: rest =>
    match rest with
    | [] => some e
    | e' :: rest => if e'.group = e.group then targetOf (e' :: rest) else some e

namespace History

def empty : History := ⟨[], [], 0, 0, none, false⟩

variable (caps : HistoryCaps) (h : History)

def undoTarget : Option HistoryEntry := targetOf h.undo

def redoTarget : Option HistoryEntry := targetOf h.redo

/-- `breakCoalescing`. -/
def breakCoalescing : History := { h with lastWasTyping := false, lastTypingAt := none }

/-- `checkpoint`. -/
def checkpoint : HistoryCheckpoint := h

/-- `restore`, which sets every field. -/
def restore (c : HistoryCheckpoint) : History := c

/-- `_add`, to either stack. -/
def addUndo (e : HistoryEntry) : History :=
  { h with undo := e :: h.undo, storedSourceCodeUnits := h.storedSourceCodeUnits + e.units }

def addRedo (e : HistoryEntry) : History :=
  { h with redo := e :: h.redo, storedSourceCodeUnits := h.storedSourceCodeUnits + e.units }

/-- The loop of `_clear` over a stack: what the entries take from the count. -/
def clearing : (units : Int) → List HistoryEntry → Int
  | units, [] => units
  | units, e :: stack => clearing (units - e.units) stack

def clearUndo : History :=
  { h with undo := [], storedSourceCodeUnits := clearing h.storedSourceCodeUnits h.undo }

def clearRedo : History :=
  { h with redo := [], storedSourceCodeUnits := clearing h.storedSourceCodeUnits h.redo }

/-- `clear`. -/
def clear : History := h.clearUndo.clearRedo.breakCoalescing

/-- `_removeOldest`, of either stack. -/
def removeOldestUndo : History :=
  { h with
    undo := h.undo.dropLast
    storedSourceCodeUnits :=
      h.storedSourceCodeUnits - (h.undo.getLast?.map HistoryEntry.units).getD 0 }

def removeOldestRedo : History :=
  { h with
    redo := h.redo.dropLast
    storedSourceCodeUnits :=
      h.storedSourceCodeUnits - (h.redo.getLast?.map HistoryEntry.units).getD 0 }

/-- What the loop of `_trim` tests. -/
def overCaps : Bool :=
  decide (caps.maxEntries < h.undo.length + h.redo.length) ||
    decide ((caps.maxSourceCodeUnits : Int) < h.storedSourceCodeUnits)

/-- One turn of the loop; `none` is its `break`. The state at hand on each side is kept where it
    can be. -/
def trimTurn : Option History :=
  if 1 < h.undo.length then some h.removeOldestUndo
  else if 1 < h.redo.length then some h.removeOldestRedo
  else
    match h.undo.getLast?, h.redo.getLast? with
    | some _, none => some h.removeOldestUndo
    | some u, some r => if r.units ≤ u.units then some h.removeOldestUndo else some h.removeOldestRedo
    | none, some _ => some h.removeOldestRedo
    | none, none => none

/-- The loop of `_trim`; each turn takes an entry, so the entries bound the turns. -/
def trimFrom : (fuel : Nat) → History → History
  | 0, h => h
  | fuel + 1, h =>
    if h.overCaps caps then
      match h.trimTurn with
      | some h' => trimFrom fuel h'
      | none => h
    else h

/-- `_trim`. -/
def trim : History := trimFrom caps (h.undo.length + h.redo.length) h

/-- Whether a change joins the group on top. -/
def joins (r : Recording) : Bool :=
  r.typing && h.lastWasTyping && h.undo.head?.any (fun e => e.group == h.group) &&
    h.lastTypingAt.any fun last =>
      decide (0 ≤ r.time - last) && decide (r.time - last ≤ caps.coalesceWindow)

/-- `recordState` before it trims. -/
def recorded (r : Recording) : History :=
  (if h.joins caps r then h
    else { h with group := h.group + 1 }.addUndo ⟨r.state, h.group + 1⟩).clearRedo

/-- `recordState`. -/
def recordState (r : Recording) : History :=
  let h := (h.recorded caps r).trim caps
  let h := { h with lastWasTyping := r.typing, lastTypingAt := some r.time }
  if h.undo.head?.any fun e => e.group == h.group then h else h.breakCoalescing

/-- The loop of `undoState`: the entries of a group come off the stack. -/
def popGroup (group : Nat) : (target : Option HistoryEntry) → (units : Int) → List HistoryEntry →
    Option HistoryEntry × Int × List HistoryEntry
  | target, units, [] => (target, units, [])
  | target, units, e :: stack =>
    if e.group = group then popGroup group (some e) (units - e.units) stack
    else (target, units, e :: stack)

/-- `undoState` before it trims. -/
def undone (x : HistoryState) : Option HistoryEntry × History :=
  match h.undo with
  | [] => (none, h)
  | top :: _ =>
    let h := h.breakCoalescing
    let (target, units, stack) := popGroup top.group none h.storedSourceCodeUnits h.undo
    (target, { h with undo := stack, storedSourceCodeUnits := units }.addRedo ⟨x, top.group⟩)

/-- `undoState`: the state to restore, given the current one. -/
def undoState (x : HistoryState) : Option HistoryEntry × History :=
  match h.undo with
  | [] => (none, h)
  | _ :: _ => ((h.undone x).1, (h.undone x).2.trim caps)

/-- `redoState` before it trims. -/
def redone (x : HistoryState) : Option HistoryEntry × History :=
  match h.redo with
  | [] => (none, h)
  | target :: stack =>
    let h := h.breakCoalescing
    (some target, { h with
      redo := stack
      storedSourceCodeUnits := h.storedSourceCodeUnits - target.units }.addUndo ⟨x, target.group⟩)

/-- `redoState`. -/
def redoState (x : HistoryState) : Option HistoryEntry × History :=
  match h.redo with
  | [] => (none, h)
  | _ :: _ => ((h.redone x).1, (h.redone x).2.trim caps)

end History

/-! ## Runs -/

inductive HistoryOp
  | record (r : Recording)
  | undo (x : HistoryState)
  | redo (x : HistoryState)
  | breakCoalescing
  | clear
  | checkpoint
  /-- Put back the checkpoint taken as the one with this number. -/
  | restore (i : Nat)
  deriving DecidableEq

/-- A history, and the checkpoints taken of it. -/
structure HistoryRun where
  history : History
  checkpoints : List HistoryCheckpoint

namespace HistoryRun

variable (caps : HistoryCaps)

def step (s : HistoryRun) : HistoryOp → HistoryRun
  | .record r => { s with history := s.history.recordState caps r }
  | .undo x => { s with history := (s.history.undoState caps x).2 }
  | .redo x => { s with history := (s.history.redoState caps x).2 }
  | .breakCoalescing => { s with history := s.history.breakCoalescing }
  | .clear => { s with history := s.history.clear }
  | .checkpoint => { s with checkpoints := s.checkpoints ++ [s.history.checkpoint] }
  | .restore i =>
    match s.checkpoints[i]? with
    | none => s
    | some c => { s with history := .restore c }

/-- A history from its creation on. -/
def of (ops : List HistoryOp) : HistoryRun := ops.foldl (step caps) ⟨.empty, []⟩

end HistoryRun

namespace History

/-! ## The invariant -/

/-- The units that entries hold. -/
def entryUnits (es : List HistoryEntry) : Nat := (es.map HistoryEntry.units).sum

/-- The groups of the entries, from the oldest one that can be undone to the last that can be
    redone. -/
def groups (h : History) : List Nat := (h.undo.reverse ++ h.redo).map HistoryEntry.group

/-- The count is that of the entries, and the groups grow in the order of the states. -/
structure Consistent (h : History) : Prop where
  units : h.storedSourceCodeUnits = (entryUnits h.undo + entryUnits h.redo : Nat)
  increasing : h.groups.Pairwise (· < ·)
  current : ∀ g ∈ h.groups, g ≤ h.group

section

variable {caps : HistoryCaps} {h h' : History}

@[simp] theorem entryUnits_nil : entryUnits [] = 0 := rfl

@[simp] theorem entryUnits_cons (e : HistoryEntry) (es : List HistoryEntry) :
    entryUnits (e :: es) = e.units + entryUnits es := by
  rw [entryUnits, entryUnits, List.map_cons, List.sum_cons]

/-- Clearing a stack takes off what its entries take up. -/
theorem clearing_eq (units : Int) (stack : List HistoryEntry) :
    clearing units stack = units - entryUnits stack := by
  induction stack generalizing units with
  | nil => exact (sub_zero units).symm
  | cons e stack ih =>
    rw [clearing, ih, entryUnits_cons]
    omega

/-- Without its oldest entry a stack takes up so much less. -/
theorem entryUnits_dropLast (es : List HistoryEntry) :
    (entryUnits es.dropLast : Int) =
      entryUnits es - (es.getLast?.map HistoryEntry.units).getD 0 := by
  rcases List.eq_nil_or_concat es with rfl | ⟨init, last, rfl⟩
  · rfl
  · rw [List.concat_eq_append, List.dropLast_concat, List.getLast?_append_of_ne_nil _ (by simp),
      entryUnits, entryUnits, List.map_append, List.sum_append]
    simp

/-- A history that keeps some of the groups, with its count right. -/
theorem Consistent.of_sublist (h₀ : h.Consistent)
    (hunits : h'.storedSourceCodeUnits = (entryUnits h'.undo + entryUnits h'.redo : Nat))
    (hgroups : h'.groups.Sublist h.groups) (hgroup : h'.group = h.group) : h'.Consistent where
  units := hunits
  increasing := h₀.increasing.sublist hgroups
  current g hg := hgroup ▸ h₀.current g (hgroups.subset hg)

theorem Consistent.breakCoalescing (h₀ : h.Consistent) : h.breakCoalescing.Consistent :=
  ⟨h₀.units, h₀.increasing, h₀.current⟩

/-- Dropping the oldest undo step keeps the count and the groups. -/
theorem Consistent.removeOldestUndo (h₀ : h.Consistent) : h.removeOldestUndo.Consistent := by
  refine h₀.of_sublist ?_ ?_ rfl
  · have hdrop := entryUnits_dropLast h.undo
    have hunits := h₀.units
    simp only [History.removeOldestUndo]
    omega
  · exact (((List.dropLast_sublist h.undo).reverse).append (List.Sublist.refl h.redo)).map _

/-- Dropping the furthest redo step keeps the count and the groups. -/
theorem Consistent.removeOldestRedo (h₀ : h.Consistent) : h.removeOldestRedo.Consistent := by
  refine h₀.of_sublist ?_ ?_ rfl
  · have hdrop := entryUnits_dropLast h.redo
    have hunits := h₀.units
    simp only [History.removeOldestRedo]
    omega
  · exact ((List.Sublist.refl h.undo.reverse).append (List.dropLast_sublist h.redo)).map _

theorem Consistent.clearUndo (h₀ : h.Consistent) : h.clearUndo.Consistent := by
  refine h₀.of_sublist ?_ ?_ rfl
  · have hunits := h₀.units
    simp only [History.clearUndo, clearing_eq, entryUnits_nil]
    omega
  · exact ((List.nil_sublist h.undo.reverse).append (List.Sublist.refl h.redo)).map _

theorem Consistent.clearRedo (h₀ : h.Consistent) : h.clearRedo.Consistent := by
  refine h₀.of_sublist ?_ ?_ rfl
  · have hunits := h₀.units
    simp only [History.clearRedo, clearing_eq, entryUnits_nil]
    omega
  · exact ((List.Sublist.refl h.undo.reverse).append (List.nil_sublist h.redo)).map _

/-! ## Trimming -/

/-- A turn takes the oldest entry of a stack, and the only one of a stack where neither has two. -/
theorem trimTurn_cases (hturn : h.trimTurn = some h') :
    h' = h.removeOldestUndo ∧ h.undo ≠ [] ∨ h' = h.removeOldestRedo ∧ h.redo ≠ [] := by
  have hlast : ∀ {es : List HistoryEntry} {e : HistoryEntry}, es.getLast? = some e → es ≠ [] := by
    rintro _ _ heq rfl
    cases heq
  rw [trimTurn] at hturn
  split at hturn
  · next hlen =>
    cases hturn
    exact Or.inl ⟨rfl, List.ne_nil_of_length_pos (by omega)⟩
  · split at hturn
    · next hlen =>
      cases hturn
      exact Or.inr ⟨rfl, List.ne_nil_of_length_pos (by omega)⟩
    · split at hturn
      · next hu _ =>
        cases hturn
        exact Or.inl ⟨rfl, hlast hu⟩
      · next hu hr =>
        split at hturn
        · cases hturn
          exact Or.inl ⟨rfl, hlast hu⟩
        · cases hturn
          exact Or.inr ⟨rfl, hlast hr⟩
      · next _ hr =>
        cases hturn
        exact Or.inr ⟨rfl, hlast hr⟩
      · cases hturn

/-- Trimming stops only when nothing is left. -/
theorem trimTurn_eq_none (hturn : h.trimTurn = none) : h.undo = [] ∧ h.redo = [] := by
  rw [trimTurn] at hturn
  split_ifs at hturn
  split at hturn
  · cases hturn
  · split_ifs at hturn
  · cases hturn
  · next hu hr => exact ⟨List.getLast?_eq_none_iff.1 hu, List.getLast?_eq_none_iff.1 hr⟩

/-- Nothing is over no cap. -/
theorem Consistent.overCaps_empty (h₀ : h.Consistent) (hempty : h.undo = [] ∧ h.redo = []) :
    h.overCaps caps = false := by
  have hunits := h₀.units
  rw [hempty.1, hempty.2] at hunits
  simp [overCaps, hempty.1, hempty.2, hunits]

/-- The trimming of a consistent history: one that keeps within its caps, with the newest entries
    of both stacks. -/
theorem trimFrom_spec (h₀ : h.Consistent) {fuel : Nat}
    (hfuel : h.undo.length + h.redo.length ≤ fuel) :
    (trimFrom caps fuel h).Consistent ∧ (trimFrom caps fuel h).overCaps caps = false ∧
      (trimFrom caps fuel h).undo <+: h.undo ∧ (trimFrom caps fuel h).redo <+: h.redo ∧
      (trimFrom caps fuel h).group = h.group := by
  induction fuel generalizing h with
  | zero =>
    have hnil : h.undo = [] ∧ h.redo = [] :=
      ⟨List.eq_nil_of_length_eq_zero (by omega), List.eq_nil_of_length_eq_zero (by omega)⟩
    exact ⟨h₀, h₀.overCaps_empty hnil, List.prefix_rfl, List.prefix_rfl, rfl⟩
  | succ fuel ih =>
    rw [trimFrom]
    split
    · split
      · next h' hturn =>
        rcases trimTurn_cases hturn with ⟨rfl, hne⟩ | ⟨rfl, hne⟩
        · have hpos := List.length_pos_iff.2 hne
          obtain ⟨hcons, hover, hundo, hredo, hgroup⟩ := ih h₀.removeOldestUndo
            (by simp only [removeOldestUndo, List.length_dropLast]; omega)
          exact ⟨hcons, hover, hundo.trans (List.dropLast_prefix _), hredo, hgroup⟩
        · have hpos := List.length_pos_iff.2 hne
          obtain ⟨hcons, hover, hundo, hredo, hgroup⟩ := ih h₀.removeOldestRedo
            (by simp only [removeOldestRedo, List.length_dropLast]; omega)
          exact ⟨hcons, hover, hundo, hredo.trans (List.dropLast_prefix _), hgroup⟩
      · next hturn =>
        exact ⟨h₀, h₀.overCaps_empty (trimTurn_eq_none hturn), List.prefix_rfl, List.prefix_rfl, rfl⟩
    · next hover =>
      exact ⟨h₀, Bool.eq_false_of_not_eq_true hover, List.prefix_rfl, List.prefix_rfl, rfl⟩

theorem trim_consistent (h₀ : h.Consistent) : (h.trim caps).Consistent :=
  (trimFrom_spec h₀ le_rfl).1

theorem trim_overCaps (h₀ : h.Consistent) : (h.trim caps).overCaps caps = false :=
  (trimFrom_spec h₀ le_rfl).2.1

/-- Within the caps nothing is trimmed. -/
theorem trim_of_within (hover : h.overCaps caps = false) : h.trim caps = h := by
  rw [trim]
  cases h.undo.length + h.redo.length with
  | zero => rfl
  | succ fuel => rw [trimFrom, if_neg (Bool.eq_false_iff.1 hover)]

/-! ## Recording, undo and redo -/

/-- The entry on top is of a later group than those below it. -/
theorem Consistent.lt_top (h₀ : h.Consistent) {e : HistoryEntry} {rest : List HistoryEntry}
    (hundo : h.undo = e :: rest) : ∀ e' ∈ rest, e'.group < e.group := by
  have hpair := h₀.increasing
  rw [groups, hundo, List.reverse_cons, List.append_assoc, List.map_append,
    List.pairwise_append] at hpair
  intro e' he'
  exact hpair.2.2 _ (List.mem_map_of_mem (List.mem_reverse.2 he')) _ List.mem_cons_self

/-- The groups of the redo steps go up from the next one on. -/
theorem Consistent.top_lt (h₀ : h.Consistent) {e : HistoryEntry} {rest : List HistoryEntry}
    (hredo : h.redo = e :: rest) : ∀ e' ∈ rest, e.group < e'.group := by
  have hpair := h₀.increasing
  rw [groups, hredo, List.map_append, List.pairwise_append] at hpair
  intro e' he'
  exact (List.pairwise_cons.1 hpair.2.1).1 _ (List.mem_map_of_mem he')

/-- A group that one entry has is popped with that entry. -/
theorem popGroup_cons {g : Nat} {e : HistoryEntry} {rest : List HistoryEntry} (he : e.group = g)
    (hrest : ∀ e' ∈ rest, e'.group ≠ g) (target : Option HistoryEntry) (units : Int) :
    popGroup g target units (e :: rest) = (some e, units - e.units, rest) := by
  rw [popGroup, if_pos he]
  cases rest with
  | nil => rfl
  | cons e' rest => rw [popGroup, if_neg (hrest e' List.mem_cons_self)]

/-- The entry gone back to is the top one, where no other has its group. -/
theorem targetOf_cons {e : HistoryEntry} {rest : List HistoryEntry}
    (hrest : ∀ e' ∈ rest, e'.group ≠ e.group) : targetOf (e :: rest) = some e := by
  cases rest with
  | nil => rfl
  | cons e' rest => exact if_neg (hrest e' List.mem_cons_self)

/-- Undo takes one entry off its stack, and the current state goes to the other in its group. -/
theorem undone_eq (h₀ : h.Consistent) {e : HistoryEntry} {rest : List HistoryEntry}
    (hundo : h.undo = e :: rest) (x : HistoryState) : h.undone x = (some e, {
      h.breakCoalescing with
      undo := rest
      redo := ⟨x, e.group⟩ :: h.redo
      storedSourceCodeUnits :=
        h.storedSourceCodeUnits - e.units + (HistoryEntry.mk x e.group).units }) := by
  have hpop : popGroup e.group none h.breakCoalescing.storedSourceCodeUnits h.breakCoalescing.undo =
      (some e, h.storedSourceCodeUnits - e.units, rest) := by
    rw [show h.breakCoalescing.undo = e :: rest from hundo]
    exact popGroup_cons rfl (fun e' he' => (h₀.lt_top hundo e' he').ne) none _
  rw [undone, hundo]
  dsimp only
  rw [hpop]
  rfl

/-- Redo moves the top entry, with its group, to the other stack. -/
theorem redone_eq {e : HistoryEntry} {rest : List HistoryEntry} (hredo : h.redo = e :: rest)
    (x : HistoryState) : h.redone x = (some e, {
      h.breakCoalescing with
      undo := ⟨x, e.group⟩ :: h.undo
      redo := rest
      storedSourceCodeUnits :=
        h.storedSourceCodeUnits - e.units + (HistoryEntry.mk x e.group).units }) := by
  rw [redone, hredo]
  rfl

/-- Undo keeps the count and the groups. -/
theorem Consistent.undone (h₀ : h.Consistent) (x : HistoryState) : (h.undone x).2.Consistent := by
  cases hundo : h.undo with
  | nil =>
    rw [History.undone, hundo]
    exact h₀
  | cons e rest =>
    rw [undone_eq h₀ hundo]
    refine h₀.of_sublist ?_ ?_ rfl
    · have hunits := h₀.units
      rw [hundo] at hunits
      simp only [entryUnits_cons] at hunits ⊢
      omega
    · rw [groups, groups, hundo, List.reverse_cons, List.append_assoc]
      simp only [List.map_append, List.map_cons, List.singleton_append, List.Sublist.refl]

/-- Redo keeps the count and the groups. -/
theorem Consistent.redone (h₀ : h.Consistent) (x : HistoryState) : (h.redone x).2.Consistent := by
  cases hredo : h.redo with
  | nil =>
    rw [History.redone, hredo]
    exact h₀
  | cons e rest =>
    rw [redone_eq hredo]
    refine h₀.of_sublist ?_ ?_ rfl
    · have hunits := h₀.units
      rw [hredo] at hunits
      simp only [entryUnits_cons] at hunits ⊢
      omega
    · rw [groups, groups, hredo]
      simp only [List.reverse_cons, List.append_assoc, List.singleton_append, List.map_append,
        List.map_cons, List.Sublist.refl]

/-- A recording opens a group past all others, or joins the top one. -/
theorem Consistent.recorded (h₀ : h.Consistent) (caps : HistoryCaps) (r : Recording) :
    (h.recorded caps r).Consistent := by
  rw [History.recorded]
  split
  · exact h₀.clearRedo
  · -- The new group is above all others, and the groups that could be redone are gone.
    have hclear := h₀.clearRedo
    have hundo : h.clearRedo.groups = (h.undo.reverse).map HistoryEntry.group := by
      rw [groups, History.clearRedo, List.append_nil]
    refine ⟨?_, ?_, ?_⟩
    · have hunits := hclear.units
      simp only [History.clearRedo, addUndo, clearing_eq, entryUnits_cons, entryUnits_nil] at hunits ⊢
      omega
    · have hpair := hclear.increasing
      rw [hundo] at hpair
      rw [groups]
      simp only [History.clearRedo, addUndo, List.append_nil, List.reverse_cons, List.map_append]
      refine List.pairwise_append.2 ⟨hpair, List.pairwise_singleton _ _, fun g hg g' hg' => ?_⟩
      rw [List.mem_singleton.1 hg']
      exact Nat.lt_succ_of_le (hclear.current g (hundo ▸ hg))
    · intro g hg
      rw [groups] at hg
      simp only [History.clearRedo, addUndo, List.append_nil, List.reverse_cons, List.map_append,
        List.mem_append] at hg ⊢
      rcases hg with hg | hg
      · exact (hclear.current g (hundo ▸ hg)).trans (Nat.le_succ _)
      · rw [List.mem_singleton.1 hg]

/-- The history after a recording, but for the fields that coalescing reads. -/
theorem recordState_fields (r : Recording) :
    ∃ typing last, h.recordState caps r =
      { (h.recorded caps r).trim caps with lastWasTyping := typing, lastTypingAt := last } := by
  rw [recordState]
  dsimp only
  split
  · exact ⟨_, _, rfl⟩
  · exact ⟨_, _, rfl⟩

/-- What every run keeps. -/
structure Valid (caps : HistoryCaps) (h : History) : Prop extends h.Consistent where
  within : h.overCaps caps = false

theorem Valid.empty (caps : HistoryCaps) : Valid caps .empty := by
  have h₀ : Consistent .empty := ⟨rfl, List.Pairwise.nil, fun _ hg => absurd hg List.not_mem_nil⟩
  exact ⟨h₀, h₀.overCaps_empty ⟨rfl, rfl⟩⟩

theorem Valid.trim (h₀ : h.Consistent) : Valid caps (h.trim caps) :=
  ⟨trim_consistent h₀, trim_overCaps h₀⟩

/-- A recording is trimmed to the caps. -/
theorem Valid.recordState (hv : Valid caps h) (r : Recording) : Valid caps (h.recordState caps r) := by
  obtain ⟨typing, last, heq⟩ := @recordState_fields caps h r
  rw [heq]
  have htrim : Valid caps ((h.recorded caps r).trim caps) := Valid.trim (hv.recorded caps r)
  exact ⟨⟨htrim.units, htrim.increasing, htrim.current⟩, htrim.within⟩

/-- Undo is trimmed to the caps. -/
theorem Valid.undoState (hv : Valid caps h) (x : HistoryState) :
    Valid caps (h.undoState caps x).2 := by
  rw [History.undoState]
  split
  · exact hv
  · exact Valid.trim (hv.undone x)

/-- Redo is trimmed to the caps. -/
theorem Valid.redoState (hv : Valid caps h) (x : HistoryState) :
    Valid caps (h.redoState caps x).2 := by
  rw [History.redoState]
  split
  · exact hv
  · exact Valid.trim (hv.redone x)

theorem Valid.clear (hv : Valid caps h) : Valid caps h.clear := by
  have hclear := hv.clearUndo.clearRedo.breakCoalescing
  exact ⟨hclear, hclear.overCaps_empty ⟨rfl, rfl⟩⟩

end

end History

namespace HistoryRun

variable {caps : HistoryCaps} {s : HistoryRun}

/-- The history is valid, and so are the checkpoints. -/
def Valid (caps : HistoryCaps) (s : HistoryRun) : Prop :=
  s.history.Valid caps ∧ ∀ c ∈ s.checkpoints, c.Valid caps

/-- Every operation keeps history valid, with its checkpoints. -/
theorem Valid.step (hs : s.Valid caps) (op : HistoryOp) : (s.step caps op).Valid caps := by
  obtain ⟨hh, hc⟩ := hs
  cases op with
  | record r => exact ⟨hh.recordState r, hc⟩
  | undo x => exact ⟨hh.undoState x, hc⟩
  | redo x => exact ⟨hh.redoState x, hc⟩
  | breakCoalescing => exact ⟨⟨hh.breakCoalescing, hh.within⟩, hc⟩
  | clear => exact ⟨hh.clear, hc⟩
  | checkpoint =>
    refine ⟨hh, fun c hmem => ?_⟩
    rcases List.mem_append.1 hmem with hmem | hmem
    · exact hc c hmem
    · rw [List.mem_singleton.1 hmem]
      exact hh
  | restore i =>
    rw [HistoryRun.step]
    split
    · exact ⟨hh, hc⟩
    · next c hget => exact ⟨hc c (List.mem_of_getElem? hget), hc⟩

/-- History is valid after any operations. -/
theorem valid_of (caps : HistoryCaps) (ops : List HistoryOp) : (of caps ops).Valid caps := by
  have hrun : ∀ (ops : List HistoryOp) (s : HistoryRun), s.Valid caps →
      (ops.foldl (HistoryRun.step caps) s).Valid caps := by
    intro ops
    induction ops with
    | nil => exact fun _ hs => hs
    | cons op ops ih => exact fun s hs => ih _ (hs.step op)
  exact hrun ops _ ⟨History.Valid.empty caps, fun _ hc => absurd hc List.not_mem_nil⟩

end HistoryRun

/-- One change is typed after another, within the coalescing window. -/
def Recording.Follows (caps : HistoryCaps) (r r' : Recording) : Prop :=
  r.typing = true ∧ r'.typing = true ∧ 0 ≤ r'.time - r.time ∧
    r'.time - r.time ≤ caps.coalesceWindow

namespace History

section

variable {caps : HistoryCaps} {h h' : History}

/-! ## Bookkeeping -/

/-- Undo goes back to the top entry. -/
theorem Consistent.undoTarget_eq (h₀ : h.Consistent) : h.undoTarget = h.undo.head? := by
  rw [undoTarget]
  cases hundo : h.undo with
  | nil => rfl
  | cons e rest => exact targetOf_cons fun e' he' => (h₀.lt_top hundo e' he').ne

/-- Redo goes on to the top entry. -/
theorem Consistent.redoTarget_eq (h₀ : h.Consistent) : h.redoTarget = h.redo.head? := by
  rw [redoTarget]
  cases hredo : h.redo with
  | nil => rfl
  | cons e rest => exact targetOf_cons fun e' he' => (h₀.top_lt hredo e' he').ne'

/-- Undo returns the top entry. -/
theorem Consistent.undoState_fst (h₀ : h.Consistent) (x : HistoryState) :
    (h.undoState caps x).1 = h.undo.head? := by
  rw [undoState]
  cases hundo : h.undo with
  | nil => rfl
  | cons e rest =>
    dsimp only
    rw [undone_eq h₀ hundo]
    rfl

/-- Redo returns the top entry. -/
theorem redoState_fst (h : History) (x : HistoryState) :
    (h.redoState caps x).1 = h.redo.head? := by
  rw [redoState]
  cases hredo : h.redo with
  | nil => rfl
  | cons e rest =>
    dsimp only
    rw [redone_eq hredo]
    rfl

/-- The oldest of two or more entries is not the newest. -/
theorem head?_dropLast (es : List HistoryEntry) : es.dropLast.head? = es.head? ∨ ∃ e, es = [e] := by
  match es with
  | [] => exact Or.inl rfl
  | [e] => exact Or.inr ⟨e, rfl⟩
  | e :: e' :: rest => exact Or.inl rfl

/-- A turn of trimming leaves the newest entries, unless one is all there is. -/
theorem trimTurn_newest (hturn : h.trimTurn = some h') :
    (h'.undo.head? = h.undo.head? ∨ ∃ e, h.undo = [e]) ∧
      (h'.redo.head? = h.redo.head? ∨ ∃ e, h.redo = [e]) := by
  rcases trimTurn_cases hturn with ⟨rfl, -⟩ | ⟨rfl, -⟩
  · exact ⟨head?_dropLast h.undo, Or.inl rfl⟩
  · exact ⟨Or.inl rfl, head?_dropLast h.redo⟩

/-- After every run the count is that of the entries, the caps are kept, the groups grow from the
    oldest state to the newest up to the current group, and what can be undone and redone is the
    entry on top, one for each step. Trimming takes the newest entry of a stack only where it is
    the only one. -/
theorem bookkeeping (caps : HistoryCaps) (ops : List HistoryOp) :
    (((HistoryRun.of caps ops).history.storedSourceCodeUnits =
          (entryUnits (HistoryRun.of caps ops).history.undo +
            entryUnits (HistoryRun.of caps ops).history.redo : Nat) ∧
        (HistoryRun.of caps ops).history.undo.length +
          (HistoryRun.of caps ops).history.redo.length ≤ caps.maxEntries ∧
        (HistoryRun.of caps ops).history.storedSourceCodeUnits ≤ caps.maxSourceCodeUnits) ∧
      (HistoryRun.of caps ops).history.groups.Pairwise (· < ·) ∧
      (∀ g ∈ (HistoryRun.of caps ops).history.groups, g ≤ (HistoryRun.of caps ops).history.group) ∧
      ∀ x : HistoryState,
        ((HistoryRun.of caps ops).history.undoState caps x).1 =
          (HistoryRun.of caps ops).history.undoTarget ∧
        ((HistoryRun.of caps ops).history.redoState caps x).1 =
          (HistoryRun.of caps ops).history.redoTarget ∧
        ((HistoryRun.of caps ops).history.undone x).2.undo =
          (HistoryRun.of caps ops).history.undo.tail) ∧
    ∀ h h' : History, h.trimTurn = some h' →
      (h'.undo.head? = h.undo.head? ∨ ∃ e, h.undo = [e]) ∧
        (h'.redo.head? = h.redo.head? ∨ ∃ e, h.redo = [e]) := by
  refine ⟨?_, fun h h' => trimTurn_newest⟩
  have hv := (HistoryRun.valid_of caps ops).1
  revert hv
  generalize (HistoryRun.of caps ops).history = h
  intro hv
  have hwithin := hv.within
  simp only [overCaps, Bool.or_eq_false_iff, decide_eq_false_iff_not, not_lt] at hwithin
  refine ⟨⟨hv.units, hwithin⟩, hv.increasing, hv.current, fun x => ⟨?_, ?_, ?_⟩⟩
  · rw [hv.undoState_fst, hv.undoTarget_eq]
  · rw [redoState_fst, hv.redoTarget_eq]
  · cases hundo : h.undo with
    | nil =>
      rw [undone, hundo]
      exact hundo
    | cons e rest =>
      rw [undone_eq hv.toConsistent hundo]
      rfl

/-- Three states that can be undone: the newest of them is kept. -/
theorem bookkeeping_trimmed :
    let e : Nat → HistoryEntry := fun g => ⟨⟨[], .collapsed 0, none⟩, g⟩
    let h : History := ⟨[e 3, e 2, e 1], [], 0, 3, none, false⟩
    (h.trimTurn.map fun h' => h'.undo.head?) = some (some (e 3)) := by
  intro e h
  obtain ⟨hundo, -⟩ := (bookkeeping ⟨1000, 2, 100, by decide⟩ []).2 h _ (by rfl)
  rcases hundo with hundo | ⟨e', hundo⟩
  · rw [trimTurn, if_pos (by decide), Option.map_some]
    exact congrArg some hundo
  · exact absurd hundo (by simp [h])

/-! ## Undo, then redo -/

/-- Where the undone state stays within the caps, redo comes back to the current state, and to the
    stacks as they were. -/
theorem Valid.redo_undo (hv : Valid caps h) {x : HistoryState} {e : HistoryEntry}
    (he : (h.undoState caps x).1 = some e) (hcaps : (h.undone x).2.overCaps caps = false) :
    (((h.undoState caps x).2.redoState caps e.state).1.map HistoryEntry.state = some x) ∧
      ((h.undoState caps x).2.redoState caps e.state).2 = h.breakCoalescing := by
  rw [hv.undoState_fst] at he
  obtain ⟨rest, hundo⟩ := List.head?_eq_some_iff.1 he
  have hundoState : (h.undoState caps x).2 = (h.undone x).2 := by
    rw [History.undoState, hundo]
    exact trim_of_within hcaps
  rw [hundoState]
  rw [undone_eq hv.toConsistent hundo]
  dsimp only
  refine ⟨by rw [redoState_fst]; rfl, ?_⟩
  have hback : h.storedSourceCodeUnits - e.units + (HistoryEntry.mk x e.group).units -
      (HistoryEntry.mk x e.group).units + (HistoryEntry.mk e.state e.group).units =
        h.storedSourceCodeUnits := by
    rw [show (HistoryEntry.mk e.state e.group).units = e.units from rfl]
    omega
  rw [History.redoState]
  dsimp only
  rw [redone_eq rfl]
  dsimp only
  rw [hback]
  have hsame : (⟨e :: rest, h.redo, h.storedSourceCodeUnits, h.group, none, false⟩ : History) =
      h.breakCoalescing := by
    rw [← hundo]
    rfl
  have hover : h.breakCoalescing.overCaps caps = false := hv.within
  rw [← hsame] at hover ⊢
  exact trim_of_within hover

/-! ## A run of typing -/

/-- What a run of changes keeps, from its first one on: its entry is on top, and the last change
    is the one that the next is compared with. -/
structure Open (caps : HistoryCaps) (e : HistoryEntry) (r : Recording) (h : History) : Prop where
  top : h.undo.head? = some e
  group : e.group = h.group
  redo : h.redo = []
  within : h.overCaps caps = false
  typing : h.lastWasTyping = r.typing
  last : h.lastTypingAt = some r.time

/-- A recording that trimming leaves on top opens a run. -/
theorem recordState_open {e : HistoryEntry} {r : Recording}
    (htop : (h.recorded caps r).undo.head? = some e) (hgroup : e.group = (h.recorded caps r).group)
    (hcaps : (h.recorded caps r).overCaps caps = false) : Open caps e r (h.recordState caps r) := by
  have hany : (h.recorded caps r).undo.head?.any (fun e => e.group == (h.recorded caps r).group) =
      true := by
    rw [htop]
    exact beq_iff_eq.2 hgroup
  have heq : h.recordState caps r =
      { h.recorded caps r with lastWasTyping := r.typing, lastTypingAt := some r.time } := by
    rw [recordState, trim_of_within hcaps]
    exact if_pos hany
  rw [heq]
  exact ⟨htop, hgroup, rfl, hcaps, rfl, rfl⟩

/-- The first change of a run, which joins no group before it. -/
theorem open_first {r : Recording} (hopens : h.joins caps r = false)
    (hcaps : (h.recorded caps r).overCaps caps = false) :
    Open caps ⟨r.state, h.group + 1⟩ r (h.recordState caps r) := by
  refine recordState_open ?_ ?_ hcaps
  · rw [recorded, hopens]
    rfl
  · rw [recorded, hopens]
    rfl

/-- A recording that follows joins the open group. -/
theorem Open.next {e : HistoryEntry} {r r' : Recording} (ho : Open caps e r h)
    (hfollows : r.Follows caps r') : Open caps e r' (h.recordState caps r') := by
  obtain ⟨htyping, htyping', hlow, hhigh⟩ := hfollows
  have hjoins : h.joins caps r' = true := by
    rw [joins, htyping', ho.typing, htyping, ho.top, ho.last]
    simp only [Option.any_some, ho.group, decide_eq_true hlow, decide_eq_true hhigh,
      beq_self_eq_true, Bool.and_self]
  have hrecorded : h.recorded caps r' = h := by
    rw [recorded, hjoins, if_pos rfl, clearRedo, ho.redo]
    exact congrArg (fun redo => (⟨h.undo, redo, h.storedSourceCodeUnits, h.group, h.lastTypingAt,
      h.lastWasTyping⟩ : History)) ho.redo.symm
  refine recordState_open ?_ ?_ ?_
  · rw [hrecorded]
    exact ho.top
  · rw [hrecorded]
    exact ho.group
  · rw [hrecorded]
    exact ho.within

/-- Recordings that follow one another stay in the group of the first. -/
theorem Open.run {e : HistoryEntry} {r : Recording} {rs : List Recording} (ho : Open caps e r h)
    (hchain : (r :: rs).IsChain (Recording.Follows caps)) :
    ∃ last, Open caps e last (rs.foldl (recordState caps) h) := by
  induction rs generalizing h r with
  | nil => exact ⟨r, ho⟩
  | cons r' rs ih =>
    rw [List.isChain_cons_cons] at hchain
    exact ih (ho.next hchain.1) hchain.2

theorem Valid.run (hv : Valid caps h) (rs : List Recording) :
    Valid caps (rs.foldl (History.recordState caps) h) := by
  induction rs generalizing h with
  | nil => exact hv
  | cons r rs ih => exact ih (hv.recordState r)

/-- After any run of a history, as far as its caps do not bind: undo and redo give back the current
    state and both stacks; and a run of typing that joins no group before it is one step, undone to
    the state its first change was made in and redone to the state undone from. -/
theorem undo_redo_identity (caps : HistoryCaps) (ops : List HistoryOp) :
    (∀ (x : HistoryState) (e : HistoryEntry),
      ((HistoryRun.of caps ops).history.undoState caps x).1 = some e →
      ((HistoryRun.of caps ops).history.undone x).2.overCaps caps = false →
        (((HistoryRun.of caps ops).history.undoState caps x).2.redoState caps e.state).1.map
            HistoryEntry.state = some x ∧
          (((HistoryRun.of caps ops).history.undoState caps x).2.redoState caps e.state).2.undo =
            (HistoryRun.of caps ops).history.undo ∧
          (((HistoryRun.of caps ops).history.undoState caps x).2.redoState caps e.state).2.redo =
            (HistoryRun.of caps ops).history.redo) ∧
    ∀ (first : Recording) (rest : List Recording), (first :: rest).IsChain (Recording.Follows caps) →
      (HistoryRun.of caps ops).history.joins caps first = false →
      ((HistoryRun.of caps ops).history.recorded caps first).overCaps caps = false →
        ∀ h, h = (first :: rest).foldl (recordState caps) (HistoryRun.of caps ops).history →
          ∀ x : HistoryState, (h.undoState caps x).1.map HistoryEntry.state = some first.state ∧
            ((h.undone x).2.overCaps caps = false →
              ((h.undoState caps x).2.redoState caps first.state).1.map HistoryEntry.state =
                some x) := by
  have hv := (HistoryRun.valid_of caps ops).1
  revert hv
  generalize (HistoryRun.of caps ops).history = h
  intro hv
  constructor
  · intro x e he hcaps
    obtain ⟨hx, hback⟩ := hv.redo_undo he hcaps
    rw [hback]
    exact ⟨hx, rfl, rfl⟩
  · rintro first rest hchain hopens hcaps h' rfl x
    obtain ⟨last, ho⟩ := (open_first hopens hcaps).run hchain
    have hv' := hv.run (first :: rest)
    have hundo : (((first :: rest).foldl (recordState caps) h).undoState caps x).1 =
        some ⟨first.state, h.group + 1⟩ := by
      rw [hv'.undoState_fst]
      exact ho.top
    refine ⟨by rw [hundo]; rfl, fun hcaps' => (hv'.redo_undo hundo hcaps').1⟩

end

/-- A state with its caret at the end. -/
def stateOf (source : String) : HistoryState :=
  ⟨Text.ofString source, .collapsed (Text.ofString source).length, none⟩

/-- The caps of the constructor, with times in milliseconds. -/
def defaultCaps : HistoryCaps := ⟨1000, 100, 4 * 1024 * 1024, by decide⟩

/-- Two changes typed one after the other, to "a" and to "ab". -/
def typed : List Recording := [⟨stateOf "", true, 0⟩, ⟨stateOf "a", true, 200⟩]

/-- Two letters are typed, taken back by one Undo and brought again by Redo. -/
theorem undo_redo_identity_typed :
    ((typed.foldl (recordState defaultCaps) .empty).undoState defaultCaps (stateOf "ab")).1.map
        HistoryEntry.state = some (stateOf "") ∧
      (((typed.foldl (recordState defaultCaps) .empty).undoState defaultCaps
        (stateOf "ab")).2.redoState defaultCaps (stateOf "")).1.map HistoryEntry.state =
          some (stateOf "ab") := by
  have hchain : typed.IsChain (Recording.Follows defaultCaps) := by
    rw [typed, List.isChain_cons_cons]
    exact ⟨⟨rfl, rfl, by decide, by decide⟩, List.IsChain.singleton _⟩
  have h := (undo_redo_identity defaultCaps []).2 _ _ hchain rfl (by decide) _ rfl
    (stateOf "ab")
  exact ⟨h.1, h.2 (by decide)⟩

/-- The second change on its own is a run of typing that joins the first: undone, it gives the state
    before the first one. -/
theorem undo_joined :
    [(⟨stateOf "a", true, 200⟩ : Recording)].IsChain (Recording.Follows defaultCaps) ∧
      (HistoryRun.of defaultCaps [.record ⟨stateOf "", true, 0⟩]).history.overCaps defaultCaps =
        false ∧
      (((HistoryRun.of defaultCaps [.record ⟨stateOf "", true, 0⟩]).history.recordState defaultCaps
        ⟨stateOf "a", true, 200⟩).undoState defaultCaps (stateOf "ab")).1.map HistoryEntry.state ≠
          some (stateOf "a") := by
  refine ⟨List.IsChain.singleton _, by decide, by decide⟩

end History

end Flark
