import Flark.Kernel.Admission
import Flark.Kernel.Edits
import Flark.Lib.Window

/-!
# The recorder

`FlarkEditRecorder` is told of each call to one editor (`kernel/recorder.dart`). It keeps the
state its window starts with and, for each call since, the change the call made to the source and
the state it left. Past the capacity the oldest call is folded into the window's start.

The recorder looks at neither the calls nor what they do, so calls are of any type. What a call
does is `Work`: it changes the editor as it likes, and listeners that hear of it make calls of their
own, which `_observe` takes for part of it.

* `changeOf_spec`: the change kept of a call makes the source after of the source before;
* `FlarkEditRecorder.window_add`: being told of a call is a `Window.push`;
* `RecordedSession.window_folds`: what the recorder holds after the calls of a host.
-/

namespace Flark

/-- What a recorder reads of its editor. -/
structure RecordedEditor where
  source : Text
  selection : Selection
  sourceModeForced : Bool
  composing : Bool
  canUndo : Bool
  hasPendingStyle : Bool
  lastRejection : Option FlarkRejection

/-- `_RecordedCall`. A change is where it starts, how much it removes and what it inserts. -/
structure RecordedCall (Call : Type) where
  call : Call
  result : String
  replayed : Bool
  change : Option (Nat × Nat × Text)
  selection : Selection
  sourceMode : Bool
  composing : Bool

/-- `_applyTo`. -/
def RecordedCall.applyTo {Call : Type} (c : RecordedCall Call) (source : Text) : Text :=
  match c.change with
  | none => source
  | some (start, removed, inserted) => source.replaceRange start (start + removed) inserted

/-- The change that `_add` keeps of a call: where the sources differ, between what they have in
    common at their ends. -/
def changeOf (before after : Text) : Option (Nat × Nat × Text) :=
  if before = after then none
  else
    let shorter := Edits.shorter before after
    let start := Scan.upTo (Edits.sameAt before after) shorter 0
    let stop := Scan.upTo (Edits.sameEnd before after) (shorter - start) 0
    some (start, before.length - stop - start, after.substring start (after.length - stop : Nat))

/-- The text of what a call came to. -/
def resultOf (stale : Bool) (returned : Option Bool) (error : Option String) : String :=
  if stale then "false, stale revision"
  else match error, returned with
    | some error, _ => "threw " ++ error
    | none, none => "done"
    | none, some returned => toString returned

/-- What the constructor throws. -/
inductive RecorderError
  | argument (value : Int) (name : String)
  | state (message : String)
  deriving DecidableEq, Repr

/-- `FlarkEditRecorder`. -/
structure FlarkEditRecorder (Call : Type) where
  capacity : Nat
  source : Text
  selection : Selection
  sourceMode : Bool
  composing : Bool
  last : Text
  calls : List (RecordedCall Call)
  folded : Nat
  isPartial : Bool
  capacity_pos : 0 < capacity

namespace FlarkEditRecorder

variable {Call : Type}

/-- `_restart`: a recorder whose window starts at the editor's present state. -/
def restarted (capacity : Nat) (hcapacity : 0 < capacity) (editor : RecordedEditor) :
    FlarkEditRecorder Call where
  capacity := capacity
  source := editor.source
  selection := editor.selection
  sourceMode := editor.sourceModeForced
  composing := editor.composing
  last := editor.source
  calls := []
  folded := 0
  isPartial := editor.canUndo || editor.hasPendingStyle || editor.selection.tableCell.isSome
  capacity_pos := hcapacity

/-- The constructor, for an editor that has an observer or has none. -/
def make (editor : RecordedEditor) (observed : Bool) (capacity : Int) :
    Except RecorderError (FlarkEditRecorder Call) :=
  if h : capacity < 1 then .error (.argument capacity "capacity")
  else if observed then .error (.state "the editor already has a call observer")
  else .ok (restarted capacity.toNat (by omega) editor)

/-- `clear`. -/
def clear (r : FlarkEditRecorder Call) (editor : RecordedEditor) : FlarkEditRecorder Call :=
  restarted r.capacity r.capacity_pos editor

/-- The call as `_add` keeps it. -/
def recorded (r : FlarkEditRecorder Call) (editor : RecordedEditor) (call : Call)
    (returned : Option Bool) (error : Option String) : RecordedCall Call :=
  let stale := returned == some false && editor.lastRejection == some .staleRevision
  { call := call
    result := resultOf stale returned error
    replayed := !stale
    change := changeOf r.last editor.source
    selection := editor.selection
    sourceMode := editor.sourceModeForced
    composing := editor.composing }

/-- `_add`. -/
def add (r : FlarkEditRecorder Call) (editor : RecordedEditor) (call : Call)
    (returned : Option Bool) (error : Option String) : FlarkEditRecorder Call :=
  let r := { r with
    last := editor.source
    calls := r.calls ++ [r.recorded editor call returned error] }
  if r.capacity < r.calls.length then
    match r.calls with
    | [] => r
    | oldest :: rest =>
      { r with
        calls := rest
        source := oldest.applyTo r.source
        selection := oldest.selection
        sourceMode := oldest.sourceMode
        composing := oldest.composing
        isPartial := true
        folded := r.folded + 1 }
  else r

/-- The loop of `repro` that finds the source and the selection it expects. -/
def expected (r : FlarkEditRecorder Call) : Text × Selection :=
  r.calls.foldl (fun held call => (call.applyTo held.1, call.selection)) (r.source, r.selection)

end FlarkEditRecorder

/-! ## A session -/

/-- What a call returned, or what it threw. -/
inductive CallOutcome
  | done
  | returned (value : Bool)
  | threw (error : String)

/-- What a call does, step by step: it changes the editor, a listener calls the editor, or clears
    the recorder. -/
inductive Work (Call : Type)
  | done
  | becomes (editor : RecordedEditor) (rest : Work Call)
  | calls (call : Call) (body : Work Call) (outcome : CallOutcome) (rest : Work Call)
  | clears (rest : Work Call)

/-- An editor and its recorder. `told` counts the calls the recorder was told of since its window
    last started. -/
structure RecordedSession (Call : Type) where
  editor : RecordedEditor
  observing : Bool
  recorder : FlarkEditRecorder Call
  told : Nat

/-- What a host does between calls. -/
inductive HostStep (Call : Type)
  | calls (call : Call) (body : Work Call) (outcome : CallOutcome)
  | clears

namespace RecordedSession

variable {Call : Type}

def clear (s : RecordedSession Call) : RecordedSession Call :=
  { s with recorder := s.recorder.clear s.editor, told := 0 }

/-- The observer, once a call has returned or thrown. -/
def tell (s : RecordedSession Call) (call : Call) (outcome : CallOutcome) : RecordedSession Call :=
  let (returned, error) := match outcome with
    | .done => (none, none)
    | .returned value => (some value, none)
    | .threw error => (none, some error)
  { s with recorder := s.recorder.add s.editor call returned error, told := s.told + 1 }

/-- `_observe`. -/
def observe (s : RecordedSession Call) (call : Call)
    (body : RecordedSession Call → RecordedSession Call) (outcome : CallOutcome) :
    RecordedSession Call :=
  if s.observing then body s
  else { body { s with observing := true } with observing := false }.tell call outcome

def work : Work Call → RecordedSession Call → RecordedSession Call
  | .done, s => s
  | .becomes editor rest, s => work rest { s with editor := editor }
  | .calls call body outcome rest, s => work rest (s.observe call (work body) outcome)
  | .clears rest, s => work rest s.clear

def step (s : RecordedSession Call) : HostStep Call → RecordedSession Call
  | .calls call body outcome => s.observe call (work body) outcome
  | .clears => s.clear

def run (s : RecordedSession Call) (steps : List (HostStep Call)) : RecordedSession Call :=
  steps.foldl step s

end RecordedSession

/-! ## What the recorder keeps -/

theorem changeOf_spec {Call : Type} {c : RecordedCall Call} {before after : Text}
    (h : c.change = changeOf before after) : c.applyTo before = after := by
  rw [RecordedCall.applyTo, h, changeOf]
  split
  · next heq =>
    split at heq
    · next hsame => exact hsame
    · cases heq
  · next start removed inserted heq =>
    split at heq
    · cases heq
    · cases heq
      have hhead := Scan.upTo_le (Edits.sameAt before after) (Edits.shorter before after) 0
      have htail := Scan.upTo_le (Edits.sameEnd before after) (Edits.shorter before after -
        Scan.upTo (Edits.sameAt before after) (Edits.shorter before after) 0) 0
      have hle := (@Edits.shorter_le before after).1
      rw [Nat.add_sub_cancel' (by omega)]
      exact Edits.replaceRange_eq (by omega) (fun i hi => Scan.holds (Nat.zero_le i) hi)
        fun i hi => Scan.holds (Nat.zero_le i) hi

/-- What a window of calls starts with, and what each call leaves. -/
structure HeldState where
  source : Text
  selection : Selection
  sourceMode : Bool
  composing : Bool

def RecordedEditor.held (editor : RecordedEditor) : HeldState :=
  ⟨editor.source, editor.selection, editor.sourceModeForced, editor.composing⟩

/-- The state after a call, from the state before it. -/
def RecordedCall.after {Call : Type} (state : HeldState) (c : RecordedCall Call) : HeldState :=
  ⟨c.applyTo state.source, c.selection, c.sourceMode, c.composing⟩

namespace FlarkEditRecorder

variable {Call : Type} (r : FlarkEditRecorder Call)

def window : Window HeldState (RecordedCall Call) :=
  ⟨⟨r.source, r.selection, r.sourceMode, r.composing⟩, r.calls, r.folded⟩

/-- The state the window ends with. -/
def now : HeldState := r.window.now RecordedCall.after

theorem window_add (editor : RecordedEditor) (call : Call) (returned : Option Bool)
    (error : Option String) : (r.add editor call returned error).window =
      r.window.push RecordedCall.after r.capacity (r.recorded editor call returned error) := by
  rw [add, Window.push]
  cases hcalls : r.calls ++ [r.recorded editor call returned error] with
  | nil => exact absurd hcalls (List.append_ne_nil_of_right_ne_nil _ (List.cons_ne_nil _ []))
  | cons oldest rest =>
    have hkept : r.window.kept ++ [r.recorded editor call returned error] = oldest :: rest := hcalls
    rw [hkept]
    dsimp only
    split <;> rfl

theorem add_last (editor : RecordedEditor) (call : Call) (returned : Option Bool)
    (error : Option String) : (r.add editor call returned error).last = editor.source ∧
      (r.add editor call returned error).capacity = r.capacity := by
  rw [add]
  split
  · split <;> exact ⟨rfl, rfl⟩
  · exact ⟨rfl, rfl⟩

theorem expected_eq : r.expected = (r.now.source, r.now.selection) := by
  have hfold : ∀ (calls : List (RecordedCall Call)) (state : HeldState),
      calls.foldl (fun (held : Text × Selection) call => (call.applyTo held.1, call.selection))
        (state.source, state.selection) =
        ((calls.foldl RecordedCall.after state).source,
          (calls.foldl RecordedCall.after state).selection) := by
    intro calls
    induction calls with
    | nil => exact fun state => rfl
    | cons call calls ih => exact fun state => ih (call.after state)
  exact hfold r.calls ⟨r.source, r.selection, r.sourceMode, r.composing⟩

theorem now_source : r.now.source =
    r.calls.foldl (fun source call => call.applyTo source) r.source := by
  have hfold : ∀ (calls : List (RecordedCall Call)) (state : HeldState),
      (calls.foldl RecordedCall.after state).source =
        calls.foldl (fun source call => call.applyTo source) state.source := by
    intro calls
    induction calls with
    | nil => exact fun state => rfl
    | cons call calls ih => exact fun state => ih (call.after state)
  exact hfold r.calls _

/-- The state the window ends with is the one the last call kept left. -/
theorem now_selection {last : RecordedCall Call} (h : r.calls.getLast? = some last) :
    r.now.selection = last.selection := by
  obtain ⟨calls, hcalls⟩ := List.getLast?_eq_some_iff.1 h
  rw [now, Window.now, window, hcalls, List.foldl_append]
  rfl

/-- The recorder, told of a call, ends with the state of the editor. -/
theorem now_add (h : r.now.source = r.last) (editor : RecordedEditor) (call : Call)
    (returned : Option Bool) (error : Option String) :
    (r.add editor call returned error).now = editor.held := by
  have hchange : (r.recorded editor call returned error).applyTo r.last = editor.source :=
    changeOf_spec rfl
  rw [now, window_add, Window.now_push]
  change RecordedCall.after r.now _ = _
  rw [RecordedCall.after, h, hchange]
  rfl

end FlarkEditRecorder

/-! ## Over a session -/

namespace RecordedSession

variable {Call : Type} {s : RecordedSession Call}

/-- What holds of the recorder also while the editor is in a call. -/
structure Kept (s : RecordedSession Call) : Prop where
  last : s.recorder.now.source = s.recorder.last
  length : s.recorder.calls.length ≤ s.recorder.capacity
  count : s.recorder.folded + s.recorder.calls.length = s.told

theorem Kept.clear (s : RecordedSession Call) : s.clear.Kept :=
  ⟨rfl, Nat.zero_le _, rfl⟩

theorem Kept.tell (h : s.Kept) (call : Call) (outcome : CallOutcome) :
    (s.tell call outcome).Kept ∧ (s.tell call outcome).recorder.now = s.editor.held ∧
      (s.tell call outcome).recorder.capacity = s.recorder.capacity := by
  obtain ⟨returned, error, htell⟩ : ∃ returned error, s.tell call outcome =
      { s with recorder := s.recorder.add s.editor call returned error, told := s.told + 1 } := by
    cases outcome <;> exact ⟨_, _, rfl⟩
  obtain ⟨hlast, hcapacity⟩ := s.recorder.add_last s.editor call returned error
  have hwindow := s.recorder.window_add s.editor call returned error
  have hnow := s.recorder.now_add h.last s.editor call returned error
  rw [htell]
  refine ⟨⟨?_, ?_, ?_⟩, hnow, hcapacity⟩
  · dsimp only
    rw [hnow, hlast]
    rfl
  · dsimp only
    rw [hcapacity]
    have hlength := Window.length_push_le RecordedCall.after s.recorder.capacity s.recorder.window
      (s.recorder.recorded s.editor call returned error) h.length
    rw [← hwindow] at hlength
    exact hlength
  · have hcount := Window.count_push RecordedCall.after s.recorder.capacity s.recorder.window
      (s.recorder.recorded s.editor call returned error)
    rw [← hwindow] at hcount
    exact hcount.trans (congrArg (· + 1) h.count)

/-- While the editor is in a call, the recorder is told of none. -/
theorem Kept.work (w : Work Call) : ∀ {s : RecordedSession Call}, s.Kept → s.observing = true →
    (work w s).Kept ∧ (RecordedSession.work w s).observing = true ∧
      (RecordedSession.work w s).recorder.capacity = s.recorder.capacity := by
  induction w with
  | done => exact fun h hobserving => ⟨h, hobserving, rfl⟩
  | becomes editor rest ih =>
    intro s h hobserving
    exact @ih { s with editor := editor } ⟨h.last, h.length, h.count⟩ hobserving
  | calls call body outcome rest ihBody ihRest =>
    intro s h hobserving
    rw [RecordedSession.work, observe, if_pos hobserving]
    obtain ⟨hbody, hobserving, hcapacity⟩ := ihBody h hobserving
    obtain ⟨hrest, hobserving, hcapacity'⟩ := ihRest hbody hobserving
    exact ⟨hrest, hobserving, hcapacity'.trans hcapacity⟩
  | clears rest ih =>
    intro s _ hobserving
    exact ih (Kept.clear s) hobserving

/-- Between calls the window ends with the state of the editor. -/
structure Settled (s : RecordedSession Call) : Prop extends s.Kept where
  idle : s.observing = false
  now : s.recorder.now = s.editor.held

theorem Settled.step (h : s.Settled) (host : HostStep Call) :
    (s.step host).Settled ∧ (s.step host).recorder.capacity = s.recorder.capacity := by
  cases host with
  | clears => exact ⟨⟨Kept.clear s, h.idle, rfl⟩, rfl⟩
  | calls call body outcome =>
    obtain ⟨hbody, -, hcapacity⟩ :=
      Kept.work body (s := { s with observing := true }) ⟨h.last, h.length, h.count⟩ rfl
    rw [RecordedSession.step, observe, if_neg (Bool.eq_false_iff.1 h.idle)]
    have hreturned : Kept { work body { s with observing := true } with observing := false } :=
      ⟨hbody.last, hbody.length, hbody.count⟩
    obtain ⟨hkept, hnow, hcapacity'⟩ := hreturned.tell call outcome
    refine ⟨⟨hkept, ?_, ?_⟩, hcapacity'.trans hcapacity⟩
    · cases outcome <;> rfl
    · rw [hnow]
      cases outcome <;> rfl

theorem Settled.run (h : s.Settled) (steps : List (HostStep Call)) :
    (s.run steps).Settled ∧ (s.run steps).recorder.capacity = s.recorder.capacity := by
  induction steps generalizing s with
  | nil => exact ⟨h, rfl⟩
  | cons host steps ih =>
    obtain ⟨hstep, hcapacity⟩ := h.step host
    obtain ⟨hrun, hcapacity'⟩ := ih hstep
    exact ⟨hrun, hcapacity'.trans hcapacity⟩

/-- An editor with the recorder just made for it. -/
def started (editor : RecordedEditor) (recorder : FlarkEditRecorder Call) :
    RecordedSession Call := ⟨editor, false, recorder, 0⟩

theorem settled_started {editor : RecordedEditor} {observed : Bool} {capacity : Int}
    {recorder : FlarkEditRecorder Call}
    (h : FlarkEditRecorder.make editor observed capacity = .ok recorder) :
    (started editor recorder).Settled ∧ recorder.capacity = capacity := by
  rw [FlarkEditRecorder.make] at h
  split at h
  · cases h
  · next hcapacity =>
    split at h
    · cases h
    · obtain rfl := Except.ok.inj h
      refine ⟨⟨⟨rfl, Nat.zero_le _, rfl⟩, rfl, rfl⟩, ?_⟩
      exact Int.toNat_of_nonneg (by omega)

/-- After any calls, the source the window starts with and the changes of the calls kept make the
    source of the editor, which `repro` expects with the editor's selection; the last call kept has
    that selection; no more calls are kept than the capacity, and the rest is counted. -/
theorem window_folds {editor : RecordedEditor} {observed : Bool} {capacity : Int}
    {recorder : FlarkEditRecorder Call}
    (h : FlarkEditRecorder.make editor observed capacity = .ok recorder)
    (steps : List (HostStep Call)) :
    let s := (started editor recorder).run steps
    s.recorder.calls.foldl (fun source call => call.applyTo source) s.recorder.source =
        s.editor.source ∧
      s.recorder.expected = (s.editor.source, s.editor.selection) ∧
      (∀ last, s.recorder.calls.getLast? = some last → last.selection = s.editor.selection) ∧
      s.recorder.calls.length ≤ capacity ∧
      s.recorder.folded + s.recorder.calls.length = s.told := by
  obtain ⟨hstarted, hcapacity⟩ := settled_started h
  obtain ⟨hrun, hsame⟩ := hstarted.run steps
  intro s
  have hnow : s.recorder.now = s.editor.held := hrun.now
  refine ⟨?_, ?_, fun last hlast => ?_, ?_, hrun.count⟩
  · rw [← FlarkEditRecorder.now_source, hnow]
    rfl
  · rw [FlarkEditRecorder.expected_eq, hnow]
    rfl
  · rw [← FlarkEditRecorder.now_selection _ hlast, hnow]
    rfl
  · rw [← hcapacity, Int.ofNat_le]
    exact hrun.length.trans_eq hsame

/-- An editor of a text, with the caret at its end. -/
def editorOf (text : Text) : RecordedEditor where
  source := text
  selection := .collapsed text.length
  sourceModeForced := false
  composing := false
  canUndo := false
  hasPendingStyle := false
  lastRejection := none

/-- Two insertions, where a listener of the first makes one more. -/
def insertions : List (HostStep String) :=
  [.calls "first" (.becomes (editorOf (Text.ofString "aa"))
      (.calls "inside" (.becomes (editorOf (Text.ofString "aaa")) .done) (.returned true) .done))
    (.returned true),
    .calls "second" (.becomes (editorOf (Text.ofString "aaaa")) .done) (.returned true)]

theorem window_folds_insertions : ∃ recorder : FlarkEditRecorder String,
    FlarkEditRecorder.make (editorOf []) false 1 = .ok recorder ∧
      let s := (started (editorOf []) recorder).run insertions
      s.recorder.calls.foldl (fun source call => call.applyTo source) s.recorder.source =
          s.editor.source ∧
        s.recorder.expected = (s.editor.source, s.editor.selection) ∧
        (∀ last, s.recorder.calls.getLast? = some last → last.selection = s.editor.selection) ∧
        s.recorder.calls.length ≤ (1 : Int) ∧
        s.recorder.folded + s.recorder.calls.length = s.told :=
  have hmake : FlarkEditRecorder.make (editorOf []) false 1 =
      .ok (FlarkEditRecorder.restarted 1 Nat.one_pos (editorOf [])) := rfl
  ⟨_, hmake, window_folds hmake insertions⟩

end RecordedSession

end Flark
