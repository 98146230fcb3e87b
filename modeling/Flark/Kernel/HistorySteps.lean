import Flark.Kernel.Sessions

/-!
# Steps of history

What the steps of an editor's history go back to. A composition is one of them, or none: cancelled,
it is as if it never was, and committed, Undo takes it back whole. And any number of steps back are
taken forward again.

* `EditorState.cancel_restores`: what a cancelled composition leaves;
* `EditorState.commit_undone`: what a committed one does;
* `EditorState.redo_all`: Undo, and Redo as often.
-/

namespace Flark

namespace History

variable {caps : HistoryCaps} {h : History} {e : HistoryEntry}

/-- An entry that fits is kept while it is on top of the only stack. -/
theorem trimFrom_top (h₀ : h.Consistent) (hredo : h.redo = []) (htop : h.undo.head? = some e)
    (hfits : e.units ≤ caps.maxSourceCodeUnits) (fuel : Nat) :
    (trimFrom caps fuel h).undo.head? = some e := by
  induction fuel generalizing h with
  | zero => exact htop
  | succ fuel ih =>
    rw [trimFrom]
    split
    · next hover =>
      obtain ⟨rest, hundo⟩ := List.head?_eq_some_iff.1 htop
      cases rest with
      | nil =>
        -- Alone it is within the caps.
        have hunits := h₀.units
        have hpositive := caps.positive
        rw [hundo, hredo] at hunits
        simp [overCaps, hundo, hredo, hunits] at hover
        omega
      | cons e' rest =>
        have hturn : h.trimTurn = some h.removeOldestUndo := by
          rw [trimTurn, hundo]
          exact if_pos (Nat.one_lt_succ_succ _)
        rw [hturn]
        refine ih h₀.removeOldestUndo hredo ?_
        rw [removeOldestUndo, hundo]
        rfl
    · exact htop

/-- A change that is not typed has an entry of its own, on top of those before. -/
theorem recordState_top (h₀ : h.Consistent) {x : HistoryState}
    (hfits : x.source.length ≤ caps.maxSourceCodeUnits) (time : Int) :
    ∃ rest, (h.recordState caps ⟨x, false, time⟩).undo = ⟨x, h.group + 1⟩ :: rest ∧
      rest <+: h.undo ∧ (h.recordState caps ⟨x, false, time⟩).redo = [] := by
  obtain ⟨typing, last, heq⟩ := @recordState_fields caps h ⟨x, false, time⟩
  have hrecorded : (h.recorded caps ⟨x, false, time⟩).undo = ⟨x, h.group + 1⟩ :: h.undo := rfl
  have hconsistent := h₀.recorded caps ⟨x, false, time⟩
  obtain ⟨-, -, hundo, hredo, -⟩ := @trimFrom_spec caps _ hconsistent _ le_rfl
  have htop := @trimFrom_top caps _ ⟨x, h.group + 1⟩ hconsistent rfl rfl hfits
    ((h.recorded caps ⟨x, false, time⟩).undo.length + (h.recorded caps ⟨x, false, time⟩).redo.length)
  obtain ⟨rest, hrest⟩ := List.head?_eq_some_iff.1 htop
  rw [heq]
  refine ⟨rest, hrest, ?_, List.prefix_nil.1 hredo⟩
  rw [hrest, hrecorded, List.cons_prefix_cons] at hundo
  exact hundo.2

/-- A step back that fits takes one entry to the other stack. -/
theorem Valid.undoState_eq (hv : Valid caps h) {rest : List HistoryEntry} (hundo : h.undo = e :: rest)
    {x : HistoryState}
    (hfits : h.storedSourceCodeUnits - e.units + x.source.length ≤ caps.maxSourceCodeUnits) :
    (h.undoState caps x).2 = { h.breakCoalescing with
      undo := rest
      redo := ⟨x, e.group⟩ :: h.redo
      storedSourceCodeUnits := h.storedSourceCodeUnits - e.units + x.source.length } := by
  have hwithin := hv.within
  have hover : (h.undone x).2.overCaps caps = false := by
    rw [undone_eq hv.toConsistent hundo]
    simp only [overCaps, Bool.or_eq_false_iff, decide_eq_false_iff_not, not_lt, hundo,
      List.length_cons] at hwithin ⊢
    exact ⟨by omega, hfits⟩
  rw [History.undoState, hundo]
  dsimp only
  rw [trim_of_within hover, undone_eq hv.toConsistent hundo]
  rfl

/-- And so does a step forward. -/
theorem Valid.redoState_eq (hv : Valid caps h) {rest : List HistoryEntry} (hredo : h.redo = e :: rest)
    {x : HistoryState}
    (hfits : h.storedSourceCodeUnits - e.units + x.source.length ≤ caps.maxSourceCodeUnits) :
    (h.redoState caps x).2 = { h.breakCoalescing with
      undo := ⟨x, e.group⟩ :: h.undo
      redo := rest
      storedSourceCodeUnits := h.storedSourceCodeUnits - e.units + x.source.length } := by
  have hwithin := hv.within
  have hover : (h.redone x).2.overCaps caps = false := by
    rw [redone_eq hredo]
    simp only [overCaps, Bool.or_eq_false_iff, decide_eq_false_iff_not, not_lt, hredo,
      List.length_cons] at hwithin ⊢
    exact ⟨by omega, hfits⟩
  rw [History.redoState, hredo]
  dsimp only
  rw [trim_of_within hover, redone_eq hredo]
  rfl

end History

namespace EditorState

variable {gs : Graphemes} {setup : EditorSetup}

/-- An editor is at another one again: it shows the same, and both stacks of its history hold the same
    steps. Typing that would have joined the last step need not join it any more. -/
structure Restored (s s' : EditorState gs) : Prop where
  snapshot : s'.snapshot.Shows s.snapshot
  pending : s'.pending = s.pending
  history : s'.history.breakCoalescing = s.history.breakCoalescing
  composition : s'.composition = none
  forced : s'.forceSourceMode = s.forceSourceMode

/-- The composition is open after each of the calls. -/
def StaysOpen (setup : EditorSetup) (plans : EditorPlans gs) (s : EditorState gs)
    (calls : List FlarkEditorCall) : Prop :=
  ∀ first, first <+: calls → (run setup plans s first).composing = true

theorem StaysOpen.tail {plans : EditorPlans gs} {s : EditorState gs} {c : FlarkEditorCall}
    {calls : List FlarkEditorCall} (h : StaysOpen setup plans s (c :: calls)) :
    StaysOpen setup plans (step setup plans s c) calls :=
  fun first hfirst => h (c :: first) (List.cons_prefix_cons.2 ⟨rfl, hfirst⟩)

/-- Each of the calls applies. -/
def AllApply (setup : EditorSetup) (plans : EditorPlans gs) (s : EditorState gs)
    (calls : List FlarkEditorCall) : Prop :=
  ∀ first c, first ++ [c] <+: calls →
    (call setup plans c (run setup plans s first)).1 = .ok (some true)

theorem AllApply.cons {plans : EditorPlans gs} {s : EditorState gs} {c : FlarkEditorCall}
    {calls : List FlarkEditorCall} (h : AllApply setup plans s (c :: calls)) :
    (call setup plans c s).1 = .ok (some true) ∧
      AllApply setup plans (step setup plans s c) calls :=
  ⟨h [] c (List.cons_prefix_cons.2 ⟨rfl, List.nil_prefix⟩),
    fun first c' hfirst => h (c :: first) c' (List.cons_prefix_cons.2 ⟨rfl, hfirst⟩)⟩

theorem AllApply.concat {plans : EditorPlans gs} {s : EditorState gs} {c : FlarkEditorCall}
    {calls : List FlarkEditorCall} (h : AllApply setup plans s calls)
    (hc : (call setup plans c (run setup plans s calls)).1 = .ok (some true)) :
    AllApply setup plans s (calls ++ [c]) := by
  intro first c' hfirst
  rcases List.prefix_concat_iff.1 hfirst with heq | hprefix
  · obtain ⟨rfl, hlast⟩ := List.append_inj' heq rfl
    cases hlast
    exact hc
  · exact h first c' hprefix

/-- A command with no composition open is applied in its mode, to what is edited as it is. -/
theorem call_applied (plans : EditorPlans gs) {s : EditorState gs} (hclosed : s.composing = false)
    (c : FlarkCommand) (at_ : Option Int) : ∃ s', s.Unedited s' ∧ s'.history = s.history ∧
      call setup plans (.apply c at_ none) s =
        (some <$> (applyIn setup plans c >>= answers c)) s' := by
  obtain ⟨time, readings, hread⟩ : ∃ (time : Int) (readings : Nat),
      timeOf plans at_ s = (.ok time, { s with readings := readings }) := by
    cases at_ with
    | none => exact ⟨_, _, rfl⟩
    | some time => exact ⟨time, s.readings, rfl⟩
  have happlies : ∀ s' : EditorState gs, s'.composing = false →
      applyFresh setup plans c time s' = applies setup plans c time s' := by
    intro s' hclosed
    rw [applyFresh, hclosed]
    rfl
  have hfresh : applyCommand setup plans c time none { s with readings := readings } =
      applies setup plans c time { s with
        readings := readings, lastRejection := none, inert := false } := happlies _ hclosed
  refine ⟨{ s with
    selectedCodeScope := if c = .selectAll then s.selectedCodeScope else false
    lastRejection := none
    inert := false
    now := time
    readings := readings }, ⟨rfl, rfl, rfl, rfl, rfl, rfl, rfl, rfl⟩, rfl, ?_⟩
  rw [call, Program.bind_ok hread, Program.map_apply, hfresh, Program.map_apply]
  rfl

theorem Unedited.restoreSnapshot {s s' : EditorState gs} (h : s.Unedited s') (e : HistoryEntry) :
    s'.restoreSnapshot setup e = s.restoreSnapshot setup e := by
  rw [EditorState.restoreSnapshot, EditorState.restoreSnapshot, build, build, h.forced, h.snapshot]

theorem Unedited.held {s s' : EditorState gs} (h : s.Unedited s') : s'.held = s.held := by
  rw [EditorState.held, EditorState.held, Editor.source, Editor.source, Editor.selection,
    Editor.selection, h.snapshot, h.pending]

section

variable (hparse : ∀ text m, setup.parse text = .ok m → m.SchemaConforms text)
  {plans : EditorPlans gs}

include hparse

/-! ## Compositions -/

/-- While it is open a composition is the one that began, and takes no step of history. -/
theorem Settled.run_open {s : EditorState gs} (h : s.Settled setup) {before : HistoryEntry}
    (hbefore : s.composition = some before) {calls : List FlarkEditorCall}
    (hopen : StaysOpen setup plans s calls) :
    (EditorState.run setup plans s calls).composition = some before ∧
      (EditorState.run setup plans s calls).history.breakCoalescing = s.history.breakCoalescing ∧
      (EditorState.run setup plans s calls).forceSourceMode = s.forceSourceMode := by
  induction calls generalizing s with
  | nil => exact ⟨hbefore, rfl, rfl⟩
  | cons c calls ih =>
    have hnext : (EditorState.step setup plans s c).composing = true :=
      hopen [c] (List.cons_prefix_cons.2 ⟨rfl, List.nil_prefix⟩)
    rcases h.step_cases hparse plans c with hs | ⟨-, hclosed, -⟩
    · obtain ⟨hsame, hhistory, hforced⟩ := hs.stillOpen before hbefore hnext
      obtain ⟨hsame', hhistory', hforced'⟩ := ih hs.settled hsame hopen.tail
      exact ⟨hsame', hhistory'.trans hhistory, hforced'.trans hforced⟩
    · rw [hclosed] at hbefore
      cases hbefore

/-- What is open after a composition began, and the calls in it. -/
theorem Settled.run_composing {s : EditorState gs} (h : s.Settled setup)
    (hclosed : s.composing = false) {calls : List FlarkEditorCall}
    (hopen : StaysOpen setup plans (EditorState.step setup plans s .beginComposition) calls) :
    (EditorState.run setup plans s (.beginComposition :: calls)).composition =
        some ⟨s.held, s.history.group⟩ ∧
      (EditorState.run setup plans s (.beginComposition :: calls)).history.breakCoalescing =
        s.history.breakCoalescing ∧
      (EditorState.run setup plans s (.beginComposition :: calls)).forceSourceMode =
        s.forceSourceMode := by
  rcases step_begin plans s with hs | ⟨-, s', hs, heq⟩
  · have hstill := hopen [] List.nil_prefix
    rw [EditorState.run, List.foldl_nil, Editor.composing, hs.composition] at hstill
    rw [Editor.composing, hstill] at hclosed
    cases hclosed
  · have hbegun := h.step hparse plans .beginComposition
    rw [heq] at hbegun hopen
    obtain ⟨hsame, hhistory, hforced⟩ := hbegun.run_open hparse rfl hopen
    rw [EditorState.run, List.foldl_cons, heq]
    exact ⟨hsame, hhistory.trans hs.history, hforced.trans hs.forced⟩

/-- The cancelling of an open composition. -/
theorem Settled.step_cancel {s : EditorState gs} (h : s.Settled setup) {before : HistoryEntry}
    (hbefore : s.composition = some before) {snapshot : EditorSnapshot gs}
    (hproper : snapshot.Proper setup s.forceSourceMode before.state.pending)
    (htext : snapshot.text = before.state.source)
    (hselection : snapshot.selection = before.state.selection) :
    ∃ next : EditorSnapshot gs, next.Shows snapshot ∧
      call setup plans .cancelComposition s = (.ok none, notified { (enter none s).2 with
        snapshot := next, pending := before.state.pending, composition := none, composed := none }) := by
  have hentered := h.unedited (unedited_enter s none)
  obtain ⟨next, hnext, -, hshows⟩ := hentered.restore hparse hproper htext hselection
  refine ⟨next, hshows, ?_⟩
  have hcancel : EditorState.cancelComposition setup (enter none s).2 =
      (.ok (), notified { (enter none s).2 with
        snapshot := next, pending := before.state.pending, composition := none, composed := none }) := by
    have hsame : (enter none s).2.composition = some before := hbefore
    rw [EditorState.cancelComposition, hsame]
    dsimp only
    rw [hnext]
  rw [call, returnsNone_apply, hcancel]
  rfl

/-- A cancelled composition is as if it never was: it goes back to what was shown and pending when it
    began, never throws, and leaves both stacks of history as they are, whatever calls it was open
    through. -/
theorem cancel_restores {s : EditorState gs} (h : s.Reached setup plans)
    (hclosed : s.composing = false) {calls : List FlarkEditorCall}
    (hopen : StaysOpen setup plans (step setup plans s .beginComposition) calls) :
    (call setup plans .cancelComposition
        (run setup plans s (.beginComposition :: calls))).1 = .ok none ∧
      s.Restored (run setup plans s (.beginComposition :: calls ++ [.cancelComposition])) := by
  have hs := h.settled hparse
  obtain ⟨hbefore, hhistory, hforced⟩ := hs.run_composing hparse hclosed hopen
  have hopened := hs.run hparse plans (.beginComposition :: calls)
  have hproper := hs.shown
  rw [← hforced] at hproper
  obtain ⟨next, hshows, heq⟩ := hopened.step_cancel hparse hbefore hproper rfl rfl
  rw [run_concat, step, heq]
  exact ⟨rfl, hshows, rfl, hhistory, rfl, hforced⟩

/-- The editor in its source. -/
def spelled : EditorState .units :=
  run Editor.emphasisSetup idlePlans nested [.setSourceMode true]

/-- A letter that is typed. -/
def typesLetter : FlarkEditorCall := .apply (.insertText (Text.ofString "x")) none none

omit hparse in
theorem spelled_reached : spelled.Reached Editor.emphasisSetup idlePlans := nested_reached _

omit hparse in
theorem spelled_staysOpen : StaysOpen Editor.emphasisSetup idlePlans
    (step Editor.emphasisSetup idlePlans spelled .beginComposition) [typesLetter] := by
  intro first hfirst
  rcases List.prefix_cons_iff.1 hfirst with rfl | ⟨rest, rfl, hrest⟩
  · decide +kernel
  · rw [List.prefix_nil.1 hrest]
    decide +kernel

omit hparse in
theorem cancel_restores_letter :
    (run Editor.emphasisSetup idlePlans spelled [.beginComposition, typesLetter]).source =
        Text.ofString "*a *bx* c*" ∧
      spelled.Restored (run Editor.emphasisSetup idlePlans spelled
        [.beginComposition, typesLetter, .cancelComposition]) :=
  ⟨by decide +kernel, (cancel_restores Editor.emphasisSetup_conforms spelled_reached
    (by decide +kernel) spelled_staysOpen).2⟩

/-! ## Undo and redo -/

omit hparse in
theorem applyIn_undo (s : EditorState gs) : applyIn setup plans .undo s = undo setup s := by
  rw [applyIn.eq_def]
  cases s.snapshot with
  | source t => rfl
  | live d =>
    change withMissingCell setup plans d .undo s = undo setup s
    rw [withMissingCell]
    cases d.selection.tableCell <;> rfl

omit hparse in
theorem applyIn_redo (s : EditorState gs) : applyIn setup plans .redo s = redo setup s := by
  rw [applyIn.eq_def]
  cases s.snapshot with
  | source t => rfl
  | live d =>
    change withMissingCell setup plans d .redo s = redo setup s
    rw [withMissingCell]
    cases d.selection.tableCell <;> rfl

/-- A call goes to an entry of history. -/
structure Goes (s : EditorState gs) (e : HistoryEntry) (next : EditorSnapshot gs)
    (history : History) (r : Except EditorFailure (Option Bool) × EditorState gs) : Prop where
  applied : r.1 = .ok (some true)
  snapshot : r.2.snapshot = next
  pending : r.2.pending = if next.document?.isSome then e.state.pending else none
  history : r.2.history = history
  composition : r.2.composition = s.composition
  forced : r.2.forceSourceMode = s.forceSourceMode

omit hparse in
theorem goes_restores {s s' : EditorState gs} (hs : s.Unedited s') {m : EditorProgram gs Bool}
    {e : HistoryEntry} {next : EditorSnapshot gs} {history : History}
    (hm : m s' = (.ok true, s'.restores e next history)) (c : FlarkCommand) :
    s.Goes e next history ((some <$> (m >>= answers c)) s') := by
  rw [Program.map_apply, Program.bind_ok hm]
  exact ⟨rfl, rfl, rfl, rfl, hs.composition, hs.forced⟩

omit hparse in
theorem Settled.goes_undo {s : EditorState gs} (h : s.Settled setup) (hclosed : s.composing = false)
    {e : HistoryEntry} {rest : List HistoryEntry} (hundo : s.history.undo = e :: rest)
    {next : EditorSnapshot gs} (hnext : s.restoreSnapshot setup e = .ok next) (at_ : Option Int) :
    s.Goes e next (s.history.undoState setup.caps s.held).2
      (call setup plans (.apply .undo at_ none) s) := by
  obtain ⟨s', hs, hhistory, heq⟩ := call_applied plans hclosed .undo at_
  rw [heq]
  refine goes_restores hs ?_ .undo
  rw [applyIn_undo, EditorState.undo, hhistory, h.entries.valid.undoTarget_eq, hundo]
  dsimp only [List.head?_cons]
  rw [hs.restoreSnapshot, hnext, hs.held, h.entries.valid.undoState_fst, hundo]
  rfl

omit hparse in
theorem Settled.goes_redo {s : EditorState gs} (h : s.Settled setup) (hclosed : s.composing = false)
    {e : HistoryEntry} {rest : List HistoryEntry} (hredo : s.history.redo = e :: rest)
    {next : EditorSnapshot gs} (hnext : s.restoreSnapshot setup e = .ok next) (at_ : Option Int) :
    s.Goes e next (s.history.redoState setup.caps s.held).2
      (call setup plans (.apply .redo at_ none) s) := by
  obtain ⟨s', hs, hhistory, heq⟩ := call_applied plans hclosed .redo at_
  rw [heq]
  refine goes_restores hs ?_ .redo
  rw [applyIn_redo, EditorState.redo, hhistory, h.entries.valid.redoTarget_eq, hredo]
  dsimp only [List.head?_cons]
  rw [hs.restoreSnapshot, hnext, hs.held, History.redoState_fst, hredo]
  rfl

omit hparse in
/-- A call that applies applied its command. -/
theorem applied_of_map {m : EditorProgram gs Bool} {c : FlarkCommand} {s : EditorState gs}
    (h : ((some <$> (m >>= answers c)) s).1 = .ok (some true)) : (m s).1 = .ok true := by
  rw [Program.map_apply, Program.bind_apply] at h
  revert h
  rcases m s with ⟨e | applied, s'⟩
  · exact nofun
  · cases applied with
    | true => exact fun _ => rfl
    | false =>
      obtain ⟨s'', heq, -⟩ := answers_false c s'
      dsimp only
      rw [heq]
      exact nofun

omit hparse in
/-- Undo applies where it has an entry to go to, and a snapshot of it. -/
theorem Settled.undo_applied {s : EditorState gs} (h : s.Settled setup)
    (hclosed : s.composing = false) {at_ : Option Int}
    (happlied : (call setup plans (.apply .undo at_ none) s).1 = .ok (some true)) :
    ∃ e rest next, s.history.undo = e :: rest ∧ s.restoreSnapshot setup e = .ok next := by
  obtain ⟨s', hs, hhistory, heq⟩ := call_applied plans hclosed .undo at_
  rw [heq] at happlied
  have hundo := applied_of_map happlied
  rw [applyIn_undo, EditorState.undo, hhistory, h.entries.valid.undoTarget_eq] at hundo
  cases hstack : s.history.undo with
  | nil =>
    rw [hstack] at hundo
    cases hundo
  | cons e rest =>
    rw [hstack] at hundo
    dsimp only [List.head?_cons] at hundo
    rw [hs.restoreSnapshot] at hundo
    cases hnext : s.restoreSnapshot setup e with
    | error failure =>
      rw [hnext] at hundo
      cases hundo
    | ok next => exact ⟨e, rest, next, rfl, hnext⟩

/-! ## A composition that is committed -/

omit hparse in
/-- What Undo goes to when it goes to a state that can be shown in the mode that is on. -/
theorem Goes.restored {s s₀ : EditorState gs} {e : HistoryEntry} {next : EditorSnapshot gs}
    {history : History} {r : Except EditorFailure (Option Bool) × EditorState gs}
    (h : s.Goes e next history r) (hs : s₀.Settled setup) (he : e.state = s₀.held)
    (hshows : next.Shows s₀.snapshot) :
    r.2.snapshot.Shows s₀.snapshot ∧ r.2.pending = s₀.pending := by
  refine ⟨h.snapshot ▸ hshows, ?_⟩
  rw [h.pending, he, hshows.isSome_document?]
  split_ifs with hlive
  · rfl
  · cases hpending : s₀.pending with
    | none => rfl
    | some p => exact absurd (hs.shown.pending (by rw [hpending]; rfl)) hlive

/-- What the commit of an open composition makes of an editor. -/
theorem Settled.step_commit {s : EditorState gs} (h : s.Settled setup) {before : HistoryEntry}
    (hbefore : s.composition = some before)
    (hcommits : (call setup plans .commitComposition s).1 = .ok none) :
    ∃ history : History, history.breakCoalescing = s.history.breakCoalescing ∧
      ((EditorState.step setup plans s .commitComposition).source = before.state.source →
        (EditorState.step setup plans s .commitComposition).history = history.breakCoalescing) ∧
      ((EditorState.step setup plans s .commitComposition).source ≠ before.state.source →
        ∃ time, (EditorState.step setup plans s .commitComposition).history =
          (history.recordState setup.caps ⟨before.state, false, time⟩).breakCoalescing) ∧
      (EditorState.step setup plans s .commitComposition).composition = none ∧
      (EditorState.step setup plans s .commitComposition).forceSourceMode = s.forceSourceMode := by
  have hentered := h.unedited (unedited_enter s none)
  have hsame : (enter none s).2.composition = some before := hbefore
  rw [EditorState.step]
  rw [call, returnsNone_apply, EditorState.commitComposition] at hcommits ⊢
  rcases hentered.endComposition hparse plans hsame true with
    ⟨changed, s', heq, hs, -⟩ | ⟨failure, s', heq, -, -⟩
  · rw [heq]
    obtain ⟨history, hhistory, hsource, hchanged⟩ := hs.recorded before hsame
    cases changed with
    | true => exact ⟨history, hhistory, hsource, hchanged, hs.composition, hs.forced⟩
    | false => exact ⟨history, hhistory, hsource, hchanged, hs.composition, hs.forced⟩
  · rw [heq] at hcommits
    cases hcommits

/-- A composition that is committed is one step of history from the state that it began in, or none
    where the source is as it was; and where the step fits in history, Undo goes back to what was
    shown and pending when it began. -/
theorem commit_undone {s : EditorState gs} (h : s.Reached setup plans)
    (hclosed : s.composing = false) {calls : List FlarkEditorCall}
    (hopen : StaysOpen setup plans (step setup plans s .beginComposition) calls)
    {s' : EditorState gs}
    (hs' : s' = run setup plans s (.beginComposition :: calls ++ [.commitComposition]))
    (hcommits : (call setup plans .commitComposition
      (run setup plans s (.beginComposition :: calls))).1 = .ok none) :
    s'.composition = none ∧ s'.forceSourceMode = s.forceSourceMode ∧
      (s'.source = s.source → s'.history.breakCoalescing = s.history.breakCoalescing) ∧
      (s'.source ≠ s.source → s.source.length ≤ setup.caps.maxSourceCodeUnits →
        (∃ group rest, s'.history.undo = ⟨s.held, group⟩ :: rest ∧ rest <+: s.history.undo) ∧
        s'.history.redo = [] ∧ ∀ at_,
          (call setup plans (.apply .undo at_ none) s').1 = .ok (some true) ∧
          (step setup plans s' (.apply .undo at_ none)).snapshot.Shows s.snapshot ∧
          (step setup plans s' (.apply .undo at_ none)).pending = s.pending) := by
  have hs := h.settled hparse
  obtain ⟨hbefore, hhistory, hforced⟩ := hs.run_composing hparse hclosed hopen
  have hopened := hs.run hparse plans (.beginComposition :: calls)
  -- Nothing is recorded before the commit, which records the state that the composition began in,
  -- if the source differs.
  obtain ⟨history, hsteps, hsource, hchanged, hcomposition, hforced'⟩ :=
    hopened.step_commit hparse hbefore hcommits
  have hsettled := hopened.step hparse plans .commitComposition
  rw [← run_concat, ← hs'] at hsource hchanged hcomposition hforced' hsettled
  have hsteps : history.breakCoalescing = s.history.breakCoalescing := hsteps.trans hhistory
  have hforced : s'.forceSourceMode = s.forceSourceMode := hforced'.trans hforced
  refine ⟨hcomposition, hforced, fun hsame => ?_, fun hne hfits => ?_⟩
  · rw [hsource hsame]
    exact hsteps
  · obtain ⟨time, hrecorded⟩ := hchanged hne
    have hconsistent : history.Consistent :=
      (hs.entries.of_breakCoalescing hsteps).valid.toConsistent
    obtain ⟨rest, hundo, hrest, hredo⟩ := History.recordState_top (x := s.held) hconsistent hfits time
    have hundo' : s'.history.undo = ⟨s.held, history.group + 1⟩ :: rest := by
      rw [hrecorded]
      exact hundo
    have hstack : history.breakCoalescing.undo = s.history.breakCoalescing.undo :=
      congrArg History.undo hsteps
    change history.undo = s.history.undo at hstack
    rw [hstack] at hrest
    refine ⟨⟨_, rest, hundo', hrest⟩, ?_, fun at_ => ?_⟩
    · rw [hrecorded]
      exact hredo
    · -- The mode is the one that the composition began in, so that its state is shown again.
      have hproper := hs.shown
      rw [← hforced] at hproper
      obtain ⟨next, hnext, -, hshows⟩ :=
        hsettled.restore (e := ⟨s.held, history.group + 1⟩) hparse hproper rfl rfl
      have hclosed' : s'.composing = false := composing_of_none hcomposition
      have hgoes : s'.Goes _ _ _ (call setup plans (.apply .undo at_ none) s') :=
        hsettled.goes_undo hclosed' hundo' hnext at_
      exact ⟨hgoes.applied, hgoes.restored hs rfl hshows⟩

/-- The editor once the letter is composed and committed. -/
def committed : EditorState .units := run Editor.emphasisSetup idlePlans spelled
  [.beginComposition, typesLetter, .commitComposition]

omit hparse in
theorem commit_undone_letter : committed.source = Text.ofString "*a *bx* c*" ∧
    (step Editor.emphasisSetup idlePlans committed (.apply .undo none none)).snapshot.Shows
      spelled.snapshot := by
  have hundone := commit_undone Editor.emphasisSetup_conforms spelled_reached (by decide +kernel)
    spelled_staysOpen (rfl : committed = _) (by decide +kernel)
  exact ⟨by decide +kernel,
    ((hundone.2.2.2 (by decide +kernel) (by decide +kernel)).2.2 none).2.1⟩

/-! ## Steps back and forward -/

omit hparse in
/-- An editor is at another one again, but for the selections that its history goes back to: a state
    that was recorded in one mode is shown in another with the selection that is legal there. The
    steps back have the same sources in the same groups, and those forward are the very same. -/
structure Again (s s' : EditorState gs) : Prop where
  snapshot : s'.snapshot.Shows s.snapshot
  pending : s'.pending = s.pending
  undo : s'.history.undo.map (fun e => (e.state.source, e.group)) =
    s.history.undo.map fun e => (e.state.source, e.group)
  redo : s'.history.redo = s.history.redo
  composition : s'.composition = s.composition
  forced : s'.forceSourceMode = s.forceSourceMode

omit hparse in
theorem Again.refl (s : EditorState gs) : s.Again s := ⟨.refl _, rfl, rfl, rfl, rfl, rfl⟩

omit hparse in
theorem entryUnits_keys (es : List HistoryEntry) : History.entryUnits es =
    ((es.map fun e => (e.state.source, e.group)).map fun k => k.1.length).sum := by
  rw [History.entryUnits, List.map_map]
  rfl

/-- A step forward from an editor that is again where a step back went to. -/
theorem Settled.step_forward {s t : EditorState gs} (hs : s.Settled setup)
    (hclosed : s.composing = false) {e : HistoryEntry} {rest : List HistoryEntry}
    (hundo : s.history.undo = e :: rest) (ht : t.Settled setup)
    (hsource : t.source = e.state.source)
    (hrest : t.history.undo.map (fun e => (e.state.source, e.group)) =
      rest.map fun e => (e.state.source, e.group))
    (hredo : t.history.redo = ⟨s.held, e.group⟩ :: s.history.redo)
    (hclosed' : t.composing = false) (hforced : t.forceSourceMode = s.forceSourceMode)
    (at_ : Option Int) :
    (call setup plans (.apply .redo at_ none) t).1 = .ok (some true) ∧
      s.Again (EditorState.step setup plans t (.apply .redo at_ none)) := by
  have hproper := hs.shown
  rw [← hforced] at hproper
  obtain ⟨next, hnext, -, hshows⟩ :=
    ht.restore (e := ⟨s.held, e.group⟩) hparse hproper rfl rfl
  have hgoes : t.Goes _ _ _ (call setup plans (.apply .redo at_ none) t) :=
    ht.goes_redo hclosed' hredo hnext at_
  have hstored := hs.entries.valid.units
  have hstored' := ht.entries.valid.units
  have hwithin := hs.entries.valid.within
  -- What is stored is then what was stored before the step back.
  have hfits : t.history.storedSourceCodeUnits - (HistoryEntry.mk s.held e.group).units +
      t.held.source.length ≤ setup.caps.maxSourceCodeUnits := by
    simp only [History.overCaps, Bool.or_eq_false_iff, decide_eq_false_iff_not, not_lt] at hwithin
    have hheld : t.held.source.length = e.units := congrArg List.length hsource
    rw [hstored', hheld, entryUnits_keys, hrest, ← entryUnits_keys, hredo, History.entryUnits_cons]
    rw [hstored, hundo, History.entryUnits_cons] at hwithin
    omega
  rw [ht.entries.valid.redoState_eq hredo hfits] at hgoes
  obtain ⟨hsnapshot, hpending⟩ := hgoes.restored hs rfl hshows
  rw [Editor.composing, Option.isSome_eq_false_iff, Option.isNone_iff_eq_none] at hclosed hclosed'
  refine ⟨hgoes.applied, hsnapshot, hpending, ?_, ?_, ?_, hgoes.forced.trans hforced⟩
  · rw [EditorState.step, hgoes.history, hundo]
    exact congrArg₂ List.cons (Prod.ext hsource rfl) hrest
  · rw [EditorState.step, hgoes.history]
  · rw [EditorState.step, hgoes.composition, hclosed, hclosed']

/-- A step back, and then a step forward from an editor that is there again, which is at the editor
    before again. History and what is shown hold as many units as before. -/
theorem Settled.step_back {s : EditorState gs} (h : s.Settled setup) (hclosed : s.composing = false)
    (hfits : s.history.storedSourceCodeUnits + s.source.length ≤ setup.caps.maxSourceCodeUnits)
    {at_ : Option Int} (happlied : (call setup plans (.apply .undo at_ none) s).1 = .ok (some true))
    {s' : EditorState gs} (hs' : s' = EditorState.step setup plans s (.apply .undo at_ none)) :
    s'.composing = false ∧ s'.history.storedSourceCodeUnits + s'.source.length =
        s.history.storedSourceCodeUnits + s.source.length ∧
      ∀ t : EditorState gs, t.Settled setup → s'.Again t → ∀ at_,
        (call setup plans (.apply .redo at_ none) t).1 = .ok (some true) ∧
        s.Again (EditorState.step setup plans t (.apply .redo at_ none)) := by
  obtain ⟨e, rest, next, hundo, hnext⟩ := h.undo_applied hclosed happlied
  have hgoes : s.Goes _ _ _ (call setup plans (.apply .undo at_ none) s) :=
    h.goes_undo hclosed hundo hnext at_
  have hunits : (0 : Int) ≤ e.units := Int.natCast_nonneg _
  rw [h.entries.valid.undoState_eq (x := s.held) hundo
    (show _ - _ + ((s.source.length : Nat) : Int) ≤ _ by omega)] at hgoes
  obtain ⟨-, hsnapshot, -, hhistory, hcomposition, hforced⟩ := hgoes
  change s' = (call setup plans (.apply .undo at_ none) s).2 at hs'
  rw [← hs'] at hsnapshot hhistory hcomposition hforced
  have hsource : s'.source = e.state.source := by
    rw [Editor.source, hsnapshot]
    exact (sound_of_projectSnapshot hparse (.plain gs setup _ h.shown.sound.live) hnext).1
  have hclosed' : s'.composing = false := by
    rw [Editor.composing, hcomposition]
    exact hclosed
  refine ⟨hclosed', ?_, fun t ht hagain at_ => ?_⟩
  · have hheld : (e.units : Int) = s'.source.length := by rw [hsource]; rfl
    rw [hhistory, ← hheld]
    change s.history.storedSourceCodeUnits - e.units + ((s.source.length : Nat) : Int) + e.units = _
    omega
  · refine h.step_forward hparse hclosed hundo ht ?_ ?_ ?_ ?_ (hagain.forced.trans hforced) at_
    · exact hagain.snapshot.text.trans hsource
    · rw [hagain.undo, hhistory]
    · rw [hagain.redo, hhistory]
    · rw [Editor.composing, hagain.composition]
      exact hclosed'

/-- Undo, with the time that each call brings. -/
def undos (times : List (Option Int)) : List FlarkEditorCall :=
  times.map fun at_ => .apply .undo at_ none

/-- Redo, with the time that each call brings. -/
def redos (times : List (Option Int)) : List FlarkEditorCall :=
  times.map fun at_ => .apply .redo at_ none

omit hparse in
theorem run_append (s : EditorState gs) (calls calls' : List FlarkEditorCall) :
    run setup plans s (calls ++ calls') = run setup plans (run setup plans s calls) calls' :=
  List.foldl_append ..

theorem Settled.takes_again {s : EditorState gs} (h : s.Settled setup) (hclosed : s.composing = false)
    (hfits : s.history.storedSourceCodeUnits + s.source.length ≤ setup.caps.maxSourceCodeUnits)
    {back forward : List (Option Int)} (hlength : forward.length = back.length)
    (happlied : AllApply setup plans s (undos back)) :
    AllApply setup plans (EditorState.run setup plans s (undos back)) (redos forward) ∧
      s.Again (EditorState.run setup plans s (undos back ++ redos forward)) := by
  induction back generalizing s forward with
  | nil =>
    rw [List.length_eq_zero_iff.1 hlength]
    refine ⟨fun first c hfirst => ?_, .refl s⟩
    cases first with
    | nil => cases List.prefix_nil.1 hfirst
    | cons c' first => cases List.prefix_nil.1 hfirst
  | cons at_ back ih =>
    obtain ⟨hundo, hrest⟩ := happlied.cons
    obtain ⟨hclosed', hunits, hforward⟩ := h.step_back hparse hclosed hfits hundo rfl
    have hs := h.step hparse plans (.apply .undo at_ none)
    -- The first step back is the one that the last step forward takes again.
    rcases forward.eq_nil_or_concat with rfl | ⟨forward, last, rfl⟩
    · cases hlength
    · have hlength : forward.length = back.length := by
        rw [List.concat_eq_append, List.length_append] at hlength
        exact Nat.succ_injective hlength
      obtain ⟨happlied', hagain⟩ := ih hs hclosed' (hunits ▸ hfits) hlength hrest
      obtain ⟨hredo, hagain'⟩ := hforward _ (hs.run hparse plans _) hagain last
      have hcalls : redos (forward.concat last) = redos forward ++ [.apply .redo last none] := by
        rw [List.concat_eq_append, redos, List.map_append]
        rfl
      rw [hcalls]
      refine ⟨happlied'.concat ?_, ?_⟩
      · rw [← run_append]
        exact hredo
      · rw [← List.append_assoc, run_concat]
        exact hagain'

/-- Steps back are taken forward again: where history and what is shown fit in the caps together and
    each of any number of Undos applied, each of as many Redos applies, and the editor is again at
    what it showed, with the same sources to go back to in the same groups, and the same steps to go
    forward. No composition is open. -/
theorem redo_all {s : EditorState gs} (h : s.Reached setup plans) (hclosed : s.composing = false)
    (hfits : s.history.storedSourceCodeUnits + s.source.length ≤ setup.caps.maxSourceCodeUnits)
    {back forward : List (Option Int)} (hlength : forward.length = back.length)
    (happlied : AllApply setup plans s (undos back)) :
    AllApply setup plans (run setup plans s (undos back)) (redos forward) ∧
      s.Again (run setup plans s (undos back ++ redos forward)) :=
  (h.settled hparse).takes_again hparse hclosed hfits hlength happlied

omit hparse in
theorem redo_all_letter : typed.Again
    (run Editor.emphasisSetup idlePlans typed (undos [none] ++ redos [none])) := by
  refine (redo_all Editor.emphasisSetup_conforms typed_reached (by decide +kernel)
    (by decide +kernel) rfl ?_).2
  intro first c hfirst
  obtain rfl : first = [] := by
    have hlength := hfirst.length_le
    rw [List.length_append] at hlength
    exact List.length_eq_zero_iff.1 (Nat.le_zero.1 (Nat.le_of_succ_le_succ hlength))
  obtain ⟨rfl, -⟩ := List.cons_prefix_cons.1 hfirst
  decide +kernel

end

end EditorState

end Flark
