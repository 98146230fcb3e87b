import Flark.Kernel.Commands

/-!
# Calls

The calls that a host makes to an editor (`kernel/editor.dart`), with the composition of an input
method (`kernel/composition.dart`). Composed text goes into the source as it is, outside history, and
is typed again when the composition ends, as one step from the state it began in.

* `EditorState.compose`, `EditorState.retypeComposition`: while it composes, and as it ends;
* `EditorState.applyCommand`: `apply`, in every mode;
* `EditorState.call`: the calls, and `EditorState.run`, any number of them;
* `EditorState.opened`: the constructor.
-/

namespace Flark

/-- The calls of an editor. Each may bring the revision it was made for. -/
inductive FlarkEditorCall
  | apply (c : FlarkCommand) (at_ : Option Int) (expected : Option Nat)
  | applyAfterComposition (c : FlarkCommand) (at_ : Option Int) (expected : Option Nat)
  | replaceSourceRange (start stop : Int) (text : Text) (expected : Option Nat) (replaceAll : Bool)
  | loadMarkdown (text : Text) (expected : Option Nat)
  | selectAll (codeBlock : Bool) (expected : Option Nat)
  | beginComposition
  | commitComposition
  | cancelComposition
  | setSourceMode (enabled : Bool)
  deriving DecidableEq

namespace EditorState

variable {gs : Graphemes} (setup : EditorSetup) (plans : EditorPlans gs)

/-! ## Parts of a call -/

/-- `_enter`: whether the call is for the revision that the editor is at. -/
def enter (expected : Option Nat) : EditorProgram gs Bool := fun s =>
  let fresh := expected.all fun revision => revision == s.revision
  (.ok fresh, { s with
    lastRejection := if fresh then none else some .staleRevision
    inert := false })

/-- `_notify`. The listeners' own calls are calls after this one. -/
def notified (s : EditorState gs) : EditorState gs := { s with revision := s.revision + 1 }

/-- A call that does nothing if it is made for a revision that the editor has left. -/
def ifFresh (expected : Option Nat) (m : EditorProgram gs Bool) : EditorProgram gs Bool := do
  let fresh ← enter expected
  if fresh then m else pure false

/-- A reading of the clock. -/
def now_ : EditorProgram gs Int := fun s =>
  (.ok (plans.clock s.readings), { s with readings := s.readings + 1 })

/-- The time that a command brings, or what the clock shows. -/
def timeOf (at_ : Option Int) : EditorProgram gs Int := at_.elim (now_ plans) pure

/-- A step of history that is not typed, at the time that the clock shows. -/
def records (x : HistoryState) (s : EditorState gs) : EditorState gs :=
  { s with
    history := s.history.recordState setup.caps ⟨x, false, plans.clock s.readings⟩
    readings := s.readings + 1 }

/-- `_admitSource`: the snapshot of a source, where it is admitted. -/
def admitSource (text : Text) (selected : Selection) :
    EditorProgram gs (Option (EditorSnapshot gs)) := fun s =>
  match Editor.admits setup text with
  | .error reason => (.ok none, { s with lastRejection := some reason })
  | .ok live =>
    match projectSnapshot gs setup text selected s.forceSourceMode (!s.sourceMode) none (some live)
        none with
    | .ok next => (.ok (some next), s)
    | .error .extractionDeviation =>
      (.ok none, { s with lastRejection := some .extractionDeviation })
    | .error failure => (.error (.parse failure), s)

/-! ## Composition -/

/-- `_typeComposed`: what typing makes of a text, outside history. Accepted, the typed state stays;
    refused, the editor is as it was, and the reason is returned. -/
def typeComposed (from_ : Document) (pending : Option PendingStyle) (text : Text) :
    EditorProgram gs (Option FlarkRejection) := fun s =>
  let (r, left) := withMissingCell setup plans from_
    (if text = [] then .deleteBackward false else .insertText text)
    { s with composition := none, snapshot := .live from_, pending := pending, lastRejection := none }
  let back := { left.withEditState s with lastRejection := s.lastRejection, inert := s.inert }
  match r with
  | .error failure => (.error failure, back)
  | .ok false => (.ok (some (left.lastRejection.getD .unsupportedEdit)), back)
  | .ok true =>
    -- History, revision and outcome are as they were.
    (.ok none, { back with
      snapshot := left.snapshot, pending := left.pending, goalColumn := left.goalColumn })

/-- The composed range is one of the source as it is. -/
def isCurrent (s : EditorState gs) : Bool :=
  s.composed.any fun c => decide (c.2 = s.source) && plans.sameSource s

/-- The composed range, where it is one of the source as it is. -/
def composedRange (s : EditorState gs) : Option Composed :=
  if s.isCurrent plans then s.composed.map Prod.fst else none

/-- The end of `_compose`: the text goes into the source. -/
def composes (first last : Int) (text : Text) : EditorProgram gs Bool := fun s =>
  match onEditor (fun ed => ed.commit setup ⟨ed.source.replaceRange first.toNat last.toNat text,
      .collapsed (first + text.length), false, false, ed.pending, none, none, true⟩) s with
  | (.ok true, s') =>
    (.ok true, { s' with
      composed := some (Composed.after (s.composed.map Prod.fst) (s.isCurrent plans) first last text,
        s'.source) })
  | r => r

/-- Text composed past the text composed so far goes in where typing it there would: typing is asked
    only whether it would refuse it. -/
def composesApart (from_ : Document) (first last : Int) (text : Text) : EditorProgram gs Bool :=
  fun s =>
    match typeComposed setup plans from_ s.pending text s with
    | (.error failure, left) => (.error failure, left)
    | (.ok (some reason), left) =>
      (.ok false, { left.withEditState s with lastRejection := some reason })
    | (.ok none, left) => composes setup plans first last text (left.withEditState s)

/-- `_compose`: the platform replaces a range by a text. -/
def compose (d : Document) (start stop : Int) (text : Text) : EditorProgram gs Bool := fun s =>
  let a := max 0 (min start d.source.length)
  let b := max 0 (min stop d.source.length)
  let first := min a b
  let last := max a b
  if first = last ∧ text = [] then (.ok false, s)
  else
    -- The platform replaces within what is composed, or else the whole document.
    let within := (s.composedRange plans).any fun c =>
      decide (c.start ≤ first) && decide (last ≤ c.stop)
    let whole := first == 0 && last == d.source.length && first != last
    if within || whole then composes setup plans first last text s
    else
      match plans.pasteCode text first last s d with
      | some plan => plan.run setup s
      -- Elsewhere the text is composed apart, in place of the selection or of the range.
      | none =>
        composesApart setup plans (if first = d.selection.start ∧ last = d.selection.stop then d
          else d.withSelection gs ⟨first, last, none⟩) first last text s

/-- The end of a cell's text before the space that its closing pipe is set off by. -/
def cellTextEnd (gs : Graphemes) (d : Document) (start : Int) : (fuel : Nat) → (stop : Int) → Int
  | 0, stop => stop
  | fuel + 1, stop =>
    if start < stop ∧ d.projection.isLegal gs stop = false ∧
        (d.source.codeUnitAt (stop - 1) = 0x20 ∨ d.source.codeUnitAt (stop - 1) = 0x09) then
      cellTextEnd gs d start fuel (stop - 1)
    else stop

/-- What a composition is typed over: a range of the document it began in, and whether that is the
    selection it began with. -/
structure Retyping where
  document : Document
  over_ : Selection
  begun : Bool

/-- The range that a text is typed over, where its ends are legal: a span that ends in the space
    before a cell's closing pipe leaves that space be. -/
def settleRange (gs : Graphemes) (d : Document) (at_ over_ : Selection) (begun : Bool)
    (text : Text) : Retyping :=
  if d.selection = over_ then ⟨d, over_, begun⟩
  else
    let stop := cellTextEnd gs d over_.start (over_.stop - over_.start).toNat over_.stop
    if stop ≠ over_.stop ∧ (over_.start < stop ∨ text ≠ []) ∧ d.projection.isLegal gs stop = true ∧
        (d.rowAt gs stop).any (fun row => row.kind == .tableCell) then
      let begun := decide (over_.start = at_.start) && decide (stop = at_.stop)
      let over_ := if begun then at_ else ⟨over_.start, stop, none⟩
      ⟨d.withSelection gs over_, over_, begun⟩
    else ⟨d, over_, begun⟩

/-- Typing can make the range: it is one that a caret can select, and not in code. -/
def Retyping.typable (gs : Graphemes) (r : Retyping) : Bool :=
  decide (r.document.selection = r.over_) &&
    !((r.document.rowAt gs r.over_.start).any fun row => row.fenced) &&
    !((r.document.rowAt gs r.over_.stop).any fun row => row.fenced)

/-- The end of `_retypeComposition`, once the text was typed or refused. -/
def retyped (before : HistoryEntry) (range : Option Composed) (r : Retyping)
    (composed : EditorState gs) : Option FlarkRejection → EditorProgram gs Bool
  | some reason => fun s =>
    -- Composed around other edits, it stays as composed.
    if range.isNone then (.ok false, s)
    else
      match if r.begun then .ok (.live r.document) else s.restoreSnapshot setup before with
      | .error failure => (.error (.parse failure), s)
      | .ok next =>
        (.ok true, { s with
          snapshot := next, pending := before.state.pending, lastRejection := some reason })
  | none => fun s =>
    -- Typed as it was composed, it keeps the selection that the platform left in it.
    if s.source ≠ composed.source then (.ok true, s)
    else
      (.ok (s.pending != composed.pending || s.pending.isSome && !plans.samePending s),
        { s with snapshot := composed.snapshot })

/-- The composed text, the range of the source before that it replaced, and whether that is the
    selection it began with. -/
def retypeSpan (began now : Text) (at_ : Selection) (range : Option Composed) :
    Selection × Bool × Text :=
  let (a, b) := Composition.retypeEnds began now at_ range
  let stop : Int := (began.length - b : Nat)
  let begun := (a : Int) == at_.start && stop == at_.stop
  (if begun then at_ else ⟨a, stop, none⟩, begun, now.substring a (now.length - b : Nat))

/-- The typing of a composed text, if typing can make the range that it is typed over. -/
def retypes (before : HistoryEntry) (range : Option Composed) (r : Retyping) (text : Text) :
    EditorProgram gs Bool := fun s =>
  if !r.typable gs then (.ok false, s)
  else
    (typeComposed setup plans r.document (if r.begun then before.state.pending else none) text >>=
      retyped setup plans before range r s) s

/-- `_retypeComposition`: makes of the composed text what typing it would have made, and says whether
    that changed the source, the selection or the intent of typing. Text composed in more than one
    place stays as composed. -/
def retypeComposition (before : HistoryEntry) : EditorProgram gs Bool := fun s =>
  let began := before.state.source
  let range := s.composedRange plans
  if s.sourceMode || began == s.source then (.ok false, s)
  else if range.any Composed.apart then (.ok false, s)
  else
    let (over_, begun, text) := retypeSpan began s.source before.state.selection range
    -- The text is typed over the selection in the source that the composition began with, if that
    -- is live.
    match s.build setup began over_ with
    | .error failure => (.error (.parse failure), s)
    | .ok (.source _) => (.ok false, s)
    | .ok (.live d) =>
      retypes setup plans before range (settleRange gs d before.state.selection over_ begun text)
        text s

/-- The end of `_endComposition`: one undo step from the state that the composition began in. -/
def closes (before : HistoryEntry) (s : EditorState gs) : EditorState gs :=
  let recorded := if s.source ≠ before.state.source then records setup plans before.state s else s
  { recorded with
    composition := none
    composed := none
    history := recorded.history.breakCoalescing }

/-- `_endComposition`. -/
def endComposition (retype : Bool) : EditorProgram gs Bool := fun s =>
  match s.composition with
  | none => (.ok false, s)
  | some before =>
    match (if retype then retypeComposition setup plans before s else (.ok false, s)) with
    | (.error failure, s') => (.error failure, s')
    | (.ok retyped, s') => (.ok retyped, closes setup plans before s')

/-- `_commitComposition`. -/
def commitComposition : EditorProgram gs Unit := fun s =>
  match endComposition setup plans true s with
  | (.error failure, s') => (.error failure, s')
  | (.ok changed, s') => (.ok (), if changed then notified s' else s')

/-- `_beginComposition`. -/
def beginComposition : EditorProgram gs Unit := Program.modify fun s =>
  if s.composing then s
  else { s with composition := some ⟨s.held, s.history.group⟩, composed := none }

/-- `_cancelComposition`. -/
def cancelComposition : EditorProgram gs Unit := fun s =>
  match s.composition with
  | none => (.ok (), s)
  | some before =>
    match s.restoreSnapshot setup before with
    | .error failure => (.error (.parse failure), s)
    | .ok next => (.ok (), notified { s with
        snapshot := next, pending := before.state.pending, composition := none, composed := none })

/-! ## Commands -/

/-- The command that is applied in its mode. -/
def applyIn (c : FlarkCommand) : EditorProgram gs Bool := fun s =>
  match s.snapshot with
  | .source t => applySource setup t c s
  | .live d =>
    match c with
    | .insertText text =>
      if s.composing then compose setup plans d d.selection.start d.selection.stop text s
      else withMissingCell setup plans d c s
    | .replaceRange start stop text =>
      if s.composing then compose setup plans d start stop text s
      else withMissingCell setup plans d c s
    | c => withMissingCell setup plans d c s

/-- A command that does nothing, where it can do nothing, without being refused. -/
def moves : FlarkCommand → Bool
  | .setSelection .. | .moveTableCell _ | .selectAll | .moveCaret .. | .placeCaret .. | .indent
  | .outdent => true
  | _ => false

/-- The end of `_apply`. -/
def answers (c : FlarkCommand) (applied : Bool) : EditorProgram gs Bool := fun s =>
  if applied then (.ok true, notified s)
  else if s.inert || moves c then (.ok false, s)
  else (.ok false, { s with lastRejection := s.lastRejection.or (some .unsupportedEdit) })

/-- A command in its mode, to the end of `_apply`. -/
def applies (c : FlarkCommand) (at_ : Int) : EditorProgram gs Bool := fun s =>
  (applyIn setup plans c >>= answers c) { s with
    selectedCodeScope := if c = .selectAll then s.selectedCodeScope else false, now := at_ }

/-- `_apply`, of a call that is not stale. Undo during a composition commits it, so that it takes it
    back; Redo has nothing to redo then. -/
def applyFresh (c : FlarkCommand) (at_ : Int) : EditorProgram gs Bool := fun s =>
  if s.composing && c == .redo then (.ok false, { s with inert := true })
  else if s.composing && c == .undo then
    (commitComposition setup plans >>= fun _ => applies setup plans c at_) s
  else applies setup plans c at_ s

/-- `_apply`. -/
def applyCommand (c : FlarkCommand) (at_ : Int) (expected : Option Nat) : EditorProgram gs Bool :=
  ifFresh expected (applyFresh setup plans c at_)

/-- `_applyAfterComposition`: a command that is refused leaves the composition open. The command is
    built once the composition has ended. -/
def applyAfterEnding (build : EditorProgram gs FlarkCommand) (at_ : Int) :
    EditorProgram gs Bool := fun s =>
  let applies : EditorProgram gs Bool := build >>= fun c => applyCommand setup plans c at_ none
  if !s.composing then applies s
  else
    match endComposition setup plans true s with
    | (.error failure, s') => (.error failure, s')
    | (.ok _, ended) =>
      match applies ended with
      | (.ok true, s') =>
        (.ok true, { s' with lastRejection := s'.lastRejection.or ended.lastRejection })
      | (.ok false, s') => (.ok false, s'.withEditState s)
      | (.error failure, s') =>
        -- Listeners that heard of an edit hold its source.
        (.error failure, if s'.revision = ended.revision then s'.withEditState s else s')

/-! ## Whole sources -/

/-- Where a splice may start and stop: in no surrogate pair. -/
def isSpliceBoundary (source : Text) (o : Int) : Bool :=
  decide (0 ≤ o) && decide (o ≤ source.length) &&
    (o == 0 || o == source.length || !isLowSurrogate (source.codeUnitAt o))

/-- Where a selection goes through a splice. -/
def splicedSelection (old : Selection) (start stop : Int) (text : Text) (whole : Option Int) :
    Selection :=
  let delta : Int := text.length - (stop - start)
  match whole with
  | some length => .collapsed length
  | none =>
    if old.isCollapsed && decide (start ≤ old.extent) && decide (old.extent ≤ stop) then
      .collapsed (start + text.length)
    else if old.stop ≤ start then old
    else if stop ≤ old.start then ⟨old.base + delta, old.extent + delta, none⟩
    else .collapsed (start + text.length)

/-- A selection of the snapshot that is shown. -/
def selectsIn (selected : Selection) : EditorProgram gs Bool := fun s =>
  match s.snapshot with
  | .source t => selectsSource t selected s
  | .live d => selects d selected s

/-- The step of history of a splice, with the snapshot that it makes. -/
def spliced (next : EditorSnapshot gs) (s : EditorState gs) : EditorState gs :=
  { records setup plans s.held s with
    snapshot := next
    pending := none
    cellOrigin := none
    goalColumn := none
    selectedCodeScope := false }

/-- The end of `_replaceSourceRange`, where the source is admitted: a composition ends with its text
    as it was composed. -/
def splices (next : EditorSnapshot gs) : EditorProgram gs Bool := do
  let _ ← endComposition setup plans false
  Program.modify fun s => notified (spliced setup plans next s)
  pure true

/-- `_replaceSourceRange`: an exact splice of the source. A refused one neither ends a composition
    nor takes an undo step. -/
def replaceSourceRange (start stop : Int) (text : Text) (replaceAll : Bool) :
    EditorProgram gs Bool := fun s =>
  if stop < start || !isSpliceBoundary s.source start || !isSpliceBoundary s.source stop then
    (.ok false, { s with lastRejection := some .invalidSource })
  else
    let source := s.source.replaceRange start.toNat stop.toNat text
    let selected := splicedSelection s.selection start stop text
      (if replaceAll then some (source.length : Int) else none)
    -- A splice that changes nothing at most selects.
    if source = s.source then
      match selectsIn selected s with
      | (.ok true, s') => (.ok true, notified s')
      | r => r
    else
      match admitSource setup source selected s with
      | (.ok (some next), s') => splices setup plans next s'
      | (.ok none, s') => (.ok false, s')
      | (.error failure, s') => (.error failure, s')

/-- `_loadMarkdown`. -/
def loadMarkdown (text : Text) : EditorProgram gs Bool := fun s =>
  match admitSource setup text (.collapsed 0) s with
  | (.ok (some next), s') =>
    (.ok true, notified { s' with
      composition := none, composed := none, pending := none, cellOrigin := none
      goalColumn := none, selectedCodeScope := false, history := s'.history.clear, snapshot := next })
  | (.ok none, s') => (.ok false, s')
  | (.error failure, s') => (.error failure, s')

/-- The command that selects the code of the caret's fence. -/
def selectsCode : EditorProgram gs FlarkCommand := fun s =>
  match s.snapshot.document?.bind Document.caretRow with
  | none => (.error .state, s)
  | some row =>
    (.ok (.setSelection (row.sourceForDisplay 0) (row.sourceForDisplay row.text.length)), s)

/-- The command that selects the source. -/
def selectsWhole : EditorProgram gs FlarkCommand := fun s =>
  (.ok (.setSelection 0 s.source.length), s)

/-- `_selectAllIn`. -/
def selectAllIn (codeBlock : Bool) : EditorProgram gs Bool := fun s =>
  if codeBlock then
    match s.snapshot.document? with
    | none => (.ok false, { s with lastRejection := some .unsupportedEdit })
    | some d =>
      match d.caretRow with
      | none => (.error .state, s)
      | some row =>
        if row.fenced then (now_ plans >>= applyAfterEnding setup plans selectsCode) s
        else (.ok false, { s with lastRejection := some .unsupportedEdit })
  else (now_ plans >>= applyAfterEnding setup plans selectsWhole) s

/-- `_setSourceMode`, once the composition is committed. -/
def showsSource (enabled : Bool) : EditorProgram gs Unit := fun s =>
  let s := { s with selectedCodeScope := false }
  match { s with forceSourceMode := enabled }.build setup s.source s.selection with
  | .error failure => (.error (.parse failure), s)
  | .ok next => (.ok (), notified { s with
      forceSourceMode := enabled, snapshot := next, pending := none
      history := s.history.breakCoalescing })

/-! ## Calls -/

/-- A call that returns nothing. -/
def returnsNone (m : EditorProgram gs Unit) : EditorProgram gs (Option Bool) := do
  let _ ← enter none
  m
  pure none

/-- A call, with what it returns. -/
def call : FlarkEditorCall → EditorProgram gs (Option Bool)
  | .apply c at_ expected =>
    timeOf plans at_ >>= fun time => some <$> applyCommand setup plans c time expected
  | .applyAfterComposition c at_ expected =>
    timeOf plans at_ >>= fun time =>
      some <$> ifFresh expected (applyAfterEnding setup plans (pure c) time)
  | .replaceSourceRange start stop text expected replaceAll =>
    some <$> ifFresh expected (replaceSourceRange setup plans start stop text replaceAll)
  | .loadMarkdown text expected => some <$> ifFresh expected (loadMarkdown setup text)
  | .selectAll codeBlock expected => some <$> ifFresh expected (selectAllIn setup plans codeBlock)
  | .beginComposition => returnsNone beginComposition
  | .commitComposition => returnsNone (commitComposition setup plans)
  | .cancelComposition => returnsNone (cancelComposition setup)
  | .setSourceMode enabled =>
    returnsNone (commitComposition setup plans >>= fun _ => showsSource setup enabled)

/-- The editor after a call, which may have thrown. -/
def step (s : EditorState gs) (c : FlarkEditorCall) : EditorState gs := (call setup plans c s).2

/-- The editor after any calls. -/
def run (s : EditorState gs) (calls : List FlarkEditorCall) : EditorState gs :=
  calls.foldl (step setup plans) s

/-- What the constructor throws. -/
inductive OpeningFailure
  | limits
  | refused (reason : FlarkRejection)
  | parse (failure : ParseFailure)
  deriving DecidableEq, Repr

/-- `checkFlarkLimits`. -/
def checkFlarkLimits : Bool :=
  decide (setup.syncLimit ≤ setup.sourceLimit) && decide (1 ≤ setup.liveLimits.lines) &&
    decide (1 ≤ setup.liveLimits.lineCodeUnits) && decide (1 ≤ setup.liveLimits.blocks) &&
    decide (1 ≤ setup.liveLimits.runs) && decide (1 ≤ setup.liveLimits.blockCodeUnits)

/-- The constructor. -/
def opened (gs : Graphemes) (text : Text) (caret : Int) : Except OpeningFailure (EditorState gs) :=
  if !checkFlarkLimits setup then .error .limits
  else
    match flarkSourceRefusal text setup.sourceLimit with
    | some reason => .error (.refused reason)
    | none =>
      match projectSnapshot gs setup text (.collapsed caret) false false none none none with
      | .error failure => .error (.parse failure)
      | .ok snapshot => .ok { snapshot := snapshot }

end EditorState

end Flark
