import Flark.Kernel.CodeEditing
import Flark.Kernel.Fresh
import Flark.Kernel.InlineFormatting
import Flark.Lib.Programs

/-!
# Commands

What a command makes of an editor (`_applyLive`, `_applySource`, `_withMissingCell` and the history
steps of `kernel/editor.dart` and `kernel/table_editing.dart`). A command that throws leaves the
state it threw in.

How an edit of a live document is spelled is left open: a plan attempts sources one after the other,
as the outcomes decide, until one is committed. All else of a command is as the source has it.

* `EditPlan`: what an edit tries, and `EditPlan.run`;
* `EditorState.applyLive`, `EditorState.applySource`: a command in either mode;
* `EditorState.withMissingCell`: a command at a table cell that the source never wrote.
-/

namespace Flark

/-! ## Commands -/

/-- `FlarkCommand`. -/
inductive FlarkCommand
  | insertText (text : Text)
  | deleteBackward (word : Bool)
  | deleteForward (word : Bool)
  | newline (paragraph : Bool)
  | replaceRange (start stop : Int) (text : Text)
  | setSelection (base extent : Int)
  | selectAll
  | placeCaret (row offset : Int) (leadingHalf extend : Bool)
  | moveCaret (forward : Bool) (unit : MoveUnit) (extend : Bool)
  | moveTableCell (backward : Bool)
  | undo
  | redo
  | toggleTask
  | indent
  | outdent
  | toggleStyle (style : Nat)
  | setStyle (style : Nat) (enabled : Bool)
  | setHeadingLevel (level : Int)
  | setCodeLanguage (language : Text)
  | paste (text : Text)
  | setLink (destination : Text) (text title : Option Text)
  | setImage (destination : Text) (alt title : Option Text)
  | removeLink
  | removeImage
  deriving DecidableEq

/-- What a call throws: what the parser throws, or an error of the call's own (a document without a
    row, a proposal out of range). -/
inductive EditorFailure
  | parse (failure : ParseFailure)
  | state
  deriving DecidableEq, Repr

/-- `FlarkEditor`: `Editor`, with the place of the composed text, the source it is a place in, and
    how often the clock was read. -/
structure EditorState (gs : Graphemes) extends Editor gs where
  composed : Option (Composed × Text) := none
  readings : Nat := 0
  deriving DecidableEq

/-- What an edit of a live document does: it leaves the document as it is, with the outcome of the
    call; it throws; or it attempts a source, with the rejection as it stands then, and goes on where
    that is not committed. -/
inductive EditPlan
  | leaves (rejection : Option FlarkRejection) (inert : Bool)
  | throws
  | attempts (rejection : Option FlarkRejection) (a : Attempt) (next : Outcome → EditPlan)

/-- `_newline` edits, or goes to a cell of the next row of a table. -/
inductive NewlinePlan
  | edits (plan : EditPlan)
  | places (row : Int)

/-- What is left open: the plans of the edits of a live document, the clock, and whether two strings
    or pending styles that are equal are one object. -/
structure EditorPlans (gs : Graphemes) where
  edit : FlarkCommand → EditorState gs → Document → EditPlan
  newline : (paragraph : Bool) → EditorState gs → Document → NewlinePlan
  /-- `_returnFromTable`, behind the last row of a table. -/
  leaveTable : ProjectedRow → EditorState gs → Document → EditPlan
  /-- `_pasteCode`, if the range is in code. -/
  pasteCode : Text → (start stop : Int) → EditorState gs → Document → Option EditPlan
  sameSource : EditorState gs → Bool
  samePending : EditorState gs → Bool
  clock : Nat → Int

/-- A call, or a part of one. -/
abbrev EditorProgram (gs : Graphemes) (α : Type) := Program EditorFailure (EditorState gs) α

/-- A part of a call that reads and changes the editor only. -/
def onEditor {gs : Graphemes} {α : Type} (f : Editor gs → Except ParseFailure (α × Editor gs)) :
    EditorProgram gs α := fun s =>
  match f s.toEditor with
  | .ok (a, ed) => (.ok a, { s with toEditor := ed })
  | .error failure => (.error (.parse failure), s)

/-- An edit, and whether it was committed. -/
def EditPlan.run {gs : Graphemes} (setup : EditorSetup) : EditPlan → EditorProgram gs Bool
  | .leaves rejection inert => fun s =>
    (.ok false, { s with lastRejection := rejection, inert := inert })
  | .throws => Program.throw .state
  | .attempts rejection a next => do
    Program.modify fun s => { s with lastRejection := rejection }
    let outcome ← onEditor fun ed => ed.attempt setup a
    if outcome = .committed then pure true else (next outcome).run setup

namespace EditorState

variable {gs : Graphemes}

/-- The state that history keeps. -/
def held (s : EditorState gs) : HistoryState := ⟨s.source, s.selection, s.pending⟩

/-- `_buildSnapshot`, over the live document that is shown. -/
def build (setup : EditorSetup) (s : EditorState gs) (text : Text) (selected : Selection) :
    Except ParseFailure (EditorSnapshot gs) :=
  projectSnapshot gs setup text selected s.forceSourceMode false none none s.snapshot.document?

/-- `_restoreSnapshot`. -/
def restoreSnapshot (setup : EditorSetup) (s : EditorState gs) (e : HistoryEntry) :
    Except ParseFailure (EditorSnapshot gs) :=
  s.build setup e.state.source e.state.selection

/-! ## Selections -/

/-- `_select`. -/
def selects (d : Document) (selected : Selection) : EditorProgram gs Bool := fun s =>
  let r := s.toEditor.select d selected
  (.ok r.2, { s with toEditor := r.1 })

/-- `_selectSource`. -/
def selectsSource (t : SourceSnapshot gs) (selected : Selection) : EditorProgram gs Bool := fun s =>
  let r := s.toEditor.selectSource t selected
  (.ok r.2, { s with toEditor := r.1 })

/-- The end of `_place`: a press takes the context of where it lands, even where the caret already
    was. -/
def lands (d : Document) (placed : Selection) : EditorProgram gs Bool := fun s =>
  let r := s.toEditor.select d placed
  if r.2 then (.ok true, { s with toEditor := r.1 })
  else
    (.ok s.pending.isSome,
      { s with history := s.history.breakCoalescing, goalColumn := none, pending := none })

/-- `_place`. -/
def place (d : Document) (row offset : Int) (leadingHalf extend : Bool) : EditorProgram gs Bool :=
  match d.placeSelection gs row offset leadingHalf extend with
  | none => Program.throw .state
  | some none => pure false
  | some (some placed) => lands d placed

/-- `_move` goes to a row with `_place`: from a cell that the source never wrote, or to one. -/
def placesCell (d : Document) (forward : Bool) (unit : MoveUnit) : Bool :=
  d.selection.tableCell.isSome ||
    d.caretPosition.any fun pos => d.projection.rows[pos.row]?.any fun row =>
      d.selection.isCollapsed && decide (unit ≠ .line) &&
        (if forward then pos.offset == row.text.length else pos.offset == 0) &&
        (d.rowAfter row.index forward).any fun other =>
          d.projection.isMissingCell (some (other.index : Int))

/-- `_move`. A vertical movement keeps the column that it aims for. -/
def move (d : Document) (forward : Bool) (unit : MoveUnit) (extend : Bool) :
    EditorProgram gs Bool := fun s =>
  match d.moveSelection gs s.goalColumn forward unit extend with
  | none => (.error .state, s)
  | some none => (.ok false, s)
  | some (some target) =>
    if placesCell d forward unit then lands d target s
    else
      let r := s.toEditor.select d target
      -- The column aimed for is that of the first of several vertical movements.
      let goal := s.goalColumn.or (d.caretPosition.map fun pos => pos.offset)
      (.ok r.2, { s with
        toEditor := if unit = .row then { r.1 with goalColumn := goal } else r.1 })

/-- `_moveTableCell`. -/
def moveTableCell (setup : EditorSetup) (plans : EditorPlans gs) (d : Document) (backward : Bool) :
    EditorProgram gs Bool := fun s =>
  match d.caretRow with
  | none => (.error .state, s)
  | some row =>
    if row.kind ≠ .tableCell then (.ok false, s)
    else
      let index : Int := if backward then row.index - 1 else row.index + 1
      if 0 ≤ index ∧ (d.projection.rows[index.toNat]?.any fun other =>
          other.tableBlock == row.tableBlock) then place d index 0 true false s
      -- In front of the first cell there is nothing, and behind the last one the row is left.
      else if backward then (.ok false, s)
      else (plans.leaveTable row s d).run setup s

/-- `_selectAll`: the code of a fence first, and then the document. -/
def selectAll (d : Document) : EditorProgram gs Bool := fun s =>
  match d.caretRow, d.rowAt gs d.selection.base with
  | some row, some first =>
    let whole := d.selection.start == 0 && d.selection.stop == d.source.length &&
      d.selection.start != d.selection.stop
    if !s.selectedCodeScope && !whole && row.fenced && first.index == row.index then
      selects d ⟨row.sourceForDisplay 0, row.sourceForDisplay row.text.length, none⟩
        { s with selectedCodeScope := true }
    else selects d ⟨0, d.source.length, none⟩ { s with selectedCodeScope := false }
  | _, _ => (.error .state, s)

/-! ## History -/

/-- The end of `_undo` and `_redo`: the entry is shown, and history goes to it. -/
def restores (e : HistoryEntry) (next : EditorSnapshot gs) (history : History)
    (s : EditorState gs) : EditorState gs :=
  { s with
    snapshot := next
    pending := if next.document?.isSome then e.state.pending else none
    goalColumn := none
    history := history }

/-- `_undo`. With nothing to undo it does nothing, and is no refused edit. -/
def undo (setup : EditorSetup) : EditorProgram gs Bool := fun s =>
  match s.history.undoTarget with
  | none => (.ok false, { s with inert := true })
  | some target =>
    match s.restoreSnapshot setup target with
    | .error failure => (.error (.parse failure), s)
    | .ok next =>
      let r := s.history.undoState setup.caps s.held
      (.ok true, s.restores (r.1.getD target) next r.2)

/-- `_redo`. -/
def redo (setup : EditorSetup) : EditorProgram gs Bool := fun s =>
  match s.history.redoTarget with
  | none => (.ok false, { s with inert := true })
  | some target =>
    match s.restoreSnapshot setup target with
    | .error failure => (.error (.parse failure), s)
    | .ok next =>
      let r := s.history.redoState setup.caps s.held
      (.ok true, s.restores (r.1.getD target) next r.2)

/-! ## Source mode -/

/-- `_keystroke`. -/
def keystroke (gs : Graphemes) (text : Text) : Bool :=
  text != [0x0A] && (gs.split text).length == 1

/-- `_commit` of the edits of source mode. -/
def commitsSource (setup : EditorSetup) (source : Text) (caret : Int) (coalesce : Bool) :
    EditorProgram gs Bool :=
  onEditor fun ed => ed.commit setup
    ⟨source, .collapsed caret, coalesce, false, none, none, none, false⟩

/-- `_sourceInsert`. -/
def sourceInsert (setup : EditorSetup) (t : SourceSnapshot gs) (text : Text) (typing : Bool) :
    EditorProgram gs Bool :=
  if text = [] then pure false
  else
    commitsSource setup (t.source.replaceRange t.selection.start.toNat t.selection.stop.toNat text)
      (t.selection.start + text.length) (typing && keystroke gs text)

/-- `_sourceReplace`. -/
def sourceReplace (setup : EditorSetup) (t : SourceSnapshot gs) (start stop : Int) (text : Text) :
    EditorProgram gs Bool :=
  let first := min (t.legalize start) (t.legalize stop)
  let last := max (t.legalize start) (t.legalize stop)
  if first = last ∧ text = [] then pure false
  else
    commitsSource setup (t.source.replaceRange first.toNat last.toNat text) (first + text.length)
      false

/-- `_sourceDelete`. -/
def sourceDelete (setup : EditorSetup) (t : SourceSnapshot gs) (backward word : Bool) :
    EditorProgram gs Bool :=
  match t.sourceDelete backward word with
  | none => pure false
  | some c => commitsSource setup c.source c.selection.extent c.coalesce

/-- `_moveSource`. -/
def moveSource (t : SourceSnapshot gs) (forward : Bool) (unit : MoveUnit) (extend : Bool) :
    EditorProgram gs Bool :=
  let r := t.moveSource forward unit extend
  if r.2 then selectsSource t r.1.selection else pure false

/-- `_applySource`. -/
def applySource (setup : EditorSetup) (t : SourceSnapshot gs) : FlarkCommand → EditorProgram gs Bool
  | .insertText text => sourceInsert setup t text true
  | .paste text => sourceInsert setup t text false
  | .deleteBackward word => sourceDelete setup t true word
  | .deleteForward word => sourceDelete setup t false word
  | .newline _ =>
    sourceInsert setup t (CodeEditing.lineBreakAt t.source t.selection.start) false
  | .replaceRange start stop text => sourceReplace setup t start stop text
  | .setSelection base extent => selectsSource t ⟨base, extent, none⟩
  | .selectAll => selectsSource t ⟨0, t.source.length, none⟩
  | .moveCaret forward unit extend => moveSource t forward unit extend
  | .undo => undo setup
  | .redo => redo setup
  -- The commands of rows, tables and formatting do nothing to a source shown as such.
  | .moveTableCell _ | .placeCaret .. | .toggleTask | .toggleStyle _ | .setStyle ..
  | .setHeadingLevel _ | .setCodeLanguage _ | .setLink .. | .setImage .. | .removeLink
  | .removeImage | .indent | .outdent => pure false

/-! ## Live commands -/

/-- `_applyLive`. -/
def applyLive (setup : EditorSetup) (plans : EditorPlans gs) (d : Document) :
    FlarkCommand → EditorProgram gs Bool
  | .setSelection base extent => selects d ⟨base, extent, none⟩
  | .selectAll => selectAll d
  | .placeCaret row offset leadingHalf extend => place d row offset leadingHalf extend
  | .moveCaret forward unit extend => move d forward unit extend
  | .moveTableCell backward => moveTableCell setup plans d backward
  | .undo => undo setup
  | .redo => redo setup
  | .toggleStyle style =>
    onEditor fun ed => ed.setStyle setup d style ((ed.styleState style).value != .on)
  | .setStyle style enabled => onEditor fun ed => ed.setStyle setup d style enabled
  | .newline paragraph => fun s =>
    match plans.newline paragraph s d with
    | .edits plan => plan.run setup s
    | .places row => place d row 0 true false s
  -- The other commands plan an edit, which is committed, selected or refused.
  | c => fun s => (plans.edit c s d).run setup s

/-- A command that edits, if it does, through plans only. -/
def plannedEdit : FlarkCommand → Bool
  | .insertText _ | .paste _ | .setLink .. | .setImage .. | .replaceRange .. => true
  | _ => false

/-! ## Unwritten cells -/

/-- What an editor sets aside, and puts back whole (`_EditState`). -/
def withEditState (s saved : EditorState gs) : EditorState gs :=
  { s with
    snapshot := saved.snapshot
    pending := saved.pending
    goalColumn := saved.goalColumn
    selectedCodeScope := saved.selectedCodeScope
    composition := saved.composition
    composed := saved.composed
    cellOrigin := saved.cellOrigin
    history := saved.history }

/-- The loop back to the first of the unwritten cells of a row. -/
def firstMissing (p : Projection) : (index : Nat) → Nat
  | 0 => 0
  | i + 1 => if p.isMissingCell (some (i : Int)) then firstMissing p i else i + 1

/-- The source with the delimiters of an unwritten cell, and the caret in it. A row without its
    closing pipe gets one, and a backslash that would escape a pipe a space. -/
def materialized (source : Text) (p : Projection) (row : ProjectedRow) (index : Nat) : Text × Int :=
  let firstColumn := (p.rows[firstMissing p index]?.map ProjectedRow.column).getD row.column
  let count := row.column - firstColumn + 1
  let at_ := row.sourceStart
  let closingPipe := decide (at_ < source.length) && source.codeUnitAt at_ == 0x7C
  let escapes := !closingPipe && decide (0 < at_) && source.codeUnitAt (at_ - 1) == 0x5C
  let lead : Text :=
    (if escapes then [0x20] else []) ++ (List.replicate count.toNat [0x7C, 0x20]).flatten
  (source.replaceRange at_.toNat at_.toNat (lead ++ if closingPipe then [] else [0x7C]),
    at_ + lead.length)

/-- A command that has nothing to take from an unwritten cell. -/
def deletes : FlarkCommand → Bool
  | .deleteBackward _ | .deleteForward _ | .removeLink | .removeImage => true
  | _ => false

/-- The command as it is made of the cell that was prepared, if a cell is prepared for it. -/
def cellEdit (caret : Int) : FlarkCommand → Option (Int → FlarkCommand)
  | .replaceRange start stop text =>
    if start = caret ∧ stop = caret then some fun caret => .replaceRange caret caret text else none
  | c => if plannedEdit c then some fun _ => c else none

/-- `FlarkDocument.load`: it throws for a source that breaks the contract. -/
def load (gs : Graphemes) (setup : EditorSetup) (text : Text) (caret : Int) :
    Except EditorFailure Document :=
  if !validateFlarkSource text then .error .state
  else
    match setup.parse text with
    | .error failure => .error (.parse failure)
    | .ok m => .ok (Document.project gs text m (.collapsed caret) setup.options none)

/-- The end of `_withMissingCell`: what was not applied is put back, and a deviation is a
    refusal. -/
def closeCell (before : EditorState gs) :
    Except EditorFailure Bool × EditorState gs → Except EditorFailure Bool × EditorState gs
  | (.ok true, s) => (.ok true, { s with cellOrigin := none })
  | (.error (.parse .extractionDeviation), s) =>
    (.ok false, { s.withEditState before with lastRejection := some .extractionDeviation })
  | (r, s) => (r, s.withEditState before)

/-- `_withMissingCell`. -/
def withMissingCell (setup : EditorSetup) (plans : EditorPlans gs) (d : Document)
    (c : FlarkCommand) : EditorProgram gs Bool := fun s =>
  match d.selection.tableCell with
  | none => applyLive setup plans d c s
  | some index =>
    if deletes c then (.ok false, s)
    else
      match cellEdit d.selection.extent c with
      | none => applyLive setup plans d c s
      | some edit =>
        match d.projection.rows[index.toNat]? with
        | none => (.error .state, s)
        | some row =>
          -- The cell is written into the source first, and the command applied to that.
          let (text, caret) := materialized d.source d.projection row index.toNat
          if setup.sourceLimit < (SourceStats.of text).utf8Bytes then
            (.ok false, { s with lastRejection := some .sourceLimit })
          else
            let opened := { s with cellOrigin := some s.snapshot }
            closeCell s <|
              match load gs setup text caret with
              | .error failure => (.error failure, opened)
              | .ok prepared =>
                applyLive setup plans prepared (edit prepared.selection.extent)
                  { opened with snapshot := .live prepared }

end EditorState

end Flark
