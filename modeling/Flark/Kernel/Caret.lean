import Flark.Kernel.Document

/-!
# Display positions

Where a source offset shows, and which offsets show at one place (the display positions of
`kernel/projection.dart` and `kernel/document.dart`), with the caret targets that the editor
derives from them.

* `ProjectedRow.sourceForDisplay`, `ProjectedRow.displayForSource`: the two ways through the
  segments of a row;
* `Document.anchorsAt`: the legal offsets that show where an offset does;
* `Document.step`, `Document.pointerAnchorAt`: where a caret movement and a press land.
-/

namespace Flark

/-- The side of hidden bytes that a caret between two segments takes its context from. -/
inductive Anchor
  | before
  | after
  deriving DecidableEq, Repr

/-! ## Rows -/

namespace ProjectedRow

/-- The source offset of a display offset that a segment has; at its start the one before can
    claim the caret. -/
def sourceWithin (anchor : Anchor) (o : Int) (previous : Option Segment) (s : Segment) : Int :=
  match previous.filter fun _ => decide (o = s.displayStart) && decide (anchor = .before) with
  | some p => p.sourceEnd
  | none =>
    if s.exact then s.sourceStart + (o - s.displayStart)
    else if o = s.displayStart then s.sourceStart
    else if o = s.displayEnd then s.sourceEnd
    else if anchor = .before then s.sourceStart
    else s.sourceEnd

/-- The source offset between a segment and the next. -/
def sourceBetween (anchor : Anchor) (s : Segment) (rest : List Segment) : Int :=
  match anchor with
  | .before => s.sourceEnd
  | .after => (rest.head?.map Segment.sourceStart).getD s.sourceEnd

/-- The loop of `sourceForDisplay` over the segments, with the one before. -/
def sourceIn (anchor : Anchor) (o : Int) : (previous : Option Segment) → List Segment → Option Int
  | _, [] => none
  | previous, s :: rest =>
    if o < s.displayEnd ∨ (o = s.displayEnd ∧ rest = []) then
      some (sourceWithin anchor o previous s)
    else if o = s.displayEnd then some (sourceBetween anchor s rest)
    else sourceIn anchor o (some s) rest

/-- `sourceForDisplay`: the source offset of a display offset. -/
def sourceForDisplay (row : ProjectedRow) (offset : Int) (anchor : Anchor := .after) : Int :=
  match row.segments.getLast? with
  | none => if row.bodyless then row.sourceEnd else row.sourceStart
  | some last =>
    let o := max 0 (min offset row.text.length)
    (sourceIn anchor o none row.segments).getD last.sourceEnd

/-- The loop of `displayForSource`. -/
def displayIn (source : Int) : List Segment → Option (Int × Bool)
  | [] => none
  | s :: rest =>
    if source < s.sourceStart then some (s.displayStart, true)
    -- A segment of no width and the one after it can share an offset, which the later owns.
    else if source = s.sourceEnd ∧ (rest.head?.any fun next => next.sourceStart == source) then
      displayIn source rest
    else if source ≤ s.sourceEnd then
      if s.exact then some (s.displayStart + (source - s.sourceStart), false)
      else if source = s.sourceStart then some (s.displayStart, false)
      else if source = s.sourceEnd then some (s.displayEnd, false)
      else some (s.displayEnd, true)
    else displayIn source rest

/-- `displayForSource`: the display offset of a source offset, and whether it was moved out of
    a hidden range. -/
def displayForSource (row : ProjectedRow) (source : Int) : Int × Bool :=
  match row.segments.getLast? with
  | none => (0, false)
  | some last =>
    (displayIn source row.segments).getD (row.text.length, decide (last.sourceEnd < source))

end ProjectedRow

/-! ## Projections -/

/-- `DisplayPosition`. -/
structure DisplayPosition where
  row : Nat
  offset : Int
  snapped : Bool := false
  deriving DecidableEq, Repr

namespace Projection

variable (p : Projection)

def rowIndexesOnLine (line : Nat) : List Nat := p.rowsByLine.getD line []

/-- The last row of the nearest line above that shows one. -/
def lastRowBefore : (line : Nat) → Option Nat
  | 0 => none
  | line + 1 => (p.rowIndexesOnLine line).getLast?.or (lastRowBefore line)

/-- Of several rows on a line, the one that spans the offset, else the nearest; `best` so far.
    A cell that the source never wrote spans only when the selection names it. -/
def bestRow (source : Int) : (candidates : List Nat) → (best : Nat) → Nat
  | [], best => best
  | r :: candidates, best =>
    match p.rows[r]? with
    | none => bestRow source candidates best
    | some row =>
      if p.isMissingCell (some (r : Int)) then bestRow source candidates best
      else if row.sourceStart ≤ source ∧ source ≤ row.sourceEnd then r
      else bestRow source candidates (if row.sourceEnd < source then r else best)

/-- `displayForSource`: where a source offset shows. -/
def displayForSource (source : Int) (tableCell : Option Int) : Option DisplayPosition :=
  match tableCell with
  | some cell =>
    if p.isMissingCell (some cell) ∧
        (p.rows[cell.toNat]?.any fun row => row.sourceStart == source) then
      some ⟨cell.toNat, 0, false⟩
    else onLine
  | none => onLine
where
  onLine : Option DisplayPosition :=
    let line := (p.model.lineAt source).toNat
    match p.rowIndexesOnLine line with
    | [] =>
      match p.lastRowBefore line with
      | some r => some ⟨r, ((p.rows[r]?.map fun row => row.text.length).getD 0 : Nat), true⟩
      | none => if p.rows.isEmpty then none else some ⟨0, 0, true⟩
    | first :: rest =>
      let best := p.bestRow source (first :: rest) first
      (p.rows[best]?).map fun row =>
        ⟨best, (row.displayForSource source).1, (row.displayForSource source).2⟩

end Projection

/-! ## Documents -/

namespace Document

variable (gs : Graphemes) (d : Document)

/-- `displayOf`. -/
def displayOf (offset : Int) : DisplayPosition :=
  (d.projection.displayForSource (d.projection.legalize gs offset) none).getD ⟨0, 0, false⟩

/-- `rowAt`: the row that holds a source offset. -/
def rowAt (offset : Int) : Option ProjectedRow := d.projection.rows[(d.displayOf gs offset).row]?

/-- `caretPosition`: the caret keeps the address of an unwritten cell apart from its source. -/
def caretPosition : Option DisplayPosition :=
  d.projection.displayForSource d.selection.extent d.selection.tableCell

def caretRow : Option ProjectedRow := d.caretPosition.bind fun pos => d.projection.rows[pos.row]?

/-- The offsets that hidden intervals link to those seen, each taken from the queue once. -/
def linked (hidden : List (Int × Int)) : (fuel : Nat) → (seen queue : List Int) → List Int
  | 0, seen, _ => seen
  | _, seen, [] => seen
  | fuel + 1, seen, x :: queue =>
    let across := (hidden.filterMap fun q =>
      if q.2 = x then some q.1 else if q.1 = x then some q.2 else none).dedup.filter (· ∉ seen)
    linked hidden fuel (seen ++ across) (across ++ queue)

/-- `anchorsAt`: the legal offsets that show where an offset does, in order. -/
def anchorsAt (offset : Int) : List Int :=
  let o := d.projection.legalize gs offset
  let pos := d.displayOf gs o
  let hidden := d.projection.hiddenPairs
  ((linked hidden (2 * hidden.length + 1) [o] [o]).filter fun x =>
    d.projection.isLegal gs x && (d.displayOf gs x).row == pos.row &&
      (d.displayOf gs x).offset == pos.offset).insertionSort (· ≤ ·)

/-- `pointerAnchorAt`: the offset a press takes its context from. Beside white space or the end
    of the row it is the word's side. -/
def pointerAnchorAt (rowIndex : Nat) (offset : Int) (leadingHalf : Bool) : Option Int := do
  let row ← d.projection.rows[rowIndex]?
  let at' := max 0 (min offset row.text.length)
  let beforeSpace := at' == 0 || Text.isSpace (row.text.codeUnitAt (at' - 1))
  let afterSpace := at' == row.text.length || Text.isSpace (row.text.codeUnitAt at')
  let fromRight := if beforeSpace != afterSpace then beforeSpace else leadingHalf
  let anchors := d.anchorsAt gs (row.sourceForDisplay at' (if fromRight then .after else .before))
  if fromRight then anchors.getLast? else anchors.head?

/-- `_anchorFor`: the anchor for a display offset when arriving from the direction given. -/
def anchorFor (row : ProjectedRow) (offset : Int) (forward : Bool) : Option Int :=
  let anchors := d.anchorsAt gs (row.sourceForDisplay offset (if forward then .before else .after))
  if forward then anchors.head? else anchors.getLast?

/-- `_rowAfter`. -/
def rowAfter (index : Nat) (forward : Bool) : Option ProjectedRow :=
  if forward then d.projection.rows[index + 1]?
  else if index = 0 then none
  else d.projection.rows[index - 1]?

/-- `_extendedTo`: the selection extended from its base; it collapses where its base shows. -/
def extendedTo (extent : Int) : Selection :=
  let base := d.selection.base
  if extent ∈ d.anchorsAt gs base then .collapsed base else ⟨base, extent, none⟩

/-- `_adjacentAtomicSegment`. -/
def adjacentAtomicSegment (row : ProjectedRow) (displayOffset : Int) (forward : Bool) :
    Option Segment :=
  row.segments.find? fun s =>
    !s.exact && decide (s.sourceStart < s.sourceEnd) && decide (s.displayStart < s.displayEnd) &&
      (if forward then (s.displayStart : Int) == displayOffset
        else (s.displayEnd : Int) == displayOffset)

/-- The display offset one grapheme, or one atomic segment, on. -/
def displayStep (row : ProjectedRow) (offset : Int) (forward : Bool) : Int :=
  match adjacentAtomicSegment row offset forward with
  | some s => if forward then s.displayEnd else s.displayStart
  | none =>
    if forward then offset + gs.firstLength (row.text.drop offset.toNat)
    else offset - ((gs.split (row.text.take offset.toNat)).getLastD []).length

/-- `_step`: one grapheme step, continued until the caret moves. Each turn goes on within the
    row or to the next row, so the rows and their texts bound the turns. -/
def stepFrom (forward : Bool) (cur : Int) : (fuel : Nat) → ProjectedRow → Int → Option Int
  | 0, _, _ => edge
  | fuel + 1, row, offset =>
    if (forward ∧ offset < row.text.length) ∨ (forward = false ∧ 0 < offset) then
      let next := displayStep gs row offset forward
      (d.anchorFor gs row next forward).bind fun target =>
        if target ≠ cur then some target else stepFrom forward cur fuel row next
    else
      match d.rowAfter row.index forward with
      | none => edge
      | some other =>
        let offset : Int := if forward then 0 else other.text.length
        (d.anchorFor gs other offset forward).bind fun target =>
          if target ≠ cur then some target else stepFrom forward cur fuel other offset
where
  edge : Option Int :=
    if forward then (d.anchorsAt gs cur).getLast? else (d.anchorsAt gs cur).head?

def step (row : ProjectedRow) (offset : Int) (forward : Bool) (cur : Int) : Option Int :=
  d.stepFrom gs forward cur
    (d.projection.rows.length + (d.projection.rows.map fun r => r.text.length).sum + 2) row offset

/-- The loop of a vertical movement: the anchor at the goal column of the first row on whose
    anchor is not shown in the caret's own row. `none` outside is the throw of a row without
    an anchor. -/
def landing (forward : Bool) (goal : Int) (index : Nat) :
    (fuel : Nat) → (other : Option ProjectedRow) → Option (Option Int)
  | 0, _ => some none
  | _, none => some none
  | fuel + 1, some other =>
    (d.anchorFor gs other (max 0 (min goal other.text.length)) forward).bind fun candidate =>
      if (d.displayOf gs candidate).row ≠ index then some (some candidate)
      else landing forward goal index fuel (d.rowAfter other.index forward)

end Document

namespace Text

/-- `_isSpace`: the white space that separates the words of a movement. -/
def isWordSpace (u : UInt16) : Bool := u == 0x20 || u == 0x0D || u == 0x0A || u == 0x09

/-- `_wordEnd`. -/
def wordEnd (t : Text) (offset : Int) : Int :=
  let rest := (t.drop offset.toNat).dropWhile isWordSpace
  t.length - (rest.dropWhile fun u => !isWordSpace u).length

/-- `_wordStart`. -/
def wordStart (t : Text) (offset : Int) : Int :=
  let rest := (t.take offset.toNat).reverse.dropWhile isWordSpace
  (rest.dropWhile fun u => !isWordSpace u).length

end Text

end Flark
