import Flark.Kernel.Anchors

/-!
# The caret walk

Movements of the caret (`_move`, `_place` and `_step` of `kernel/editor.dart`). A step takes the
display offsets in reading order until one has another anchor than the caret's own offset.

* `Document.moveCaret`: what a movement makes of a document;
* `Document.Further`: which of two offsets is further on.
-/

namespace Flark

/-- `MoveUnit`. -/
inductive MoveUnit
  | grapheme
  | word
  | line
  | row
  deriving DecidableEq, Repr

namespace Document

/-! ## Movements -/

section

variable (gs : Graphemes) (d : Document)

/-- `_place`: the selection that a press at a display offset of a row asks for; none where there
    is no row. -/
def placeSelection (rowIndex offset : Int) (leadingHalf extend : Bool) :
    Option (Option Selection) :=
  if d.projection.rows.isEmpty then some none
  else
    let i := max 0 (min rowIndex (d.projection.rows.length - 1))
    (d.projection.rows[i.toNat]?).bind fun row =>
      -- An unwritten cell has a caret of its own.
      if d.projection.isMissingCell (some (row.index : Int)) &&
          (!extend || d.selection.base == row.sourceStart) then
        some (some (.cell row.sourceStart row.index))
      else
        (d.pointerAnchorAt gs row.index offset leadingHalf).map fun target =>
          some (if extend then d.extendedTo gs target else .collapsed target)

/-- The offset that a movement by a unit takes the caret to from a display offset of a row; a
    movement by rows can have none. -/
def moveTarget (goalColumn : Option Int) (row : ProjectedRow) (offset : Int) (forward : Bool) :
    MoveUnit → Option (Option Int)
  | .grapheme => (d.step gs row offset forward d.selection.extent).map some
  | .word =>
    let t := if forward then row.text.wordEnd offset else row.text.wordStart offset
    (if t = offset then d.step gs row offset forward d.selection.extent
      else d.anchorFor gs row t forward).map some
  | .line =>
    -- The edges of a row take the outermost anchor, so that the caret leaves a span there.
    let anchors := if forward then d.anchorsAt gs (row.sourceForDisplay row.text.length .before)
      else d.anchorsAt gs (row.sourceForDisplay 0 .after)
    (if forward then anchors.getLast? else anchors.head?).map some
  | .row => d.landing gs forward (goalColumn.getD offset) row.index d.projection.rows.length
      (d.rowAfter row.index forward)

/-- `_move`: the selection that a movement asks for, if any; outside, `none` is the throw of a
    document without rows, or of a place without an anchor. -/
def moveSelection (goalColumn : Option Int) (forward : Bool) (unit : MoveUnit) (extend : Bool) :
    Option (Option Selection) :=
  let sel := d.selection
  d.caretPosition.bind fun pos => (d.projection.rows[pos.row]?).bind fun row =>
    let other := d.rowAfter row.index forward
    if sel.tableCell.isSome then
      -- From an unwritten cell the movement goes on to the next row.
      if unit = .line then some none
      else
        match other with
        | none => some none
        | some other =>
          d.placeSelection gs other.index (if forward then 0 else other.text.length) forward extend
    else
      -- At the edge of a row an unwritten cell behind it is the next stop.
      let edge := sel.isCollapsed && decide (unit ≠ .line) &&
        (if forward then pos.offset == row.text.length else pos.offset == 0)
      match other.filter fun r => edge && d.projection.isMissingCell (some (r.index : Int)) with
      | some cell => d.placeSelection gs cell.index 0 forward extend
      | none =>
        -- A selection collapses to its end in the direction of the movement.
        let target := if !extend && !sel.isCollapsed && decide (unit = .grapheme) then
            some (some (if forward then sel.stop else sel.start))
          else d.moveTarget gs goalColumn row pos.offset forward unit
        target.map fun target => target.map fun target =>
          if extend then d.extendedTo gs target else .collapsed target

/-- What a movement makes of a document. -/
def moveCaret (goalColumn : Option Int) (forward : Bool) (unit : MoveUnit) (extend : Bool) :
    Option Document :=
  (d.moveSelection gs goalColumn forward unit extend).map fun s =>
    match s with
    | none => d
    | some s => d.withSelection gs s

end

/-! ## Display offsets in reading order -/

section

variable (gs : Graphemes) (d : Document)

/-- The source offset of a display offset that is reached from the side given, made legal. -/
def legalAt (forward : Bool) (a : ProjectedRow × Int) : Int :=
  d.projection.legalize gs (a.1.sourceForDisplay a.2 (if forward then .before else .after))

/-- One offset is further on than the other. -/
def Further (forward : Bool) (x y : Int) : Prop := if forward then x < y else y < x

/-- The caret is collapsed, at a legal offset. -/
def AtCaret : Prop :=
  d.selection = .collapsed d.selection.extent ∧
    d.projection.isLegal gs d.selection.extent = true

end

end Document

end Flark
