import Flark.Text

/-!
# Rows

The rows of a projection, what a host draws: a row's text, the segments that map display
ranges back to source ranges, and for every line of the row where the caret may sit. As in
the source, an offset or an index that is absent is -1.
-/

namespace Flark

/-! ## Inline style bits carried by a segment -/

namespace Style

def emphasis : Nat := 1
def strong : Nat := 2
def code : Nat := 4
def strikethrough : Nat := 8
def link : Nat := 16
def image : Nat := 32
def footnoteRef : Nat := 64
def htmlInline : Nat := 128

end Style

inductive RowKind
  | paragraph
  | heading
  | codeBlock
  | htmlBlock
  | thematicBreak
  | tableCell
  | definition
  | blank
  deriving DecidableEq, Inhabited, Repr

inductive ShellKind
  | blockQuote
  | list
  | item
  | footnoteDefinition
  deriving DecidableEq, Inhabited, Repr

/-- A container above a row: quotes, lists and their items, footnote definitions. -/
structure Shell where
  kind : ShellKind
  block : Nat
  ordered : Bool := false
  start : Nat := 1
  tight : Bool := true
  task : Bool := false
  checked : Bool := false
  /-- UTF-16 range of the task checkbox `[x]`, or -1. -/
  checkboxStart : Int := -1
  checkboxEnd : Int := -1
  /-- Position of an item among its list's items. -/
  itemIndex : Nat := 0
  deriving DecidableEq, Inhabited, Repr

/-- One piece of a row's display text and the source it stands for. -/
structure Segment where
  displayStart : Nat
  displayEnd : Nat
  /-- UTF-16 source range. Exact segments map offsets one to one. -/
  sourceStart : Int
  sourceEnd : Int
  styles : Nat
  exact : Bool
  /-- The leaf run this text came from, or -1 for a line break or gap. -/
  run : Int := -1
  /-- A line break between two source lines of the row. -/
  lineBreak : Bool := false
  deriving DecidableEq, Inhabited, Repr

structure ProjectedRow where
  /-- Position in the rows of the projection. -/
  index : Nat := 0
  /-- The index of the row of the earlier projection that this one was taken from; -1 for a
      row built anew. Provenance, not content. -/
  origin : Int := -1
  kind : RowKind
  /-- The block this row projects, or -1. -/
  block : Int
  firstLine : Nat
  lineCount : Nat
  text : Text
  segments : List Segment
  shells : List Shell
  /-- Extent of the row's own content on its lines, prefixes excluded. -/
  sourceStart : Int
  sourceEnd : Int
  /-- Per line of the row: where the caret may sit, and where the innermost container prefix
      begins. All are -1 for a line the row cannot show. -/
  contentStarts : List Int
  contentEnds : List Int
  prefixStarts : List Int
  headingLevel : Nat := 0
  fenced : Bool := false
  codeInfoStart : Int := -1
  codeInfoEnd : Int := -1
  tableBlock : Int := -1
  tableRowBlock : Int := -1
  column : Int := -1
  header : Bool := false
  alignment : Nat := 0
  deriving DecidableEq, Inhabited, Repr

namespace ProjectedRow

/-- What a row shows, without where it came from and stands. -/
def content (row : ProjectedRow) : ProjectedRow := { row with index := 0, origin := -1 }

/-- A row without the row of the earlier projection that it was taken from. -/
def withoutOrigin (row : ProjectedRow) : ProjectedRow := { row with origin := -1 }

/-- A fenced code block with no body line. -/
def bodyless (row : ProjectedRow) : Bool := row.fenced && row.contentStarts.all (· < 0)

/-- A table's delimiter line shown as its source. -/
def delimiterSource (row : ProjectedRow) : Bool :=
  row.kind == .tableCell && decide (row.tableRowBlock < 0)

/-- A row inside a block quote. -/
def quoted (row : ProjectedRow) : Bool := row.shells.any (·.kind == .blockQuote)

/-- `samePresentation`: a host's layout of one row paints the other. Source offsets, and what a
    host reads of the containers, may differ. -/
def samePresentation (row other : ProjectedRow) : Bool :=
  row.kind == other.kind &&
    row.text == other.text &&
    row.headingLevel == other.headingLevel &&
    row.header == other.header &&
    row.alignment == other.alignment &&
    row.quoted == other.quoted &&
    row.segments.length == other.segments.length &&
    (row.segments.zip other.segments).all fun (a, b) =>
      a.displayStart == b.displayStart && a.displayEnd == b.displayEnd && a.styles == b.styles

end ProjectedRow

/-- A table cell's place in its table, which its own records do not determine. -/
structure CellFields where
  tableBlock : Int := -1
  tableRowBlock : Int := -1
  column : Int := -1
  header : Bool := false
  alignment : Nat := 0
  deriving DecidableEq, Inhabited, Repr

/-! ## Reuse -/

/-- An offset of a reused row; absent offsets stay absent. -/
def moveOffset (delta offset : Int) : Int := if offset < 0 then offset else offset + delta

/-- A segment of a reused row. -/
def Segment.moved (delta runDelta : Int) (s : Segment) : Segment :=
  { s with
    sourceStart := s.sourceStart + delta
    sourceEnd := s.sourceEnd + delta
    run := if s.run < 0 then s.run else s.run + runDelta }

/-- `_reused`: a row taken over by a later projection, with source offsets moved by `delta`
    and run indexes by `runDelta`, and the placement and container fields of its new block.
    (The host shares the lists when nothing moves.) -/
def ProjectedRow.reused (row : ProjectedRow) (index : Nat) (block : Int) (firstLine : Nat)
    (shells : List Shell) (delta runDelta : Int) (cell : CellFields) : ProjectedRow where
  index := index
  origin := row.index
  kind := row.kind
  block := block
  firstLine := firstLine
  lineCount := row.lineCount
  text := row.text
  segments := row.segments.map (Segment.moved delta runDelta)
  shells := shells
  sourceStart := row.sourceStart + delta
  sourceEnd := row.sourceEnd + delta
  contentStarts := row.contentStarts.map (moveOffset delta)
  contentEnds := row.contentEnds.map (moveOffset delta)
  prefixStarts := row.prefixStarts.map (moveOffset delta)
  headingLevel := row.headingLevel
  fenced := row.fenced
  codeInfoStart := moveOffset delta row.codeInfoStart
  codeInfoEnd := moveOffset delta row.codeInfoEnd
  tableBlock := cell.tableBlock
  tableRowBlock := cell.tableRowBlock
  column := cell.column
  header := cell.header
  alignment := cell.alignment

structure ProjectionOptions where
  /-- A source newline inside a paragraph stays a line break. -/
  softBreakAsNewline : Bool := true
  /-- A table with no body rows shows its delimiter row as its source. -/
  editableDelimiterRows : Bool := true
  deriving DecidableEq, Inhabited, Repr

end Flark
