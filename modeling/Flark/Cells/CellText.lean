import Flark.Cells.Theme
import Flark.Kernel.Resource

/-!
# Cell text

The text of one row as lines of glyphs in cells, and what comes before each line: the rails
of quotes, the markers of items, the padding of code (`_addText`, `_prefix` and
`_continuation` of `flark_fleury/cell_layout.dart`). Offsets in a row are UTF-16 units;
columns are cells.

A row's lines are made from a `RowInk`, which is all that is read of the row and of the
layout it stands in. Rows that present the same, with the same text before their lines, have
the same ink (`CellSettings.ink_rebind`), and the lines of an ink do not depend on the row
they are of (`CellSettings.inkLines_rebind`): so a layout may lend its lines to the next.
-/

namespace Flark

/-- `' ' * n`. -/
def Text.blanks (n : Int) : Text := List.replicate n.toNat 0x20

@[simp] theorem Text.length_blanks (n : Nat) : (Text.blanks n).length = n := by
  rw [Text.blanks, List.length_replicate, Int.toNat_natCast]

/-- `padRight`. -/
def Text.padRight (t : Text) (width : Int) : Text := t ++ Text.blanks (width - t.length)

structure CellGlyph (CellStyle : Type) where
  text : Text
  col : Int
  width : Int
  start : Nat
  stop : Nat
  style : CellStyle
  deriving DecidableEq

/-- A `CellLine` that is not divided into cells. -/
structure CellFragment (CellStyle : Type) where
  row : Option ProjectedRow
  start : Nat
  linePrefix : Text
  sourceStart : Nat
  glyphs : List (CellGlyph CellStyle)
  left : Int
  right : Int
  rule : Option Text
  blockLeft : Int
  codeEdgeTop : Option Bool
  headingRule : Bool
  headingLabelColumn : Option Int
  caretLine : Bool
  image : Option InlineResource
  imageLabel : Option InlineResource
  stop : Nat
  deriving DecidableEq

namespace CellFragment

variable {CellStyle : Type}

/-- The constructor `CellLine`. -/
def of (row : Option ProjectedRow) (start : Nat) (linePrefix : Text) (sourceStart : Nat) :
    CellFragment CellStyle where
  row := row
  start := start
  linePrefix := linePrefix
  sourceStart := sourceStart
  glyphs := []
  left := 0
  right := 0
  rule := none
  blockLeft := 0
  codeEdgeTop := none
  headingRule := false
  headingLabelColumn := none
  caretLine := true
  image := none
  imageLabel := none
  stop := start

/-- `_rebind`: the same line for an equal row of the next document. -/
def rebind (row : ProjectedRow) (line : CellFragment CellStyle) : CellFragment CellStyle :=
  { line with row := some row }

def editable (line : CellFragment CellStyle) : Bool :=
  line.rule.isNone && line.image.isNone && line.codeEdgeTop.isNone && !line.headingRule

def endColumn (line : CellFragment CellStyle) : Int :=
  match line.glyphs.getLast? with
  | none => line.left + line.linePrefix.length
  | some last => last.col + last.width

end CellFragment

/-- A token of a highlighted text. -/
structure CodeToken where
  start : Int
  stop : Int
  kind : Option String
  deriving DecidableEq

/-- `CodeHighlight`, an object: two are identical when they have the same identity, and so the
    same tokens. -/
structure CodeHighlight where
  identity : Nat
  tokens : List CodeToken
  deriving DecidableEq

/-- What one layout is built for, and the packages it is built with. -/
structure CellSettings (CellStyle CellWidthPolicy : Type) where
  fleury : Fleury CellStyle CellWidthPolicy
  graphemes : Graphemes
  cols : Int
  theme : FlarkCellTheme CellStyle
  policy : CellWidthPolicy

namespace CellSettings

variable {CellStyle CellWidthPolicy : Type} (c : CellSettings CellStyle CellWidthPolicy)

def widthOfText (t : Text) : Nat := c.fleury.widthOfText t c.policy

/-- Three cells beside the document. (Only the rows of a projection have them.) -/
def headingGutter : Nat := if c.theme.headingGutter && decide (8 ≤ c.cols) then 3 else 0

def quoteRail : Text :=
  (if c.widthOfText (Text.ofString "▎") = 1 then Text.ofString "▎" else Text.ofString "|") ++
    Text.blanks (c.theme.quoteIndent - 1)

/-- Some terminals give the bullet two cells. -/
def bullet : Text :=
  if c.widthOfText (Text.ofString "●") = 1 then Text.ofString "● " else Text.ofString "* "

/-- What stands for a glyph wider than its line. -/
def tooWide : Text :=
  if c.widthOfText (Text.ofString "�") = 1 then Text.ofString "�" else Text.ofString "?"

def tableRail : Text :=
  if c.widthOfText (Text.ofString "│") = 1 then Text.ofString "│" else Text.ofString "|"

def edgeTableFrame : Bool :=
  ["🭼", "🭽", "🭾", "🭿", "▏", "▕", "▔", "▁"].all fun glyph =>
    c.widthOfText (Text.ofString glyph) == 1

/-! ## Markers -/

/-- The lists of the items of a document, and the widths of the lists' markers. -/
structure Markers where
  itemLists : Nat → Option Nat
  markerWidths : Nat → Option Int

def rawMarker (shell : Shell) : Text :=
  if shell.task then (if shell.checked then Text.ofString "[x]" else Text.ofString "[ ]")
  else if shell.ordered then Text.ofString (toString (shell.start + shell.itemIndex) ++ ".")
  else c.bullet.trimRight

/-- A turn over the shells of a row; the list is the innermost one met. -/
def measureShell (m : Markers × Option Nat) (shell : Shell) : Markers × Option Nat :=
  let list := if shell.kind = .list then some shell.block else m.2
  match list with
  | none => (m.1, none)
  | some l =>
    if shell.kind = .item then
      let width := (m.1.markerWidths l).getD (c.theme.listIndent - 1)
      ({ itemLists := Function.update m.1.itemLists shell.block (some l)
         markerWidths := Function.update m.1.markerWidths l
          (some (max width (c.rawMarker shell).length)) }, list)
    else (m.1, list)

def measureRow (m : Markers) (row : ProjectedRow) : Markers :=
  (row.shells.foldl c.measureShell (m, none)).1

/-- `_measureMarkers`: over the whole document, before any row is laid out. -/
def measureMarkers (rows : List ProjectedRow) : Markers :=
  rows.foldl c.measureRow ⟨fun _ => none, fun _ => none⟩

def markerFor (m : Markers) (shell : Shell) : Text :=
  let marker := c.rawMarker shell
  let width := ((m.itemLists shell.block).bind m.markerWidths).getD marker.length
  let before := if shell.ordered then width - marker.length else (width - marker.length).tdiv 2
  Text.blanks before ++ marker.padRight (width - before) ++ Text.blanks 1

/-! ## What comes before a line -/

/-- A turn over the shells of a row: an item not seen before shows its marker. -/
def prefixShell (m : Markers) (st : Text × List Nat) (shell : Shell) : Text × List Nat :=
  match shell.kind with
  | .blockQuote => (st.1 ++ c.quoteRail, st.2)
  | .item =>
    let marker := c.markerFor m shell
    if shell.block ∈ st.2 then (st.1 ++ Text.blanks marker.length, st.2)
    else (st.1 ++ marker, shell.block :: st.2)
  | _ => st

def codeIndent (row : ProjectedRow) : Text :=
  if row.kind = .codeBlock then Text.blanks c.theme.codePaddingColumns else []

/-- `_prefix`: the text before the first line of a row, and the items seen. -/
def rowPrefix (m : Markers) (seenItems : List Nat) (row : ProjectedRow) : Text × List Nat :=
  let st := row.shells.foldl (c.prefixShell m) (Text.blanks c.headingGutter, seenItems)
  (st.1 ++ c.codeIndent row, st.2)

def continuedShell (m : Markers) (shell : Shell) : Text :=
  match shell.kind with
  | .blockQuote => c.quoteRail
  | .item => Text.blanks (c.markerFor m shell).length
  | _ => []

/-- The rails that continue, and blanks for the markers that do not. -/
def continued (m : Markers) (row : ProjectedRow) : Text :=
  Text.blanks c.headingGutter ++ row.shells.flatMap (c.continuedShell m) ++ c.codeIndent row

/-- `_continuation`: the text before a wrapped line. -/
def continuation (m : Markers) (linePrefix : Text) : (row : Option ProjectedRow) → Text
  | none => Text.blanks linePrefix.length
  | some row =>
    if (c.continued m row).length = linePrefix.length then c.continued m row
    else Text.blanks linePrefix.length

/-- A row's prefix is as long as what continues of it. -/
theorem length_rowPrefix (m : Markers) (seenItems : List Nat) (row : ProjectedRow) :
    (c.rowPrefix m seenItems row).1.length = (c.continued m row).length := by
  have hshells : ∀ (shells : List Shell) (st : Text × List Nat),
      (shells.foldl (c.prefixShell m) st).1.length =
        (st.1 ++ shells.flatMap (c.continuedShell m)).length := by
    intro shells
    induction shells with
    | nil =>
      intro st
      rw [List.foldl_nil, List.flatMap_nil, List.append_nil]
    | cons shell shells ih =>
      intro st
      have hshell : (c.prefixShell m st shell).1.length =
          st.1.length + (c.continuedShell m shell).length := by
        unfold prefixShell continuedShell
        cases shell.kind
        case item =>
          dsimp only
          split <;> simp only [List.length_append, Text.length_blanks]
        all_goals simp
      rw [List.foldl_cons, ih, List.length_append, hshell, List.flatMap_cons, List.length_append,
        List.length_append, Nat.add_assoc]
  simp only [rowPrefix, continued, hshells, List.length_append]

/-! ## Styles -/

/-- What the style of a glyph is read off: the range a segment displays and its styles. -/
structure SegmentStyle where
  displayStart : Nat
  displayEnd : Nat
  styles : Nat
  deriving DecidableEq

/-- The style under everything, and the tokens and segments not passed yet. They advance
    together with the glyphs. -/
structure Styles (CellStyle : Type) where
  base : CellStyle
  tokens : List CodeToken
  segments : List SegmentStyle

def baseStyle (row : ProjectedRow) : CellStyle :=
  let fl := c.fleury
  let base := if row.header then fl.merge c.theme.body c.theme.tableHeader else c.theme.body
  let base :=
    if row.kind = .heading then
      fl.merge (fl.merge (c.theme.headingSurface fl row.headingLevel) c.theme.heading)
        (c.theme.headingFor fl row.headingLevel).style
    else base
  let base := if row.quoted then fl.merge base c.theme.quote else base
  if row.kind = .codeBlock then fl.merge base c.theme.code else base

/-- `_stylesFor`. -/
def stylesFor (row : Option ProjectedRow) (colors : Option CodeHighlight) : Styles CellStyle :=
  match row with
  | none => ⟨c.theme.body, [], []⟩
  | some row =>
    { base := c.baseStyle row
      tokens := (colors.map CodeHighlight.tokens).getD []
      segments := row.segments.map fun s => ⟨s.displayStart, s.displayEnd, s.styles⟩ }

/-- The colour of a token over a style. -/
def tokenStyle (style : CellStyle) (token : CodeToken) : CellStyle :=
  c.fleury.merge style
    (((codeSyntaxRole token.kind).bind c.theme.syntaxStyles.lookup).getD c.fleury.none)

/-- The styles of a segment over a style. -/
def segmentStyle (style : CellStyle) (bits : Nat) : CellStyle :=
  let fl := c.fleury
  let style :=
    if bits &&& Style.strong ≠ 0 then fl.merge style (fl.style { bold := some true }) else style
  let style :=
    if bits &&& Style.emphasis ≠ 0 then fl.merge style (fl.style { italic := some true }) else style
  let style :=
    if bits &&& Style.strikethrough ≠ 0 then
      fl.merge style (fl.style { strikethrough := some true })
    else style
  let style := if bits &&& Style.code ≠ 0 then fl.merge style c.theme.code else style
  if bits &&& (Style.link ||| Style.image) ≠ 0 then fl.merge style c.theme.link else style

/-- The style of the glyph at an offset, and the styles of the glyphs after it. -/
def styleFor (st : Styles CellStyle) (offset : Nat) : CellStyle × Styles CellStyle :=
  let tokens := st.tokens.dropWhile fun token => decide (token.stop ≤ (offset : Int))
  let segments := st.segments.dropWhile fun segment => decide (segment.displayEnd ≤ offset)
  -- The colour of the code token, and over that the styles of the segment.
  let style :=
    match tokens.head? with
    | some token => if token.start ≤ (offset : Int) then c.tokenStyle st.base token else st.base
    | none => st.base
  let style :=
    match segments.head? with
    | some segment =>
      if segment.displayStart ≤ offset then c.segmentStyle style segment.styles else style
    | none => style
  (style, { st with tokens := tokens, segments := segments })

/-! ## Ink -/

/-- What the lines of a text are made from. -/
structure RowInk (CellStyle : Type) where
  row : Option ProjectedRow
  /-- The part of the text that is painted. -/
  painted : Text
  /-- The length of the text. -/
  length : Nat
  linePrefix : Text
  /-- What comes before the lines after the first. -/
  continued : Text
  /-- What comes before the line above code. -/
  edgePrefix : Text
  sourceStart : Nat
  cols : Int
  code : Bool
  heading : Option (FlarkHeadingStyle CellStyle)
  inlineLevel : Bool
  blockLeft : Int
  styles : Styles CellStyle

/-- The end of a table cell's text without the padding that no leaf has: projection gaps keep
    it addressable. -/
def trimPadding (text : Text) : (segments : List Segment) → (paintedEnd : Nat) → Nat
  | [], paintedEnd => paintedEnd
  | segment :: segments, paintedEnd =>
    if segment.displayEnd ≠ paintedEnd ∨ 0 ≤ segment.run ∨
        (text.substring segment.displayStart segment.displayEnd).trim ≠ [] then paintedEnd
    else trimPadding text segments segment.displayStart

def paintedEnd (row : Option ProjectedRow) (text : Text) : Nat :=
  match row with
  | some row =>
    if row.kind = .tableCell then trimPadding text row.segments.reverse text.length
    else text.length
  | none => text.length

/-- The beginning of `_addText`: everything that its lines depend on. -/
def ink (m : Markers) (row : Option ProjectedRow) (text linePrefix : Text) (sourceStart : Nat)
    (outerCols : Int) (colors : Option CodeHighlight) : RowInk CellStyle :=
  let code := row.any fun row => row.kind == .codeBlock
  let heading := row.bind fun row =>
    if row.kind = .heading then some (c.theme.headingFor c.fleury row.headingLevel) else none
  -- The label of a heading's level needs three columns, and is left out where they are not to
  -- spare.
  let inlineLevel := heading.any fun heading =>
    c.headingGutter == 0 && (heading.showLevel || c.theme.headingGutter) &&
      decide (5 ≤ outerCols - linePrefix.length)
  let cols :=
    if code then max 1 (outerCols - c.theme.codePaddingColumns)
    else outerCols - (if inlineLevel then 3 else 0)
  -- Always leave a cell for a caret, even in a deeply nested narrow viewport.
  let short := linePrefix.take (max (cols - 2) 0).toNat
  { row := row
    painted := text.take (paintedEnd row text)
    length := text.length
    linePrefix := short
    continued := c.continuation m short row
    edgePrefix := c.continuation m linePrefix row
    sourceStart := sourceStart
    cols := cols
    code := code
    heading := heading
    inlineLevel := inlineLevel
    blockLeft :=
      if code then
        max 0 (min (linePrefix.length - c.theme.codePaddingColumns) (max 0 (outerCols - 1)))
      else 0
    styles := c.stylesFor row colors }

/-- The walk over the graphemes of a text: the lines before the current one, the current line,
    and where the next glyph stands. -/
structure Pen (CellStyle : Type) where
  lines : List (CellFragment CellStyle)
  line : CellFragment CellStyle
  offset : Nat
  col : Int
  styles : Styles CellStyle

/-- End the current line at the offset and start another one. -/
def Pen.wrap (k : RowInk CellStyle) (pen : Pen CellStyle) (start : Nat) : Pen CellStyle :=
  { pen with
    lines := pen.lines ++ [{ pen.line with stop := pen.offset }]
    line := .of k.row start k.continued k.sourceStart
    col := k.linePrefix.length }

/-- What is painted of a grapheme at a column, and its cells. -/
def glyphFor (k : RowInk CellStyle) (col : Int) (grapheme : Text) : Text × Int :=
  let tab := grapheme == [0x09]
  let safe := if tab then Text.blanks 1 else c.fleury.sanitizeForDisplay grapheme
  let width : Int := if tab then 4 - (col - k.linePrefix.length) % 4 else c.widthOfText safe
  -- A mark with no cell of its own stands on a dotted circle.
  let spaced := Text.ofString "◌" ++ safe
  let (safe, width) := if width = 0 then (spaced, (c.widthOfText spaced : Int)) else (safe, width)
  let capacity := max (k.cols - k.linePrefix.length - 1) 1
  if capacity < width then (if tab then safe else c.tooWide, 1) else (safe, width)

/-- A turn of the loop over the graphemes. -/
def penStep (k : RowInk CellStyle) (pen : Pen CellStyle) (grapheme : Text) : Pen CellStyle :=
  let stop := pen.offset + grapheme.length
  if grapheme = [0x0A] ∨ grapheme = [0x0D, 0x0A] then
    -- A line break has no glyph: the next line starts behind it.
    { pen.wrap k stop with offset := stop }
  else
    let glyph := c.glyphFor k pen.col grapheme
    -- A glyph that would take the column left for the caret is put on the next line, unless it is
    -- the first.
    let pen :=
      if k.cols - 1 < pen.col + glyph.2 ∧ pen.line.glyphs ≠ [] then pen.wrap k pen.offset else pen
    let style := c.styleFor pen.styles pen.offset
    { lines := pen.lines
      line := { pen.line with
        glyphs := pen.line.glyphs ++ [⟨glyph.1, pen.col, glyph.2, pen.offset, stop, style.1⟩]
        stop := stop }
      offset := stop
      col := pen.col + glyph.2
      styles := style.2 }

/-- The lines of the text itself. -/
def textLines (k : RowInk CellStyle) : List (CellFragment CellStyle) :=
  let pen := (c.graphemes.split k.painted).foldl (c.penStep k)
    { lines := []
      line := .of k.row 0 k.linePrefix k.sourceStart
      offset := 0
      col := k.linePrefix.length
      styles := k.styles }
  pen.lines ++ [{ pen.line with stop := k.length }]

/-- The column of a heading's level, by the first line in the gutter or after the last one. -/
def headingLabel (k : RowInk CellStyle) (lineCount i : Nat) (line : CellFragment CellStyle) :
    Option Int :=
  if 0 < c.headingGutter then (if i = 0 then some 0 else line.headingLabelColumn)
  else if k.inlineLevel ∧ i + 1 = lineCount then some (line.endColumn + 1)
  else line.headingLabelColumn

def labelLines (k : RowInk CellStyle) (lines : List (CellFragment CellStyle)) :
    List (CellFragment CellStyle) :=
  lines.mapIdx fun i line =>
    { line with
      blockLeft := line.linePrefix.length
      headingLabelColumn := c.headingLabel k lines.length i line }

/-- A heading's lines: the place of its level, and the rule under it. -/
def headingLines (k : RowInk CellStyle) (heading : FlarkHeadingStyle CellStyle)
    (lines : List (CellFragment CellStyle)) : List (CellFragment CellStyle) :=
  if heading.divider then
    c.labelLines k lines ++ [{ CellFragment.of k.row k.length k.continued 0 with
      headingRule := true, caretLine := false, blockLeft := k.linePrefix.length }]
  else c.labelLines k lines

/-- The padding row above or below code. -/
def codeEdge (k : RowInk CellStyle) (top : Bool) (start : Nat) (linePrefix : Text) :
    List (CellFragment CellStyle) :=
  if 0 < c.theme.codePaddingRows then
    [{ CellFragment.of k.row start linePrefix 0 with
      caretLine := false, codeEdgeTop := some top, blockLeft := k.blockLeft }]
  else []

def codeLines (k : RowInk CellStyle) (lines : List (CellFragment CellStyle)) :
    List (CellFragment CellStyle) :=
  c.codeEdge k true 0 k.edgePrefix ++ lines.map (fun line => { line with blockLeft := k.blockLeft }) ++
    c.codeEdge k false k.length k.continued

/-- All lines of an ink. -/
def inkLines (k : RowInk CellStyle) : List (CellFragment CellStyle) :=
  let lines := c.textLines k
  match k.heading with
  | some heading => c.headingLines k heading lines
  | none => if k.code then c.codeLines k lines else lines

/-- `_addText`: the lines that it adds. -/
def addText (m : Markers) (row : Option ProjectedRow) (text linePrefix : Text)
    (sourceStart : Nat) (outerCols : Int) (colors : Option CodeHighlight) :
    List (CellFragment CellStyle) :=
  c.inkLines (c.ink m row text linePrefix sourceStart outerCols colors)

/-! ## Rebinding -/

/-- The same ink for another row. -/
def RowInk.rebind (row : ProjectedRow) (k : RowInk CellStyle) : RowInk CellStyle :=
  { k with row := some row }

def Pen.rebind (row : ProjectedRow) (pen : Pen CellStyle) : Pen CellStyle :=
  { pen with lines := pen.lines.map (CellFragment.rebind row), line := pen.line.rebind row }

theorem Pen.wrap_rebind (k : RowInk CellStyle) (row : ProjectedRow) (pen : Pen CellStyle)
    (start : Nat) : (pen.rebind row).wrap (k.rebind row) start = (pen.wrap k start).rebind row := by
  simp only [Pen.wrap, Pen.rebind, List.map_append, List.map_cons, List.map_nil]
  rfl

theorem penStep_rebind (k : RowInk CellStyle) (row : ProjectedRow) (pen : Pen CellStyle)
    (grapheme : Text) :
    c.penStep (k.rebind row) (pen.rebind row) grapheme = (c.penStep k pen grapheme).rebind row := by
  unfold penStep
  split
  · -- A line break.
    exact congrArg (fun p : Pen CellStyle => { p with offset := pen.offset + grapheme.length })
      (Pen.wrap_rebind k row pen _)
  · have hglyph : c.glyphFor (k.rebind row) (pen.rebind row).col grapheme =
        c.glyphFor k pen.col grapheme := rfl
    simp only [hglyph]
    have hpen : (if (k.rebind row).cols - 1 < (pen.rebind row).col + (c.glyphFor k pen.col grapheme).2 ∧
          (pen.rebind row).line.glyphs ≠ [] then
          (pen.rebind row).wrap (k.rebind row) (pen.rebind row).offset else pen.rebind row) =
        (if k.cols - 1 < pen.col + (c.glyphFor k pen.col grapheme).2 ∧ pen.line.glyphs ≠ [] then
          pen.wrap k pen.offset else pen).rebind row := by
      rw [apply_ite (Pen.rebind row)]
      exact if_congr Iff.rfl (Pen.wrap_rebind k row pen _) rfl
    rw [hpen]
    rfl

theorem textLines_rebind (k : RowInk CellStyle) (row : ProjectedRow) :
    c.textLines (k.rebind row) = (c.textLines k).map (CellFragment.rebind row) := by
  have hwalk : ∀ (graphemes : List Text) (pen : Pen CellStyle),
      graphemes.foldl (c.penStep (k.rebind row)) (pen.rebind row) =
        (graphemes.foldl (c.penStep k) pen).rebind row := by
    intro graphemes
    induction graphemes with
    | nil => exact fun _ => rfl
    | cons grapheme graphemes ih =>
      intro pen
      rw [List.foldl_cons, penStep_rebind, ih, List.foldl_cons]
  rw [textLines, textLines]
  simp only [List.map_append]
  exact congrArg (fun pen : Pen CellStyle => pen.lines ++ [{ pen.line with stop := k.length }])
    (hwalk _ ⟨[], .of k.row 0 k.linePrefix k.sourceStart, 0, k.linePrefix.length, k.styles⟩)

theorem labelLines_rebind (k : RowInk CellStyle) (row : ProjectedRow)
    (lines : List (CellFragment CellStyle)) :
    c.labelLines (k.rebind row) (lines.map (CellFragment.rebind row)) =
      (c.labelLines k lines).map (CellFragment.rebind row) := by
  unfold labelLines
  rw [List.length_map]
  refine List.ext_getElem (by simp) fun i _ _ => ?_
  rw [List.getElem_mapIdx, List.getElem_map, List.getElem_map, List.getElem_mapIdx]
  rfl

theorem headingLines_rebind (k : RowInk CellStyle) (row : ProjectedRow)
    (heading : FlarkHeadingStyle CellStyle) (lines : List (CellFragment CellStyle)) :
    c.headingLines (k.rebind row) heading (lines.map (CellFragment.rebind row)) =
      (c.headingLines k heading lines).map (CellFragment.rebind row) := by
  unfold headingLines
  rw [labelLines_rebind, apply_ite (List.map (CellFragment.rebind row)), List.map_append]
  rfl

theorem codeEdge_rebind (k : RowInk CellStyle) (row : ProjectedRow) (top : Bool) (start : Nat)
    (linePrefix : Text) :
    c.codeEdge (k.rebind row) top start linePrefix =
      (c.codeEdge k top start linePrefix).map (CellFragment.rebind row) := by
  unfold codeEdge
  rw [apply_ite (List.map (CellFragment.rebind row))]
  rfl

theorem codeLines_rebind (k : RowInk CellStyle) (row : ProjectedRow)
    (lines : List (CellFragment CellStyle)) :
    c.codeLines (k.rebind row) (lines.map (CellFragment.rebind row)) =
      (c.codeLines k lines).map (CellFragment.rebind row) := by
  unfold codeLines
  rw [codeEdge_rebind, codeEdge_rebind, List.map_append, List.map_append, List.map_map,
    List.map_map]
  rfl

/-- The lines of an ink do not depend on its row. -/
theorem inkLines_rebind (k : RowInk CellStyle) (row : ProjectedRow) :
    c.inkLines (k.rebind row) = (c.inkLines k).map (CellFragment.rebind row) := by
  unfold inkLines
  rw [textLines_rebind]
  show (match k.heading with
    | some heading => c.headingLines (k.rebind row) heading _
    | none => if k.code then c.codeLines (k.rebind row) _ else _) = _
  cases k.heading with
  | some heading => exact headingLines_rebind c k row heading _
  | none =>
    dsimp only
    rw [codeLines_rebind, apply_ite (List.map (CellFragment.rebind row))]

end CellSettings

/-! ## Rows that present the same -/

namespace ProjectedRow

variable {row other : ProjectedRow}

/-- What rows that present the same have in common. -/
structure Alike (row other : ProjectedRow) : Prop where
  kind : row.kind = other.kind
  text : row.text = other.text
  headingLevel : row.headingLevel = other.headingLevel
  header : row.header = other.header
  alignment : row.alignment = other.alignment
  quoted : row.quoted = other.quoted
  segments : (row.segments.map fun s =>
      CellSettings.SegmentStyle.mk s.displayStart s.displayEnd s.styles) =
    other.segments.map fun s => ⟨s.displayStart, s.displayEnd, s.styles⟩

theorem alike_of_samePresentation (h : row.samePresentation other) : row.Alike other := by
  simp only [samePresentation, Bool.and_eq_true, beq_iff_eq] at h
  obtain ⟨⟨⟨⟨⟨⟨⟨hkind, htext⟩, hlevel⟩, hheader⟩, halign⟩, hquoted⟩, hlen⟩, hall⟩ := h
  refine ⟨hkind, htext, hlevel, hheader, halign, hquoted, ?_⟩
  refine List.ext_getElem (by rw [List.length_map, List.length_map, hlen]) fun i hi hi' => ?_
  rw [List.length_map] at hi hi'
  have hzip : i < (row.segments.zip other.segments).length := by
    rw [List.length_zip]
    exact lt_min hi hi'
  have hpair := List.all_eq_true.1 hall _ (List.getElem_mem hzip)
  rw [List.getElem_zip] at hpair
  simp only [Bool.and_eq_true, beq_iff_eq] at hpair
  rw [List.getElem_map, List.getElem_map, hpair.1.1, hpair.1.2, hpair.2]

end ProjectedRow

namespace CellSettings

variable {CellStyle CellWidthPolicy : Type} (c : CellSettings CellStyle CellWidthPolicy)
  {row other : ProjectedRow}

theorem baseStyle_congr (h : row.Alike other) : c.baseStyle row = c.baseStyle other := by
  simp only [baseStyle, h.kind, h.headingLevel, h.header, h.quoted]

theorem stylesFor_congr (h : row.Alike other) {colors colors' : Option CodeHighlight}
    (hcolors : colors.map CodeHighlight.tokens = colors'.map CodeHighlight.tokens) :
    c.stylesFor (some row) colors = c.stylesFor (some other) colors' := by
  simp only [stylesFor, baseStyle_congr c h, hcolors, h.segments]

/-- Where a prefix is as long as what continues of it, two markers that agree after it agree
    after every shorter one. -/
theorem continuation_congr {m m' : Markers} {linePrefix : Text}
    (hlen : (c.continued m row).length = linePrefix.length)
    (hlen' : (c.continued m' other).length = linePrefix.length)
    (h : c.continuation m linePrefix (some row) = c.continuation m' linePrefix (some other))
    (short : Text) : c.continuation m short (some row) = c.continuation m' short (some other) := by
  rw [continuation, continuation, if_pos hlen, if_pos hlen'] at h
  rw [continuation, continuation, h]

/-- Rows that present the same, after the same text and in the same colours, have the same
    ink. -/
theorem ink_rebind {m m' : Markers} {linePrefix : Text} {colors colors' : Option CodeHighlight}
    (h : row.Alike other) (hkind : row.kind ≠ .tableCell)
    (hcontinuation : ∀ short : Text,
      c.continuation m short (some row) = c.continuation m' short (some other))
    (hcolors : colors.map CodeHighlight.tokens = colors'.map CodeHighlight.tokens)
    (sourceStart : Nat) (outerCols : Int) :
    c.ink m' (some other) other.text linePrefix sourceStart outerCols colors' =
      (c.ink m (some row) row.text linePrefix sourceStart outerCols colors).rebind other := by
  have hpainted : paintedEnd (some row) other.text = paintedEnd (some other) other.text := by
    rw [paintedEnd, paintedEnd, if_neg hkind, if_neg (h.kind ▸ hkind)]
  simp only [ink, RowInk.rebind, Option.any_some, Option.bind_some, hcontinuation, hpainted,
    stylesFor_congr c h hcolors, h.kind, h.text, h.headingLevel]

/-- The lines of such a row are those of the other, rebound. -/
theorem addText_rebind {m m' : Markers} {linePrefix : Text}
    {colors colors' : Option CodeHighlight} (h : row.Alike other) (hkind : row.kind ≠ .tableCell)
    (hcontinuation : ∀ short : Text,
      c.continuation m short (some row) = c.continuation m' short (some other))
    (hcolors : colors.map CodeHighlight.tokens = colors'.map CodeHighlight.tokens)
    (sourceStart : Nat) (outerCols : Int) :
    c.addText m' (some other) other.text linePrefix sourceStart outerCols colors' =
      (c.addText m (some row) row.text linePrefix sourceStart outerCols colors).map
        (CellFragment.rebind other) := by
  rw [addText, ink_rebind c h hkind hcontinuation hcolors, inkLines_rebind, addText]

end CellSettings

end Flark
