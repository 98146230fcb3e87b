import Flark.Cells.CellText
import Mathlib.Data.List.Sort
import Mathlib.Data.List.TakeWhile

/-!
# Cell layout

`CellDocumentLayout` of `flark_fleury/cell_layout.dart`: the lines of a document in a
terminal, its tables and its image previews. A layout records for every row what the row's
lines were made from; the next layout with the same controller, width, theme and policy takes
those lines over for the rows that need no new ones.

A layout does not change once it is built, and changes the lines of no other: it moves only
glyphs of lines that it has just made. So lines are values here.

* `CellDocumentLayout.Chained`: a layout built from another one, that one from another, and so
  on, over whatever documents, widths, themes and policies;
* `CellDocumentLayout.chained_eq_fresh`: its lines, the map from rows to lines and the image
  slots are those of a layout built from none.
-/

namespace Flark

/-! ## Controllers -/

/-- A code highlighter whose tokens depend on the text and the info string only. Each call may
    give another object. -/
structure CodeHighlighter where
  highlight : (call : Nat) → (text info : Text) → CodeHighlight
  deterministic : ∀ i j text info, (highlight i text info).tokens = (highlight j text info).tokens

/-- The controllers of `flark_fleury`: that of an editor, with its code delegate, and that of
    read-only Markdown. -/
inductive FlarkCellController
  | fleury (codeEditing : Option CodeHighlighter)
  | read

namespace FlarkCellController

def languageInfo (d : Document) (row : ProjectedRow) : FlarkCellController → Text
  | fleury _ => (d.codeInfo row).getD []
  | read => []

/-- `colorsFor` a row of a text and an info string. -/
def colorsFor (call : Nat) (text info : Text) : FlarkCellController → Option CodeHighlight
  | fleury codeEditing => codeEditing.map fun delegate => delegate.highlight call text info
  | read => none

/-- The tokens of a row's colours. -/
def tokensFor (controller : FlarkCellController) (kind : RowKind) (text info : Text) :
    Option (List CodeToken) :=
  if kind = .codeBlock then (controller.colorsFor 0 text info).map CodeHighlight.tokens else none

theorem tokens_colorsFor (controller : FlarkCellController) (call : Nat) (text info : Text) :
    (controller.colorsFor call text info).map CodeHighlight.tokens =
      (controller.colorsFor 0 text info).map CodeHighlight.tokens := by
  cases controller with
  | read => rfl
  | fleury codeEditing =>
    rw [colorsFor, colorsFor, Option.map_map, Option.map_map]
    exact congrArg (codeEditing.map ·) (funext fun delegate => delegate.deterministic call 0 text info)

end FlarkCellController

/-! ## The canvas -/

/-- A line of a layout; one of a table is divided into cells. -/
structure CellLine (CellStyle : Type) extends CellFragment CellStyle where
  cells : Option (List (CellFragment CellStyle)) := none
  deriving DecidableEq

def CellLine.fragments {CellStyle : Type} (line : CellLine CellStyle) :
    List (CellFragment CellStyle) :=
  line.cells.getD [line.toCellFragment]

/-- A fixed cell rectangle, independent of the loading of the image. -/
structure CellImageSlot where
  resource : InlineResource
  left : Int
  top : Nat
  width : Int
  height : Int
  deriving DecidableEq

/-- What the rows laid out so far leave to those after them. -/
structure Canvas (CellStyle : Type) where
  lines : List (CellLine CellStyle)
  images : List CellImageSlot
  seenItems : List Nat
  /-- The images that no row has reached. -/
  resources : List InlineResource

namespace CellSettings

variable {CellStyle CellWidthPolicy : Type} (c : CellSettings CellStyle CellWidthPolicy)

def addLines (cv : Canvas CellStyle) (lines : List (CellFragment CellStyle)) : Canvas CellStyle :=
  { cv with lines := cv.lines ++ lines.map fun line => { toCellFragment := line } }

/-! ### Images -/

/-- The images that the loop of `_addImages` passes for a row and shows, and those it
    leaves. -/
def reachImages (row : ProjectedRow) (resources : List InlineResource) :
    List InlineResource × List InlineResource :=
  if c.theme.imagePreviewRows = 0 then ([], resources)
  else
    ((resources.takeWhile fun r => decide (r.contentStart ≤ row.sourceEnd)).filter
        fun r => !decide (r.contentStart < row.sourceStart),
      resources.dropWhile fun r => decide (r.contentStart ≤ row.sourceEnd))

/-- The lines of a preview. -/
def preview (row : ProjectedRow) (left width : Int) (linePrefix : Text)
    (resource : InlineResource) : List (CellFragment CellStyle) :=
  List.replicate c.theme.imagePreviewRows.toNat
    { CellFragment.of (some row) row.text.length linePrefix 0 with
      left := left, right := left + width, image := some resource }

def addPreview (row : ProjectedRow) (left width : Int) (linePrefix : Text)
    (cv : Canvas CellStyle) (resource : InlineResource) : Canvas CellStyle :=
  { addLines cv (c.preview row left width linePrefix resource) with
    images := cv.images ++
      [⟨resource, left, cv.lines.length, width, c.theme.imagePreviewRows⟩] }

/-- `_addImages` below the lines of a row. -/
def addImages (row : ProjectedRow) (left width : Int) (linePrefix : Text)
    (cv : Canvas CellStyle) : Canvas CellStyle :=
  let reached := c.reachImages row cv.resources
  reached.1.foldl (c.addPreview row left width linePrefix) { cv with resources := reached.2 }

/-! ### Tables -/

/-- `_shift`, and the right edge of a table cell. -/
def shift (n : Int) (line : CellFragment CellStyle) : CellFragment CellStyle :=
  { line with
    left := line.left + n
    glyphs := line.glyphs.map fun g => { g with col := g.col + n } }

/-- A table too narrow for columns: the cells below each other, numbered. -/
def addStacked (m : Markers) (linePrefix : Text) (available : Int) (cv : Canvas CellStyle)
    (row : ProjectedRow) : Canvas CellStyle :=
  let number := Text.ofString (toString (row.column + 1))
  let cellPrefix := linePrefix ++ number ++ Text.blanks 1 ++ c.tableRail ++ Text.blanks 1
  let cv := addLines cv (c.addText m (some row) row.text cellPrefix 0 c.cols none)
  c.addImages row (max 0 (min linePrefix.length (c.cols - 1))) (max 1 available) [] cv

/-- The widths of the columns of a table. -/
def columnWidths (available columns : Int) : List Int :=
  (List.range columns.toNat).map fun col =>
    (available - columns - 1).tdiv columns +
      (if (col : Int) < (available - columns - 1) % columns then 1 else 0)

/-- `rule`: a border between the rows of a table. -/
def tableRule (linePrefix : Text) (widths : List Int) (first join last : String) : Text :=
  let ascii := c.tableRail == Text.ofString "|"
  let corner (s : String) := Text.ofString (if ascii then "+" else s)
  let dash := Text.ofString (if ascii then "-" else "─")
  linePrefix ++ corner first ++
    List.intercalate (corner join) (widths.map fun w => (List.replicate w.toNat dash).flatten) ++
    corner last

/-- `frameRule`: the top or bottom edge of a table. -/
def frameRule (linePrefix : Text) (available : Int) (top : Bool) : Text :=
  linePrefix ++ Text.ofString (if top then "🭽" else "🭼") ++
    (List.replicate (available - 2).toNat (Text.ofString (if top then "▔" else "▁"))).flatten ++
    Text.ofString (if top then "🭾" else "🭿")

def addRule (text : Text) (cv : Canvas CellStyle) : Canvas CellStyle :=
  addLines cv [{ CellFragment.of none 0 [] 0 with rule := some text }]

/-- A line of a table cell, aligned in its column. -/
def alignCell (row : ProjectedRow) (left width : Int) (line : CellFragment CellStyle) :
    CellFragment CellStyle :=
  -- One cell of padding and one reserved caret cell at the right edge.
  let used := line.endColumn - 1
  let spare := max 0 (width - 2 - used)
  let align := if row.alignment = 3 then spare else if row.alignment = 2 then spare.tdiv 2 else 0
  { shift (left + align) line with left := left + align, right := left + width }

/-- The lines of the cells of a table row from a column on, and the images they leave. -/
def tableParts (m : Markers) (widths : List Int) :
    (left : Int) → (rows : List ProjectedRow) → (resources : List InlineResource) →
      List (List (CellFragment CellStyle)) × List InlineResource
  | _, [], resources => ([], resources)
  | left, row :: rows, resources =>
    let width := widths.getD row.column.toNat 0
    let wrapped := (c.addText m (some row) row.text (Text.blanks 1) 0 width none).map
      (alignCell row left width)
    let reached := c.reachImages row resources
    let rest := tableParts m widths (left + width + 1) rows reached.2
    ((wrapped ++ reached.1.flatMap (c.preview row left width [])) :: rest.1, rest.2)

/-- The line of a cell at a height; below the last one, an empty line after its end. -/
def fragmentAt (part : List (CellFragment CellStyle)) (y : Nat) : CellFragment CellStyle :=
  match part[y]? with
  | some line => line
  | none =>
    let last := part.getLastD (.of none 0 [] 0)
    { CellFragment.of last.row last.stop [] 0 with
      caretLine := false, left := last.left, right := last.right }

/-- The slot of an image whose preview begins at a height of a cell. -/
def slotAt (top y : Nat) (part : List (CellFragment CellStyle)) : Option CellImageSlot :=
  part[y]?.bind fun line => line.image.bind fun image =>
    if y = 0 ∨ (part[y - 1]?).bind CellFragment.image ≠ some image then
      some ⟨image, line.left, top, line.right - line.left, c.theme.imagePreviewRows⟩
    else none

/-- A line across the cells of a table row. -/
def addTableLine (linePrefix : Text) (rows : List ProjectedRow)
    (parts : List (List (CellFragment CellStyle))) (cv : Canvas CellStyle) (y : Nat) :
    Canvas CellStyle :=
  { cv with
    lines := cv.lines ++ [{ toCellFragment := .of rows.head? 0 linePrefix 0
                            cells := some (parts.map (fragmentAt · y)) }]
    images := cv.images ++ parts.filterMap (c.slotAt cv.lines.length y) }

/-- The rows of a table, each with the border below it. -/
def addTableRows (m : Markers) (linePrefix : Text) (widths : List Int) (middle bottom : Text) :
    (groups : List (List ProjectedRow)) → Canvas CellStyle → Canvas CellStyle
  | [], cv => cv
  | rows :: groups, cv =>
    let parts := c.tableParts m widths (linePrefix.length + 1) rows cv.resources
    let height := (parts.1.map List.length).foldl max 0
    let cv := (List.range height).foldl (c.addTableLine linePrefix rows parts.1)
      { cv with resources := parts.2 }
    addTableRows m linePrefix widths middle bottom groups
      (addRule (if groups.isEmpty then bottom else middle) cv)

/-- `_addTable`. -/
def addTable (m : Markers) (first : ProjectedRow) (rest : List ProjectedRow)
    (cv : Canvas CellStyle) : Canvas CellStyle :=
  let rows := first :: rest
  let columns := (rest.map ProjectedRow.column).foldl max first.column + 1
  let (linePrefix, seenItems) := c.rowPrefix m cv.seenItems first
  let cv := { cv with seenItems := seenItems }
  let available := c.cols - linePrefix.length
  -- A very narrow host stacks cells in source order instead of clipping away later columns.
  if available < columns * 4 + 1 then rows.foldl (c.addStacked m linePrefix available) cv
  else
    let widths := columnWidths available columns
    let top :=
      if c.edgeTableFrame then frameRule linePrefix available true
      else c.tableRule linePrefix widths "┌" "┬" "┐"
    -- The borders below the first row have no marker before them.
    let linePrefix := c.continuation m linePrefix (some first)
    let middle :=
      if c.edgeTableFrame then c.tableRule linePrefix widths "▏" "┼" "▕"
      else c.tableRule linePrefix widths "├" "┼" "┤"
    let bottom :=
      if c.edgeTableFrame then frameRule linePrefix available false
      else c.tableRule linePrefix widths "└" "┴" "┘"
    c.addTableRows m linePrefix widths middle bottom
      (rows.splitBy fun a b => a.tableRowBlock == b.tableRowBlock) (addRule top cv)

end CellSettings

/-! ## Rows and their records -/

/-- `_RowText`: the lines of a row and every input that shaped them. A table cell and a
    standalone image have no lines here, and are laid out every time. -/
structure RowText (CellStyle : Type) where
  row : ProjectedRow
  linePrefix : Text := []
  continuation : Text := []
  info : Text := []
  colors : Option CodeHighlight := none
  lines : Option (List (CellFragment CellStyle)) := none

/-- What a host counts: the calls of code highlighters, and the rows whose text was laid out
    rather than taken over. -/
structure LayoutCounts where
  calls : Nat
  rowLayouts : Nat
  deriving DecidableEq

structure CellBuilding (CellStyle : Type) where
  canvas : Canvas CellStyle
  /-- The records of the rows so far. -/
  rowText : List (RowText CellStyle)
  counts : LayoutCounts

namespace CellSettings

variable {CellStyle CellWidthPolicy : Type} (c : CellSettings CellStyle CellWidthPolicy)
  (controller : FlarkCellController) (d : Document) (m : Markers)

/-- `_sameText`. -/
def sameText (cached : Option (RowText CellStyle)) (row : ProjectedRow) : Bool :=
  cached.any fun t => t.row.samePresentation row

/-- The colours of a row: those of the record of the same text with the same info string, or
    those that the delegate gives for it. -/
def rowColors (row : ProjectedRow) (info : Text) (cached : Option (RowText CellStyle))
    (counts : LayoutCounts) : Option CodeHighlight × LayoutCounts :=
  if row.kind ≠ .codeBlock then (none, counts)
  else
    match cached.filter fun t => t.row.samePresentation row && t.info == info with
    | some t => (t.colors, counts)
    | none => (controller.colorsFor counts.calls row.text info, { counts with calls := counts.calls + 1 })

/-- The lines of a record that a row may take over: every input of `_addText` is unchanged. -/
def reusable (row : ProjectedRow) (linePrefix continuation : Text) (colors : Option CodeHighlight)
    (t : RowText CellStyle) : Option (List (CellFragment CellStyle)) :=
  if t.linePrefix = linePrefix ∧ t.continuation = continuation ∧ t.colors = colors ∧
      t.row.samePresentation row then t.lines
  else none

/-- `_addRowText`: the record of a row, whose lines are added. -/
def rowText (row : ProjectedRow) (linePrefix : Text) (cached : Option (RowText CellStyle))
    (counts : LayoutCounts) : RowText CellStyle × LayoutCounts :=
  let continuation := c.continuation m linePrefix (some row)
  let info := controller.languageInfo d row
  let (colors, counts) := rowColors controller row info cached counts
  match cached.bind (reusable row linePrefix continuation colors) with
  -- The lines of the layout before are taken over, and are now of this row.
  | some lines =>
    (⟨row, linePrefix, continuation, info, colors, some (lines.map (CellFragment.rebind row))⟩,
      counts)
  | none =>
    (⟨row, linePrefix, continuation, info, colors,
        some (c.addText m (some row) row.text linePrefix 0 c.cols colors)⟩,
      { counts with rowLayouts := counts.rowLayouts + 1 })

/-- The image that a row consists of. -/
def standaloneImage (row : ProjectedRow) (resources : List InlineResource) :
    Option InlineResource :=
  if row.shells.isEmpty && decide (0 < c.theme.imagePreviewRows) then
    resources.head?.filter fun image =>
      image.start == row.sourceStart && image.stop == row.sourceEnd
  else none

/-- The lines of the text of a standalone image, below its preview and centred. -/
def imageLabel (row : ProjectedRow) (linePrefix : Text) (left : Int) (image : InlineResource) :
    List (CellFragment CellStyle) :=
  (c.addText m (some row) row.text linePrefix 0 c.cols none).map fun line =>
    shift (max 0 ((c.cols - line.endColumn - left - 1).tdiv 2)) { line with imageLabel := some image }

/-- A row that is not a table cell: the turn of the loop of the constructor. -/
def addRow (b : CellBuilding CellStyle) (row : ProjectedRow) (cached : Option (RowText CellStyle)) :
    CellBuilding CellStyle :=
  let (linePrefix, seenItems) := c.rowPrefix m b.canvas.seenItems row
  let cv := { b.canvas with seenItems := seenItems }
  let left : Nat := (min (linePrefix.length : Int) (max 0 (c.cols - 2))).toNat
  let continued := c.continuation m (linePrefix.take left) (some row)
  match c.standaloneImage row cv.resources with
  -- A row that is one image has its label for text.
  | some image =>
    let cv := c.addImages row left (c.cols - left) continued cv
    { canvas := addLines cv (c.imageLabel m row linePrefix left image)
      rowText := b.rowText ++ [{ row := row }]
      counts := b.counts }
  | none =>
    let (text, counts) := c.rowText controller d m row linePrefix cached b.counts
    let cv := addLines cv (text.lines.getD [])
    { canvas := c.addImages row left (c.cols - left) continued cv
      rowText := b.rowText ++ [text]
      counts := counts }

/-- The rows of a document from the `i`th on, of which the first `skip` are laid out: the rest
    of a table. -/
def addRows (candidate : Nat → Option (RowText CellStyle)) :
    (i skip : Nat) → CellBuilding CellStyle → List ProjectedRow → CellBuilding CellStyle
  | _, _, b, [] => b
  | i, skip + 1, b, row :: rows =>
    addRows candidate (i + 1) skip { b with rowText := b.rowText ++ [{ row := row }] } rows
  | i, 0, b, row :: rows =>
    if row.kind = .tableCell then
      -- All cells of a table are laid out at its first one.
      let rest := rows.takeWhile fun r => r.tableBlock == row.tableBlock
      addRows candidate (i + 1) rest.length
        { canvas := c.addTable m row rest b.canvas
          rowText := b.rowText ++ [{ row := row }]
          counts := b.counts } rows
    else addRows candidate (i + 1) 0 (c.addRow controller d m b row (candidate i)) rows

/-- The number of records that have the text of the row at their place. -/
def matching (before : List (RowText CellStyle)) (rows : List ProjectedRow) : Nat :=
  ((before.zip rows).takeWhile fun (t, row) => sameText (some t) row).length

/-- `candidate`: the record to compare a row with. An edit changes one contiguous run of rows;
    the rest only move, so that rows are matched from both ends. -/
def candidate (before : List (RowText CellStyle)) (rows : List ProjectedRow) (i : Nat) :
    Option (RowText CellStyle) :=
  let head := matching before rows
  let tail := matching (before.drop head).reverse (rows.drop head).reverse
  if i < head then before[i]?
  else if rows.length ≤ i + tail then before[i + before.length - rows.length]?
  else if i + tail < before.length then before[i]?
  else none

end CellSettings

/-! ### Records -/

namespace RowText

variable {CellStyle CellWidthPolicy : Type}

/-- The lines of a record are those that laying its row out gives, after the text that it
    holds, whatever the other rows of its document were: only the lengths of their markers
    are left of them, in what continues of the text. -/
structure Valid (c : CellSettings CellStyle CellWidthPolicy) (controller : FlarkCellController)
    (t : RowText CellStyle) (m : CellSettings.Markers) : Prop where
  kind : t.row.kind ≠ .tableCell
  length : (c.continued m t.row).length = t.linePrefix.length
  continuation : t.continuation = c.continuation m t.linePrefix (some t.row)
  colors : t.colors.map CodeHighlight.tokens = controller.tokensFor t.row.kind t.row.text t.info
  lines : t.lines = some (c.addText m (some t.row) t.row.text t.linePrefix 0 c.cols t.colors)

/-- A record without lines is not of code, and lends nothing; any other is valid. -/
def Lendable (c : CellSettings CellStyle CellWidthPolicy) (controller : FlarkCellController)
    (t : RowText CellStyle) : Prop :=
  t.lines = none ∧ t.row.kind ≠ .codeBlock ∨ ∃ m, t.Valid c controller m

end RowText

namespace CellSettings

variable {CellStyle CellWidthPolicy : Type} {c : CellSettings CellStyle CellWidthPolicy}
  {controller : FlarkCellController} {d : Document} {m : Markers}
  {row : ProjectedRow} {linePrefix : Text} {cached : Option (RowText CellStyle)}
  {counts : LayoutCounts}

/-- The lines of a text depend on the tokens of its colours only. -/
theorem addText_congr {colors colors' : Option CodeHighlight}
    (h : colors.map CodeHighlight.tokens = colors'.map CodeHighlight.tokens)
    (row : Option ProjectedRow) (text linePrefix : Text) (sourceStart : Nat) (outerCols : Int) :
    c.addText m row text linePrefix sourceStart outerCols colors =
      c.addText m row text linePrefix sourceStart outerCols colors' := by
  simp only [addText, ink, stylesFor, h]

/-- A row has the tokens that the delegate gives for it, from wherever its colours are taken. -/
theorem rowColors_tokens (hcached : ∀ t ∈ cached, t.Lendable c controller) (info : Text) :
    (rowColors controller row info cached counts).1.map CodeHighlight.tokens =
      controller.tokensFor row.kind row.text info := by
  rw [rowColors, FlarkCellController.tokensFor]
  by_cases hkind : row.kind = .codeBlock
  · rw [if_neg (not_not.2 hkind), if_pos hkind]
    cases hlent : cached.filter fun t => t.row.samePresentation row && t.info == info with
    | none => exact controller.tokens_colorsFor _ _ _
    | some t =>
      obtain ⟨hmem, hsame⟩ := Option.filter_eq_some_iff.1 hlent
      obtain ⟨hsame, hinfo⟩ := Bool.and_eq_true_iff.1 hsame
      have hinfo := eq_of_beq hinfo
      have halike := ProjectedRow.alike_of_samePresentation hsame
      have hcode := halike.kind.trans hkind
      rcases hcached t hmem with ⟨-, hne⟩ | ⟨m, hvalid⟩
      · exact absurd hcode hne
      · have hcolors := hvalid.colors
        rw [FlarkCellController.tokensFor, if_pos hcode, halike.text, hinfo] at hcolors
        exact hcolors
  · rw [if_pos hkind, if_neg hkind, Option.map_none]

/-- The colours of a row as the delegate's first call gives them: what a layout would paint
    that no other one came before. -/
def freshColors (controller : FlarkCellController) (d : Document) (row : ProjectedRow) :
    Option CodeHighlight :=
  if row.kind = .codeBlock then controller.colorsFor 0 row.text (controller.languageInfo d row)
  else none

theorem tokens_freshColors :
    (freshColors controller d row).map CodeHighlight.tokens =
      controller.tokensFor row.kind row.text (controller.languageInfo d row) := by
  rw [freshColors, FlarkCellController.tokensFor, apply_ite (Option.map CodeHighlight.tokens)]
  rfl

/-- The lines that a record lends a row are the row's own: the record was made from the same
    text, in the same colours and after the same text before it. -/
theorem reusable_lines {colors : Option CodeHighlight} {t : RowText CellStyle}
    {lines : List (CellFragment CellStyle)} (ht : t.Lendable c controller)
    (hlen : (c.continued m row).length = linePrefix.length)
    (h : reusable row linePrefix (c.continuation m linePrefix (some row)) colors t = some lines) :
    lines.map (CellFragment.rebind row) =
      c.addText m (some row) row.text linePrefix 0 c.cols colors := by
  rw [reusable] at h
  split at h
  · next hsame =>
    obtain ⟨rfl, hcontinuation, rfl, hpresents⟩ := hsame
    have halike := ProjectedRow.alike_of_samePresentation hpresents
    rcases ht with ⟨hnone, -⟩ | ⟨m₀, hvalid⟩
    · rw [hnone] at h
      cases h
    · rw [hvalid.lines, Option.some_inj] at h
      rw [hvalid.continuation] at hcontinuation
      rw [← h]
      exact (addText_rebind c halike hvalid.kind
        (continuation_congr c hvalid.length hlen hcontinuation) rfl 0 c.cols).symm
  · cases h

/-- The record of a row, whether its lines are laid out or taken over. -/
theorem rowText_fst (hlen : (c.continued m row).length = linePrefix.length)
    (hcached : ∀ t ∈ cached, t.Lendable c controller) :
    (c.rowText controller d m row linePrefix cached counts).1 =
      let colors := (rowColors controller row (controller.languageInfo d row) cached counts).1
      { row := row
        linePrefix := linePrefix
        continuation := c.continuation m linePrefix (some row)
        info := controller.languageInfo d row
        colors := colors
        lines := some (c.addText m (some row) row.text linePrefix 0 c.cols colors) } := by
  rw [rowText]
  dsimp only
  split
  · next lines hlines =>
    obtain ⟨t, ht, hlent⟩ := Option.bind_eq_some_iff.1 hlines
    rw [reusable_lines (hcached t ht) hlen hlent]
  · rfl

/-- The record of a row is valid. -/
theorem rowText_valid (hkind : row.kind ≠ .tableCell)
    (hlen : (c.continued m row).length = linePrefix.length)
    (hcached : ∀ t ∈ cached, t.Lendable c controller) :
    (c.rowText controller d m row linePrefix cached counts).1.Valid c controller m := by
  rw [rowText_fst hlen hcached]
  exact ⟨hkind, hlen, rfl, rowColors_tokens hcached _, rfl⟩

/-- The lines of a row's record are those of the row laid out afresh. -/
theorem rowText_lines (hlen : (c.continued m row).length = linePrefix.length)
    (hcached : ∀ t ∈ cached, t.Lendable c controller) :
    (c.rowText controller d m row linePrefix cached counts).1.lines =
      some (c.addText m (some row) row.text linePrefix 0 c.cols (freshColors controller d row)) := by
  rw [rowText_fst hlen hcached]
  exact congrArg some (addText_congr ((rowColors_tokens hcached _).trans tokens_freshColors.symm) ..)

/-! ### Images left -/

theorem reachImages_suffix (row : ProjectedRow) (resources : List InlineResource) :
    (c.reachImages row resources).2 <:+ resources := by
  rw [reachImages]
  split
  · exact List.suffix_rfl
  · exact List.dropWhile_suffix _

theorem addImages_resources (row : ProjectedRow) (left width : Int) (linePrefix : Text)
    (cv : Canvas CellStyle) :
    (c.addImages row left width linePrefix cv).resources = (c.reachImages row cv.resources).2 := by
  have hfold : ∀ (images : List InlineResource) (cv : Canvas CellStyle),
      (images.foldl (c.addPreview row left width linePrefix) cv).resources = cv.resources := by
    intro images
    induction images with
    | nil => exact fun _ => rfl
    | cons image images ih => exact fun cv => ih (c.addPreview row left width linePrefix cv image)
  exact hfold _ _

theorem addStacked_suffix (linePrefix : Text) (available : Int) (rows : List ProjectedRow)
    (cv : Canvas CellStyle) :
    (rows.foldl (c.addStacked m linePrefix available) cv).resources <:+ cv.resources := by
  induction rows generalizing cv with
  | nil => exact List.suffix_rfl
  | cons row rows ih =>
    refine (ih _).trans ?_
    rw [addStacked, addImages_resources]
    exact reachImages_suffix row cv.resources

theorem tableParts_suffix (widths : List Int) (left : Int) (rows : List ProjectedRow)
    (resources : List InlineResource) :
    (c.tableParts m widths left rows resources).2 <:+ resources := by
  induction rows generalizing left resources with
  | nil => exact List.suffix_rfl
  | cons row rows ih => exact (ih _ _).trans (reachImages_suffix row resources)

theorem addTableRows_suffix (linePrefix : Text) (widths : List Int) (middle bottom : Text)
    (groups : List (List ProjectedRow)) (cv : Canvas CellStyle) :
    (c.addTableRows m linePrefix widths middle bottom groups cv).resources <:+ cv.resources := by
  induction groups generalizing cv with
  | nil => exact List.suffix_rfl
  | cons rows groups ih =>
    have hfold : ∀ (ys : List Nat) (parts : List (List (CellFragment CellStyle)))
        (cv : Canvas CellStyle),
        (ys.foldl (c.addTableLine linePrefix rows parts) cv).resources = cv.resources := by
      intro ys parts
      induction ys with
      | nil => exact fun _ => rfl
      | cons y ys ih => exact fun cv => ih (c.addTableLine linePrefix rows parts cv y)
    rw [addTableRows]
    refine (ih _).trans ?_
    rw [addRule, addLines]
    dsimp only
    rw [hfold]
    exact tableParts_suffix widths _ rows cv.resources

theorem addTable_suffix (first : ProjectedRow) (rest : List ProjectedRow) (cv : Canvas CellStyle) :
    (c.addTable m first rest cv).resources <:+ cv.resources := by
  rw [addTable]
  dsimp only
  split
  · exact addStacked_suffix _ _ _ _
  · exact addTableRows_suffix _ _ _ _ _ _

theorem addRow_suffix (b : CellBuilding CellStyle) :
    (c.addRow controller d m b row cached).canvas.resources <:+ b.canvas.resources := by
  have hreach := reachImages_suffix (c := c) row b.canvas.resources
  rw [addRow]
  dsimp only
  split
  · rw [addLines]
    dsimp only
    rw [addImages_resources]
    exact hreach
  · dsimp only
    rw [addImages_resources]
    exact hreach

/-! ### The loop over the rows -/

/-- The canvas after a row, laid out afresh. -/
def rowCanvas (c : CellSettings CellStyle CellWidthPolicy) (controller : FlarkCellController)
    (d : Document) (m : Markers) (cv : Canvas CellStyle) (row : ProjectedRow) :
    Canvas CellStyle :=
  (c.addRow controller d m ⟨cv, [], ⟨0, 0⟩⟩ row none).canvas

/-- A row leaves the same canvas whatever record it is compared with, and a record that can be
    lent. -/
theorem addRow_spec (b : CellBuilding CellStyle) (hkind : row.kind ≠ .tableCell)
    (hcode : row.kind = .codeBlock → c.standaloneImage row b.canvas.resources = none)
    (hcached : ∀ t ∈ cached, t.Lendable c controller) :
    (c.addRow controller d m b row cached).canvas = c.rowCanvas controller d m b.canvas row ∧
      ∃ t, (c.addRow controller d m b row cached).rowText = b.rowText ++ [t] ∧
        t.Lendable c controller := by
  have hlen := (c.length_rowPrefix m b.canvas.seenItems row).symm
  rw [rowCanvas, addRow, addRow]
  dsimp only
  split
  · next image himage =>
    refine ⟨rfl, _, rfl, Or.inl ⟨rfl, fun h => ?_⟩⟩
    rw [hcode h] at himage
    cases himage
  · refine ⟨?_, _, rfl, Or.inr ⟨m, rowText_valid hkind hlen hcached⟩⟩
    rw [rowText_lines hlen hcached, rowText_lines hlen fun _ h => absurd h (Option.not_mem_none _)]

theorem standaloneImage_eq_none {rows : List ProjectedRow} {resources : List InlineResource}
    (h : CodeApart rows resources) (hrow : row ∈ rows) (hkind : row.kind = .codeBlock) :
    c.standaloneImage row resources = none := by
  rw [standaloneImage]
  split
  · rw [Option.filter_eq_none_iff]
    intro image himage hextent
    rw [Bool.and_eq_true, beq_iff_eq, beq_iff_eq] at hextent
    exact h.image row hrow hkind image (List.mem_of_mem_head? himage) hextent
  · rfl

/-- The rows of a table are no code rows. -/
theorem kind_ne_of_mem_takeWhile {rows : List ProjectedRow} {resources : List InlineResource}
    (h : CodeApart (row :: rows) resources) (hkind : row.kind = .tableCell) {r : ProjectedRow}
    (hr : r ∈ rows.takeWhile fun r => r.tableBlock == row.tableBlock) : r.kind ≠ .codeBlock := by
  intro hcode
  have hmem := List.mem_cons_of_mem row ((List.takeWhile_prefix _).subset hr)
  have htable := List.mem_takeWhile_imp hr
  exact h.table r hmem hcode row List.mem_cons_self hkind (eq_of_beq htable)

/-- Two walks over the same rows, whatever records they compare them with, leave the same
    canvas; the records they leave can be lent. The induction is on the rows, with those of a
    table that is laid out still to skip. -/
theorem addRows_spec {candidate candidate' : Nat → Option (RowText CellStyle)}
    (hcand : ∀ i, ∀ t ∈ candidate i, t.Lendable c controller)
    (hcand' : ∀ i, ∀ t ∈ candidate' i, t.Lendable c controller) (rows : List ProjectedRow) :
    ∀ (i skip : Nat) (b b' : CellBuilding CellStyle), b.canvas = b'.canvas →
      CodeApart rows b.canvas.resources → (∀ r ∈ rows.take skip, r.kind ≠ .codeBlock) →
      (∀ t ∈ b.rowText, t.Lendable c controller) →
      (c.addRows controller d m candidate i skip b rows).canvas =
          (c.addRows controller d m candidate' i skip b' rows).canvas ∧
        ∀ t ∈ (c.addRows controller d m candidate i skip b rows).rowText, t.Lendable c controller := by
  have hrecord : ∀ {b : CellBuilding CellStyle} {t : RowText CellStyle},
      (∀ t ∈ b.rowText, t.Lendable c controller) → t.Lendable c controller →
        ∀ t' ∈ b.rowText ++ [t], t'.Lendable c controller := by
    intro b t hb ht t' ht'
    rcases List.mem_append.1 ht' with ht' | ht'
    · exact hb t' ht'
    · rwa [List.mem_singleton.1 ht']
  induction rows with
  | nil =>
    intro i skip b b' hcanvas _ _ hb
    rw [addRows, addRows]
    exact ⟨hcanvas, hb⟩
  | cons row rows ih =>
    intro i skip b b' hcanvas hcode hskip hb
    have hrest : CodeApart rows b.canvas.resources :=
      hcode.mono (List.subset_cons_self _ _) (List.Subset.refl _)
    cases skip with
    | succ skip =>
      rw [addRows, addRows]
      rw [List.take_succ_cons] at hskip
      exact ih _ _ _ _ hcanvas hrest (fun r hr => hskip r (List.mem_cons_of_mem _ hr))
        (hrecord hb (Or.inl ⟨rfl, hskip row List.mem_cons_self⟩))
    | zero =>
      rw [addRows, addRows]
      by_cases hkind : row.kind = .tableCell
      · rw [if_pos hkind, if_pos hkind]
        refine ih _ _ _ _ (congrArg (c.addTable m row _) hcanvas)
          (hrest.mono (List.Subset.refl _) (addTable_suffix _ _ _).subset) ?_
          (hrecord hb (Or.inl ⟨rfl, fun h => by rw [hkind] at h; cases h⟩))
        -- The rows to skip are those of the table.
        rw [← List.prefix_iff_eq_take.1 (List.takeWhile_prefix _)]
        exact fun r hr => kind_ne_of_mem_takeWhile hcode hkind hr
      · rw [if_neg hkind, if_neg hkind]
        have hnone : row.kind = .codeBlock → c.standaloneImage row b.canvas.resources = none :=
          standaloneImage_eq_none hcode List.mem_cons_self
        obtain ⟨hsame, t, hrecords, ht⟩ := addRow_spec (d := d) (m := m) b hkind hnone (hcand i)
        obtain ⟨hsame', -⟩ := addRow_spec (d := d) (m := m) b' hkind (hcanvas ▸ hnone) (hcand' i)
        refine ih _ _ _ _ (hsame.trans (hcanvas ▸ hsame'.symm))
          (hrest.mono (List.Subset.refl _) (addRow_suffix b).subset)
          (fun r hr => absurd hr List.not_mem_nil) ?_
        rw [hrecords]
        exact hrecord hb ht

/-- The records compared with are among those of the layout before. -/
theorem candidate_mem {before : List (RowText CellStyle)} {rows : List ProjectedRow} {i : Nat}
    {t : RowText CellStyle} (h : t ∈ candidate before rows i) : t ∈ before := by
  simp only [candidate] at h
  split at h
  · exact List.mem_of_getElem? h
  · split at h
    · exact List.mem_of_getElem? h
    · split at h
      · exact List.mem_of_getElem? h
      · cases h

theorem lendable_of_candidate {before : List (RowText CellStyle)}
    (h : ∀ t ∈ before, t.Lendable c controller) (rows : List ProjectedRow) :
    ∀ i, ∀ t ∈ candidate before rows i, t.Lendable c controller :=
  fun _ t ht => h t (candidate_mem ht)

end CellSettings

/-! ## Layouts -/

/-- What an editor shows: its source as it is, or its document. -/
inductive FlarkEditorSnapshot
  | source (source : Text) (selection : Selection)
  | live (document : Document)

/-- What an editor shows is a source, or a live document of a model that keeps images and tables
    apart from code. -/
def FlarkEditorSnapshot.Live (gs : Graphemes) : FlarkEditorSnapshot → Prop
  | .source _ _ => True
  | .live d => d.Live gs ∧ d.model.ResourcesConform d.source

/-- What a layout is built for. The controller is the number of an object. -/
structure LayoutRequest (CellStyle CellWidthPolicy : Type) where
  controller : Nat
  cols : Int
  theme : FlarkCellTheme CellStyle
  policy : CellWidthPolicy
  snapshot : FlarkEditorSnapshot

structure CellDocumentLayout (CellStyle CellWidthPolicy : Type) where
  controller : Nat
  cols : Int
  theme : FlarkCellTheme CellStyle
  policy : CellWidthPolicy
  sourceWindow : Option (Int × Int)
  lines : List (CellLine CellStyle)
  images : List CellImageSlot
  rowText : List (RowText CellStyle)

namespace CellDocumentLayout

variable {CellStyle CellWidthPolicy : Type} [DecidableEq CellStyle] [DecidableEq CellWidthPolicy]
  (fl : Fleury CellStyle CellWidthPolicy) (gs : Graphemes)
  -- The controllers of the host.
  (host : Nat → FlarkCellController)

def settings (r : LayoutRequest CellStyle CellWidthPolicy) : CellSettings CellStyle CellWidthPolicy :=
  ⟨fl, gs, r.cols, r.theme, r.policy⟩

def lowSurrogate (unit : UInt16) : Bool := decide (0xDC00 ≤ unit) && decide (unit ≤ 0xDFFF)

/-- The part of a source that is laid out: raw-source geometry stays bounded. -/
def windowOf (source : Text) (extent : Int) : Int × Int :=
  let length : Int := source.length
  let start := max 0 (min (extent - 4096) length)
  let stop := max 0 (min (start + 8192) length)
  (if 0 < start && lowSurrogate (source.codeUnitAt start) then start - 1 else start,
    if decide (stop < length) && lowSurrogate (source.codeUnitAt stop) then stop + 1 else stop)

/-- The records that a layout lends to the next one. -/
def lent (r : LayoutRequest CellStyle CellWidthPolicy)
    (previous : Option (CellDocumentLayout CellStyle CellWidthPolicy)) : List (RowText CellStyle) :=
  match previous with
  | some previous =>
    if previous.controller == r.controller && previous.cols == r.cols &&
        previous.theme.same r.theme && previous.policy == r.policy then previous.rowText
    else []
  | none => []

/-- The canvas of a document and the records of its rows. -/
def buildLive (r : LayoutRequest CellStyle CellWidthPolicy) (d : Document)
    (before : List (RowText CellStyle)) (counts : LayoutCounts) : CellBuilding CellStyle :=
  let c := settings fl gs r
  let rows := d.projection.rows
  c.addRows (host r.controller) d (c.measureMarkers rows) (CellSettings.candidate before rows) 0 0
    { canvas :=
        { lines := []
          images := []
          seenItems := []
          resources := (d.images gs).insertionSort fun a b => a.contentStart ≤ b.contentStart }
      rowText := []
      counts := counts } rows

/-- A layout has a line. -/
def orEmptyLine (lines : List (CellLine CellStyle)) : List (CellLine CellStyle) :=
  if lines.isEmpty then [{ toCellFragment := .of none 0 [] 0 }] else lines

/-- The constructor, given the layout before and what the host has counted. -/
def build (r : LayoutRequest CellStyle CellWidthPolicy)
    (previous : Option (CellDocumentLayout CellStyle CellWidthPolicy)) (counts : LayoutCounts) :
    CellDocumentLayout CellStyle CellWidthPolicy × LayoutCounts :=
  match r.snapshot with
  | .source source selection =>
    -- Of a source shown as such only a window around the caret is laid out.
    let window := windowOf source selection.extent
    let lines := (settings fl gs r).addText ⟨fun _ => none, fun _ => none⟩ none
      (source.substring window.1 window.2) [] window.1.toNat r.cols none
    ({ controller := r.controller
       cols := r.cols
       theme := r.theme
       policy := r.policy
       sourceWindow := some window
       lines := orEmptyLine (lines.map fun line => { toCellFragment := line })
       images := []
       rowText := [] }, counts)
  | .live d =>
    let b := buildLive fl gs host r d (lent r previous) counts
    ({ controller := r.controller
       cols := r.cols
       theme := r.theme
       policy := r.policy
       sourceWindow := none
       lines := orEmptyLine b.canvas.lines
       images := b.canvas.images
       rowText := b.rowText }, b.counts)

/-- The lines where a row's caret may be, each with its place in the layout. -/
def rowLines (l : CellDocumentLayout CellStyle CellWidthPolicy) (index : Nat) :
    List (Nat × CellFragment CellStyle) :=
  l.lines.zipIdx.flatMap fun (line, i) =>
    (line.fragments.filter fun fragment =>
      fragment.row.any (·.index == index) && fragment.editable && fragment.caretLine).map (i, ·)

/-! ### Chains of layouts -/

/-- A layout built from the one before, that one from the one before it, and so on. -/
inductive Chained : CellDocumentLayout CellStyle CellWidthPolicy → Prop
  | fresh {r : LayoutRequest CellStyle CellWidthPolicy} (hr : r.snapshot.Live gs)
    (counts : LayoutCounts) : Chained (build fl gs host r none counts).1
  | next {previous : CellDocumentLayout CellStyle CellWidthPolicy} (h : Chained previous)
    {r : LayoutRequest CellStyle CellWidthPolicy} (hr : r.snapshot.Live gs)
    (counts : LayoutCounts) : Chained (build fl gs host r (some previous) counts).1

variable {fl gs host}

/-- The settings that a layout was built for. -/
def settingsOf (fl : Fleury CellStyle CellWidthPolicy) (gs : Graphemes)
    (l : CellDocumentLayout CellStyle CellWidthPolicy) : CellSettings CellStyle CellWidthPolicy :=
  ⟨fl, gs, l.cols, l.theme, l.policy⟩

/-- The records of a layout can be lent. -/
def Lends (fl : Fleury CellStyle CellWidthPolicy) (gs : Graphemes) (host : Nat → FlarkCellController)
    (l : CellDocumentLayout CellStyle CellWidthPolicy) : Prop :=
  ∀ t ∈ l.rowText, t.Lendable (settingsOf fl gs l) (host l.controller)

/-- What a layout lends to a request can be lent there: it has the same settings. -/
theorem lendable_of_mem_lent {r : LayoutRequest CellStyle CellWidthPolicy}
    {previous : Option (CellDocumentLayout CellStyle CellWidthPolicy)}
    (h : ∀ l ∈ previous, Lends fl gs host l) :
    ∀ t ∈ lent r previous, t.Lendable (settings fl gs r) (host r.controller) := by
  intro t ht
  cases previous with
  | none => exact absurd ht List.not_mem_nil
  | some previous =>
    simp only [lent] at ht
    split at ht
    · next hsame =>
      simp only [Bool.and_eq_true, beq_iff_eq, FlarkCellTheme.same_iff] at hsame
      obtain ⟨⟨⟨hcontroller, hcols⟩, htheme⟩, hpolicy⟩ := hsame
      have hlendable := h previous rfl t ht
      rw [settingsOf, hcontroller, hcols, ← htheme, hpolicy] at hlendable
      exact hlendable
    · cases ht

omit [DecidableEq CellStyle] [DecidableEq CellWidthPolicy] in
/-- A live document has one canvas, whatever records its rows are compared with, and leaves
    records that can be lent. -/
theorem buildLive_spec {r : LayoutRequest CellStyle CellWidthPolicy} {d : Document}
    (hd : d.Live gs) (hresources : d.model.ResourcesConform d.source)
    {before before' : List (RowText CellStyle)}
    (hbefore : ∀ t ∈ before, t.Lendable (settings fl gs r) (host r.controller))
    (hbefore' : ∀ t ∈ before', t.Lendable (settings fl gs r) (host r.controller))
    (counts counts' : LayoutCounts) :
    (buildLive fl gs host r d before counts).canvas =
        (buildLive fl gs host r d before' counts').canvas ∧
      ∀ t ∈ (buildLive fl gs host r d before counts).rowText,
        t.Lendable (settings fl gs r) (host r.controller) := by
  refine CellSettings.addRows_spec (CellSettings.lendable_of_candidate hbefore _)
    (CellSettings.lendable_of_candidate hbefore' _) d.projection.rows 0 0 _ _ rfl
    ((d.codeApart hd hresources).mono (List.Subset.refl _) ?_)
    (fun r hr => absurd hr List.not_mem_nil) (fun t ht => absurd ht List.not_mem_nil)
  exact fun image himage => (List.mem_insertionSort _).1 himage

/-- A layout built from one that lends can lend. -/
theorem build_lends {r : LayoutRequest CellStyle CellWidthPolicy} (hr : r.snapshot.Live gs)
    {previous : Option (CellDocumentLayout CellStyle CellWidthPolicy)}
    (h : ∀ l ∈ previous, Lends fl gs host l) (counts : LayoutCounts) :
    Lends fl gs host (build fl gs host r previous counts).1 := by
  rw [build]
  cases hsnapshot : r.snapshot with
  | source source selection => exact fun t ht => absurd ht List.not_mem_nil
  | live d =>
    rw [hsnapshot] at hr
    have hlent := lendable_of_mem_lent (r := r) h
    exact (buildLive_spec hr.1 hr.2 hlent hlent counts counts).2

theorem Chained.lends {l : CellDocumentLayout CellStyle CellWidthPolicy}
    (h : Chained fl gs host l) : Lends fl gs host l := by
  induction h with
  | fresh hr counts => exact build_lends hr (fun l hl => absurd hl (Option.not_mem_none l)) counts
  | next _ hr counts ih =>
    refine build_lends hr (fun l hl => ?_) counts
    rwa [← Option.some_inj.1 hl]

/-- What is lent to a layout does not show on it. -/
theorem build_eq_fresh {previous : Option (CellDocumentLayout CellStyle CellWidthPolicy)}
    (hlends : ∀ l ∈ previous, Lends fl gs host l) {r : LayoutRequest CellStyle CellWidthPolicy}
    (hr : r.snapshot.Live gs) (counts counts' : LayoutCounts) :
    let next := (build fl gs host r previous counts).1
    let fresh := (build fl gs host r none counts').1
    next.lines = fresh.lines ∧ next.images = fresh.images ∧
      next.sourceWindow = fresh.sourceWindow := by
  intro next fresh
  simp only [next, fresh, build]
  cases hsnapshot : r.snapshot with
  | source source selection => exact ⟨rfl, rfl, rfl⟩
  | live d =>
    rw [hsnapshot] at hr
    have hcanvas := (buildLive_spec hr.1 hr.2 (lendable_of_mem_lent (r := r) hlends)
      (fun t ht => absurd ht List.not_mem_nil) counts counts').1
    dsimp only
    rw [hcanvas]
    exact ⟨rfl, rfl, rfl⟩

/-- The lines of a layout built from the one before are those of a layout built from none, on the
    same rows of the new projection, and so are the map from rows to lines and the image
    slots. -/
theorem chained_eq_fresh {previous : CellDocumentLayout CellStyle CellWidthPolicy}
    (h : Chained fl gs host previous) {r : LayoutRequest CellStyle CellWidthPolicy}
    (hr : r.snapshot.Live gs) (counts counts' : LayoutCounts) :
    let next := (build fl gs host r (some previous) counts).1
    let fresh := (build fl gs host r none counts').1
    next.lines = fresh.lines ∧ next.rowLines = fresh.rowLines ∧ next.images = fresh.images ∧
      next.sourceWindow = fresh.sourceWindow := by
  intro next fresh
  have hlends : ∀ l ∈ some previous, Lends fl gs host l := fun l hl => by
    rw [← Option.some_inj.1 hl]
    exact h.lends
  have hlines := build_eq_fresh hlends hr counts counts'
  refine ⟨hlines.1, funext fun index => ?_, hlines.2⟩
  rw [rowLines, rowLines, hlines.1]

/-- A terminal without colours, one cell to a code unit. -/
def plainTerminal : Fleury CellStyleArgs Unit where
  none := {}
  style := id
  merge a b :=
    { background := b.background.or a.background
      bold := b.bold.or a.bold
      dim := b.dim.or a.dim
      italic := b.italic.or a.italic
      underline := b.underline.or a.underline
      inverse := b.inverse.or a.inverse
      strikethrough := b.strikethrough.or a.strikethrough }
  background := CellStyleArgs.background
  foreground _ := none
  widthOfText t _ := t.length
  sanitizeForDisplay := id

/-- A document in twenty columns of a terminal, in the default theme. -/
def inTwentyColumns (d : Document) : LayoutRequest CellStyleArgs Unit :=
  ⟨0, 20, .standard plainTerminal, (), .live d⟩

/-- `Document.letters` before its last letter was typed. -/
def lettersBefore : Document :=
  ⟨Projection.of .units (twoParagraphs 4) (Text.ofString "a\n\nb") {} none, .collapsed 0⟩

theorem twoParagraphs_resourcesConform :
    (twoParagraphs 4).ResourcesConform (Text.ofString "a\n\nb") ∧
      (twoParagraphs 5).ResourcesConform (Text.ofString "a\n\nbc") :=
  ⟨⟨by decide, by decide, by decide, by decide,
      by decide⟩,
    ⟨by decide, by decide, by decide, by decide,
      by decide⟩⟩

theorem lettersBefore_live : (FlarkEditorSnapshot.live lettersBefore).Live .units :=
  ⟨⟨Built.anew twoParagraphs_conforms.1 {},
      { twoParagraphs_conforms.1 with
        parent := by decide
        blockStart := by decide
        contentLine := by decide
        lineOrder := by decide
        afterDefinitions := by decide
        runOrder := by decide
        runRange := by decide }⟩,
    twoParagraphs_resourcesConform.1⟩

/-- Typing the last letter: the layout built from the one before lays out one row more, and is
    the one built from none, which lays out all three. -/
theorem chained_eq_fresh_typed :
    let host : Nat → FlarkCellController := fun _ => .fleury none
    let first := build plainTerminal .units host (inTwentyColumns lettersBefore) none ⟨0, 0⟩
    let next := build plainTerminal .units host (inTwentyColumns Document.letters) (some first.1) first.2
    let fresh := build plainTerminal .units host (inTwentyColumns Document.letters) none ⟨0, 0⟩
    next.1.lines = fresh.1.lines ∧ first.2.rowLayouts = 3 ∧ next.2.rowLayouts = 4 ∧
      fresh.2.rowLayouts = 3 := by
  intro host first next fresh
  have hfirst : Chained plainTerminal .units host first.1 := Chained.fresh lettersBefore_live _
  have hletters : (inTwentyColumns Document.letters).snapshot.Live .units :=
    ⟨Document.letters_live, twoParagraphs_resourcesConform.2⟩
  refine ⟨(chained_eq_fresh hfirst hletters first.2 ⟨0, 0⟩).1, ?_⟩
  decide

end CellDocumentLayout

end Flark
