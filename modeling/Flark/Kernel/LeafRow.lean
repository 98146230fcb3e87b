import Flark.Kernel.Row
import Flark.Parse.RenderModel
import Mathlib.Data.List.Sort

/-!
# Rows of leaf blocks

How the projection builds the row of a leaf (`_inlineRow` and `_literalRow` of
`kernel/projection.dart`). A leaf's records are read once (`LeafRecords`); the row then
depends on them, on the source and on the lines only.

An inline row's text comes from the runs without children, clipped to each content record
in turn; what lies between them is shown unless a delimiter covers it. The walk over a
record writes to an `Out`, the display text so far with its segments, and the walk over the
leaf carries the cursors into the covered ranges and the runs, which only advance.
-/

namespace Flark

/-! ## The records of a leaf -/

/-- A content record as the projection reads it. -/
structure ContentView where
  line : Int
  start : Int
  stop : Int
  prefixStart : Int
  virtualSpaces : Nat
  deriving DecidableEq, Inhabited, Repr

/-- A run as the projection reads it; the display override is `none` for a run that shows
    its source. -/
structure RunView where
  index : Int
  kind : Nat
  start : Int
  stop : Int
  contentStart : Int
  contentEnd : Int
  parent : Option Int
  override : Option Text
  deriving DecidableEq, Inhabited, Repr

/-- What the row of a leaf block reads of its records. -/
structure LeafRecords where
  kind : Nat
  flags : Nat
  attr : Nat
  start : Int
  stop : Int
  firstLine : Int
  lineCount : Nat
  content : List ContentView
  runs : List RunView
  /-- The info string of a fenced block, or -1. -/
  codeInfoStart : Int
  codeInfoEnd : Int
  deriving DecidableEq, Inhabited, Repr

namespace RenderModel

variable (m : RenderModel)

def contentView (c : Nat) : ContentView where
  line := m.contentLine c
  start := m.contentStart c
  stop := m.contentEnd c
  prefixStart := m.contentPrefixStart c
  virtualSpaces := m.contentVirtualSpaces c

def runView (r : Nat) : RunView where
  index := r
  kind := m.runKind r
  start := m.runStart r
  stop := m.runEnd r
  contentStart := m.runContentStart r
  contentEnd := m.runContentEnd r
  parent := if m.runParent r = noParent then none else some (m.runParent r)
  override := (m.displayOverride r).join

/-- The content records of block `b`. -/
def contentOf (b : Nat) : List ContentView :=
  (List.range' (m.blockContentOffset b) (m.blockContentCount b)).map m.contentView

/-- The runs of block `b`. -/
def runsOf (b : Nat) : List RunView :=
  (List.range' (m.firstRunOfBlock b) (m.firstRunOfBlock (b + 1) - m.firstRunOfBlock b)).map
    m.runView

/-- A code block opened by a fence line. -/
def blockFenced (b : Nat) : Bool :=
  m.blockKind b == BlockKind.codeBlock && m.blockFlags b &&& BlockFlag.fenced != 0

def leaf (b : Nat) : LeafRecords where
  kind := m.blockKind b
  flags := m.blockFlags b
  attr := m.blockAttr b
  start := m.blockStart b
  stop := m.blockEnd b
  firstLine := m.blockFirstLine b
  lineCount := m.blockLineCount b
  content := m.contentOf b
  runs := m.runsOf b
  codeInfoStart := if m.blockFenced b then m.codeInfoStart b else -1
  codeInfoEnd := if m.blockFenced b then m.codeInfoEnd b else -1

/-- `_lineEndOf`: where a line ends, excluding its terminator. -/
def lineEndOf (src : Text) (l : Int) : Int :=
  let start := m.lineStartUtf16 l.toNat
  let next := if l.toNat + 1 < m.lineCount then m.lineStartUtf16 (l.toNat + 1) else src.length
  trim start (next - start)
where
  /-- The loop back over the terminator; `n` units are left on the line. -/
  trim (start : Nat) : (n : Nat) → Int
    | 0 => start
    | n + 1 =>
      if src.codeUnitAt (start + n : Nat) = 0x0A ∨ src.codeUnitAt (start + n : Nat) = 0x0D then
        trim start n
      else (start + n + 1 : Nat)

/-- `lineOfUtf16` of an integer offset. -/
def lineAt (offset : Int) : Int := m.lineOfUtf16 offset.toNat

end RenderModel

namespace LeafRecords

variable (leaf : LeafRecords)

/-- `_rowLines`: the lines the row shows. A paragraph or heading that begins with
    definitions starts at its first content record. -/
def rowLines : Int × Nat :=
  if leaf.kind ≠ BlockKind.paragraph ∧ leaf.kind ≠ BlockKind.heading then
    (leaf.firstLine, leaf.lineCount)
  else
    match leaf.content with
    | [] => (leaf.firstLine, leaf.lineCount)
    | c :: _ =>
      if leaf.firstLine < c.line ∧ c.line < leaf.firstLine + leaf.lineCount then
        (c.line, (leaf.firstLine + leaf.lineCount - c.line).toNat)
      else (leaf.firstLine, leaf.lineCount)

end LeafRecords

/-! ## Hidden and covered ranges -/

/-- The delimiters of a run that are not empty. -/
def RunView.delimiters (r : RunView) : List (Int × Int) :=
  (if r.start < r.contentStart then [(r.start, r.contentStart)] else []) ++
    (if r.contentEnd < r.stop then [(r.contentEnd, r.stop)] else [])

/-- `_hiddenIntervals`: the delimiters of the runs, by start. -/
def hiddenIntervals (runs : List RunView) : List (Int × Int) :=
  (runs.flatMap RunView.delimiters).insertionSort fun a b => a.1 ≤ b.1

/-- `covered`: abutting hidden ranges as one, from the last one covered so far. -/
def coverFrom : (last : Int × Int) → List (Int × Int) → List (Int × Int)
  | last, [] => [last]
  | last, h :: hidden =>
    if h.1 ≤ last.2 then coverFrom (last.1, max last.2 h.2) hidden
    else last :: coverFrom h hidden

def coverIntervals : List (Int × Int) → List (Int × Int)
  | [] => []
  | h :: hidden => coverFrom h hidden

/-! ## Styles -/

/-- The style a run's kind gives. -/
def ownStyle (kind : Nat) : Nat :=
  if kind = RunKind.emph then Style.emphasis
  else if kind = RunKind.strong then Style.strong
  else if kind = RunKind.code then Style.code
  else if kind = RunKind.strike then Style.strikethrough
  else if kind = RunKind.link ∨ kind = RunKind.autolink then Style.link
  else if kind = RunKind.image then Style.image
  else if kind = RunKind.footnoteRef then Style.footnoteRef
  else if kind = RunKind.htmlInline then Style.htmlInline
  else 0

/-- The style of the run with an index, among those computed so far. -/
def styleAt (styles : List (Int × Nat)) (run : Int) : Nat := (styles.lookup run).getD 0

/-- `_computeStyles`: a run's own style over its parent's, which comes before it. -/
def computeStyles : (styles : List (Int × Nat)) → List RunView → List (Int × Nat)
  | styles, [] => styles
  | styles, r :: runs =>
    let inherited := match r.parent with
      | none => 0
      | some parent => styleAt styles parent
    computeStyles ((r.index, inherited ||| ownStyle r.kind) :: styles) runs

/-! ## Line breaks -/

/-- Where the lines of a leaf break, and the code run that owns the break: the entry added
    last is first. -/
structure Breaks where
  starts : List (Int × Int)
  codes : List (Int × Int)
  deriving DecidableEq, Inhabited, Repr

/-- `setBreak`. -/
def Breaks.set (breaks : Breaks) (line start : Int) (codeRun : Option Int) : Breaks where
  starts := (line, start) :: breaks.starts
  codes := match codeRun with
    | none => breaks.codes
    | some run => (line, run) :: breaks.codes

/-- The breaks of the lines from `line` on inside a code run. -/
def codeBreaks (m : RenderModel) (src : Text) (run : Int) :
    (n : Nat) → (line : Int) → Breaks → Breaks
  | 0, _, breaks => breaks
  | n + 1, line, breaks =>
    codeBreaks m src run n (line + 1) (breaks.set line (m.lineEndOf src line) (some run))

/-- The breaks that one run sets. -/
def runBreaks (m : RenderModel) (src : Text) (breaks : Breaks) (r : RunView) : Breaks :=
  if r.kind = RunKind.softBreak ∨ r.kind = RunKind.hardBreak then
    breaks.set (m.lineAt r.start) (if r.contentStart < r.contentEnd then r.contentEnd else r.start)
      none
  else if r.kind = RunKind.code then
    let first := m.lineAt r.contentStart
    let last := m.lineAt r.contentEnd
    codeBreaks m src r.index (last - first).toNat first breaks
  else breaks

/-- The runs that show text: those without children, line breaks apart. -/
def leafRuns (runs : List RunView) : List RunView :=
  runs.filter fun r =>
    r.kind ≠ RunKind.softBreak ∧ r.kind ≠ RunKind.hardBreak ∧
      ∀ q ∈ runs, q.parent ≠ some r.index

/-! ## Writing text -/

/-- The display text written so far, and its segments. -/
structure Out where
  text : Text
  segments : List Segment
  deriving DecidableEq, Inhabited, Repr

/-- Write a piece with its segment. -/
def Out.add (out : Out) (piece : Text) (sourceStart sourceEnd : Int) (styles : Nat)
    (exact : Bool) (run : Int) (lineBreak : Bool) : Out where
  text := out.text ++ piece
  segments := out.segments ++
    [⟨out.text.length, out.text.length + piece.length, sourceStart, sourceEnd, styles, exact,
      run, lineBreak⟩]

/-- The last segment, when it displays nothing and ends where `a` starts: a replacement that
    joins the first grapheme after it. -/
def Out.joining (out : Out) (a : Int) : Option Segment :=
  match out.segments.getLast? with
  | some previous =>
    if previous.exact = false ∧ previous.displayEnd = previous.displayStart ∧
        previous.displayEnd = out.text.length ∧ previous.sourceEnd = a then some previous
    else none
  | none => none

/-- `emitExact`: the source from `a` to `b` as it is. -/
def emitExact (gs : Graphemes) (src : Text) (out : Out) (a b : Int) (style : Nat) (run : Int) :
    Out :=
  if b ≤ a then out
  else
    let piece := src.substring a b
    match out.joining a with
    | none => out.add piece a b style true run false
    -- The piece begins with what belongs to the grapheme before it, so that this is no exact one
    -- any more.
    | some previous =>
      let d0 := out.text.length
      let firstLength := gs.firstLength piece
      let firstEnd := a + firstLength
      let text := out.text ++ piece
      { text := text
        segments := out.segments.dropLast ++
          [⟨previous.displayStart, d0 + firstLength, previous.sourceStart, firstEnd, style, false,
            run, false⟩] ++
          if firstEnd < b then
            [⟨d0 + firstLength, text.length, firstEnd, b, style, true, run, false⟩]
          else [] }

/-- The loop of `emitGap` from the first covered range that ends after `q`; the result is
    the text written and where the gap goes on. -/
def emitGapFrom (gs : Graphemes) (src : Text) (b : Int) :
    (covered : List (Int × Int)) → (out : Out) → (q : Int) → Out × Int
  | [], out, q => (out, q)
  | h :: covered, out, q =>
    if b ≤ h.1 then (out, q)
    else
      emitGapFrom gs src b covered
        (if q < h.1 then emitExact gs src out q h.1 0 (-1) else out) (max q h.2)

/-- `emitGap`: content that no run without children claims, shown unless it is covered. The
    search for the first covered range that ends after `a` skips the others. -/
def emitGap (gs : Graphemes) (src : Text) (covered : List (Int × Int)) (out : Out) (a b : Int) :
    Out :=
  let (out, q) := emitGapFrom gs src b (covered.dropWhile fun h => h.2 ≤ a) out a
  if q < b then emitExact gs src out q b 0 (-1) else out

/-- `if (p < b) emitGap(p, b)`. -/
def fillGap (gs : Graphemes) (src : Text) (covered : List (Int × Int)) (out : Out) (p b : Int) :
    Out :=
  if p < b then emitGap gs src covered out p b else out

/-! ## Code spans whose display drops characters -/

/-- `_alignedCode` from the source offset `i`: one source range for each unit shown, one
    unit long, or two when the source has a character the display drops before it. -/
def alignedCode (src : Text) (stop : Int) : (i : Int) → (shown : Text) → Option (List (Int × Int))
  | i, [] => if i = stop then some [] else none
  | i, unit :: shown =>
    if i < stop ∧ src.codeUnitAt i = unit then
      (alignedCode src stop (i + 1) shown).map ((i, i + 1) :: ·)
    else if i + 1 < stop ∧ src.codeUnitAt (i + 1) = unit then
      (alignedCode src stop (i + 2) shown).map ((i, i + 2) :: ·)
    else none

/-- The units of one source unit at the front: the end of the last of them, and the rest. -/
def spanExact : (from_ : Int) → List (Int × Int) → Int × List (Int × Int)
  | last, [] => (last, [])
  | last, u :: units => if u.2 - u.1 = 1 then spanExact u.2 units else (last, u :: units)

theorem spanExact_length_le (last : Int) (units : List (Int × Int)) :
    (spanExact last units).2.length ≤ units.length := by
  induction units generalizing last with
  | nil => exact Nat.le_refl 0
  | cons u units ih =>
    rw [spanExact]
    split
    · exact (ih _).trans (Nat.le_succ _)
    · exact Nat.le_refl _

/-- The loop over the units of a code span: a dropped character goes with the one after it,
    the others map one to one. The fuel bounds the units. -/
def emitUnits (gs : Graphemes) (src : Text) (style : Nat) (run : Int) :
    (fuel : Nat) → (units : List (Int × Int)) → Out → Out
  | fuel + 1, u :: units, out =>
    if 1 < u.2 - u.1 then
      emitUnits gs src style run fuel units
        (out.add (src.substring (u.2 - 1) u.2) u.1 u.2 style false run false)
    else
      let (last, rest) := spanExact u.2 units
      emitUnits gs src style run fuel rest (emitExact gs src out u.1 last style run)
  | _, _, out => out

/-! ## One content record of an inline row -/

/-- The text of one run without children, clipped to the record from `cs` to `ce`; `p` is
    where the text written so far ends. -/
def emitRun (gs : Graphemes) (src : Text) (covered : List (Int × Int))
    (styles : List (Int × Nat)) (cs ce : Int) (out : Out) (p : Int) (r : RunView) : Out × Int :=
  let rs := r.contentStart
  let re := r.contentEnd
  let a := if rs < cs then cs else rs
  let b := if ce < re then ce else re
  let out := fillGap gs src covered out p a
  let style := styleAt styles r.index
  let whole := cs ≤ rs ∧ re ≤ ce
  let out :=
    match r.override with
    | none => if a < b then emitExact gs src out a b style r.index else out
    | some shown =>
      -- Only a whole run shows its own text; of a part of it the source is shown.
      if whole then
        match if r.kind = RunKind.code then alignedCode src re rs shown else none with
        | some units => emitUnits gs src style r.index units.length units out
        | none =>
          out.add shown rs re style
            (decide ((shown.length : Int) = re - rs) && shown == src.substring rs re) r.index false
      else if a < b then emitExact gs src out a b style r.index else out
  (out, if p < b then b else p)

/-- The loop over the runs that may show text of the record, up to the first that starts
    after it. -/
def emitRuns (gs : Graphemes) (src : Text) (covered : List (Int × Int))
    (styles : List (Int × Nat)) (cs ce : Int) : (runs : List RunView) → Out → Int → Out × Int
  | [], out, p => (out, p)
  | r :: runs, out, p =>
    if ce ≤ r.contentStart then (out, p)
    else if r.contentEnd ≤ cs then emitRuns gs src covered styles cs ce runs out p
    else
      let (out, p) := emitRun gs src covered styles cs ce out p r
      emitRuns gs src covered styles cs ce runs out p

/-- What the walk over the content records of a leaf carries: the text, the extent so far,
    the per-line lists, and what the two cursors have left. -/
structure InlineState where
  out : Out
  sourceStart : Int
  sourceEnd : Int
  starts : List Int
  ends : List Int
  prefixes : List Int
  covered : List (Int × Int)
  runs : List RunView
  deriving DecidableEq, Inhabited, Repr

attribute [ext] InlineState

/-- What the walk over the records of a leaf reads besides. -/
structure InlineContext where
  first : Int
  lineCount : Nat
  covered : List (Int × Int)
  styles : List (Int × Nat)
  breaks : Breaks
  deriving DecidableEq, Inhabited, Repr

/-- `list[i] = x` for a line of the row; other lines are left alone. -/
def setLine (list : List Int) (first line : Int) (lineCount : Nat) (x : Int) : List Int :=
  if first ≤ line ∧ line < first + lineCount then list.set (line - first).toNat x else list

/-- The break before the record `c`: where its line break starts in the source, and what is
    left of the covered ranges. A gap that no break run owns shows a break unless one covered
    range hides it. -/
def breakBefore (cx : InlineContext) (covered : List (Int × Int)) (previous c : ContentView) :
    Option Int × List (Int × Int) :=
  match cx.breaks.starts.lookup previous.line with
  | some start => (some start, covered)
  | none =>
    let gap := previous.stop
    if gap < c.start then
      let covered := covered.dropWhile fun h => h.2 < c.start
      let hides := match covered with
        | [] => false
        | h :: _ => decide (h.1 ≤ gap)
      (if hides then none else some gap, covered)
    else (none, covered)

/-- Inline code shows a source line ending as a styled space. -/
def emitBreak (options : ProjectionOptions) (cx : InlineContext) (out : Out)
    (previous c : ContentView) (start : Int) : Out :=
  match cx.breaks.codes.lookup previous.line with
  | none =>
    out.add (if options.softBreakAsNewline then [0x0A] else [0x20]) start c.start 0 false (-1) true
  | some run => out.add [0x20] start c.start (styleAt cx.styles run) false run true

/-- The line break before the record `c`, none before the first record, and what is left of
    the covered ranges. -/
def withBreak (options : ProjectionOptions) (cx : InlineContext) (out : Out)
    (covered : List (Int × Int)) (previous : Option ContentView) (c : ContentView) :
    Out × List (Int × Int) :=
  match previous with
  | none => (out, covered)
  | some previous =>
    match breakBefore cx covered previous c with
    | (none, covered) => (out, covered)
    | (some start, covered) => (emitBreak options cx out previous c start, covered)

/-- The spaces of a tab that the content shares with a prefix. -/
def emitVirtual (out : Out) (c : ContentView) : Out :=
  if 0 < c.virtualSpaces then
    out.add (List.replicate c.virtualSpaces 0x20) c.start c.start 0 false (-1) false
  else out

/-- One turn of the loop over the content records of an inline leaf. -/
def inlineStep (gs : Graphemes) (src : Text) (options : ProjectionOptions) (cx : InlineContext)
    (previous : Option ContentView) (st : InlineState) (c : ContentView) : InlineState :=
  let (out, covered) := withBreak options cx st.out st.covered previous c
  let out := emitVirtual out c
  -- The runs are in order, so that those that end before the record are done with.
  let runs := st.runs.dropWhile fun r => r.contentEnd ≤ c.start
  let (out, p) := emitRuns gs src cx.covered cx.styles c.start c.stop runs out c.start
  { out := fillGap gs src cx.covered out p c.stop
    sourceStart := if st.sourceStart < 0 then c.start else st.sourceStart
    sourceEnd := c.stop
    starts := setLine st.starts cx.first c.line cx.lineCount c.start
    ends := setLine st.ends cx.first c.line cx.lineCount c.stop
    prefixes := setLine st.prefixes cx.first c.line cx.lineCount c.prefixStart
    covered := covered
    runs := runs }

/-- The loop over the content records of an inline leaf. -/
def inlineWalk (gs : Graphemes) (src : Text) (options : ProjectionOptions)
    (cx : InlineContext) : (previous : Option ContentView) → InlineState → List ContentView →
      InlineState
  | _, st, [] => st
  | previous, st, c :: content =>
    inlineWalk gs src options cx (some c) (inlineStep gs src options cx previous st c) content

/-! ## The row -/

/-- `_barePrefixRow`: an empty block's bare opening prefix, shown as text. -/
def barePrefixRow (src : Text) (block : Int) (line : Nat) (start stop : Int)
    (shells : List Shell) : ProjectedRow where
  kind := .paragraph
  block := block
  firstLine := line
  lineCount := 1
  text := src.substring start stop
  segments := [⟨0, (stop - start).toNat, start, stop, 0, true, -1, false⟩]
  shells := shells
  sourceStart := start
  sourceEnd := stop
  contentStarts := [start]
  contentEnds := [stop]
  prefixStarts := [start]

/-- The state of the walk over an inline leaf. -/
def inlineResult (gs : Graphemes) (m : RenderModel) (src : Text) (options : ProjectionOptions)
    (leaf : LeafRecords) : InlineState :=
  let (first, n) := leaf.rowLines
  let covered := coverIntervals (hiddenIntervals leaf.runs)
  let cx : InlineContext := {
    first := first
    lineCount := n
    covered := covered
    styles := computeStyles [] leaf.runs
    breaks := leaf.runs.foldl (runBreaks m src) ⟨[], []⟩ }
  inlineWalk gs src options cx none
    { out := ⟨[], []⟩, sourceStart := -1, sourceEnd := -1
      starts := List.replicate n (-1), ends := List.replicate n (-1)
      prefixes := List.replicate n (-1), covered := covered, runs := leafRuns leaf.runs }
    leaf.content

/-- `_inlineRow`: the row of a paragraph, a heading or a table cell. -/
def inlineRow (gs : Graphemes) (m : RenderModel) (src : Text) (options : ProjectionOptions)
    (block : Nat) (leaf : LeafRecords) (shells : List Shell) (cell : CellFields) :
    ProjectedRow :=
  let (first, n) := leaf.rowLines
  let st := inlineResult gs m src options leaf
  -- The bare marker of an empty heading, up to the end of its line, is shown as text.
  if leaf.kind = BlockKind.heading ∧ n = 1 ∧ st.sourceStart = st.sourceEnd ∧
      st.sourceEnd = m.lineEndOf src first ∧ st.sourceEnd - leaf.start = leaf.attr then
    barePrefixRow src block first.toNat leaf.start st.sourceEnd shells
  else
    { kind := if leaf.kind = BlockKind.heading then .heading
        else if leaf.kind = BlockKind.tableCell then .tableCell else .paragraph
      block := block
      firstLine := first.toNat
      lineCount := n
      text := st.out.text
      segments := st.out.segments
      shells := shells
      sourceStart := if st.sourceStart < 0 then leaf.start else st.sourceStart
      sourceEnd := if st.sourceEnd < 0 then leaf.stop else st.sourceEnd
      contentStarts := st.starts
      contentEnds := st.ends
      prefixStarts := st.prefixes
      headingLevel := if leaf.kind = BlockKind.heading then leaf.attr else 0
      tableBlock := cell.tableBlock
      tableRowBlock := cell.tableRowBlock
      column := cell.column
      header := cell.header
      alignment := cell.alignment }

/-! ## Literal rows -/

/-- What the walk over a literal leaf carries. -/
structure LiteralState where
  out : Out
  sourceStart : Int
  sourceEnd : Int
  starts : List Int
  ends : List Int
  prefixes : List Int
  deriving DecidableEq, Inhabited, Repr

attribute [ext] LiteralState

/-- The line break before the record `c` of a literal leaf, none before the first record. -/
def literalBreak (out : Out) (previous : Option ContentView) (c : ContentView) : Out :=
  match previous with
  | none => out
  | some previous => out.add [0x0A] previous.stop c.start 0 false (-1) true

/-- One turn of the loop over the content records of a literal leaf. -/
def literalStep (src : Text) (leaf : LeafRecords) (previous : Option ContentView)
    (st : LiteralState) (c : ContentView) : LiteralState :=
  -- Columns of a tab that is partly of the prefix are shown as spaces.
  let out := emitVirtual (literalBreak st.out previous c) c
  { out := if c.start < c.stop then
        out.add (src.substring c.start c.stop) c.start c.stop
          (if leaf.kind = BlockKind.codeBlock then Style.code else 0) true (-1) false
      else out
    sourceStart := if st.sourceStart < 0 then c.start else st.sourceStart
    sourceEnd := c.stop
    starts := setLine st.starts leaf.firstLine c.line leaf.lineCount c.start
    ends := setLine st.ends leaf.firstLine c.line leaf.lineCount c.stop
    prefixes := setLine st.prefixes leaf.firstLine c.line leaf.lineCount c.prefixStart }

/-- The loop over the content records of a literal leaf. -/
def literalWalk (src : Text) (leaf : LeafRecords) :
    (previous : Option ContentView) → LiteralState → List ContentView → LiteralState
  | _, st, [] => st
  | previous, st, c :: content =>
    literalWalk src leaf (some c) (literalStep src leaf previous st c) content

/-- `_fillLineEnds` on one of the lists: a line without a content record keeps the caret at
    its end. Which lines those are is read off the starts. -/
def fillLineEnds (m : RenderModel) (src : Text) (first : Int) (starts list : List Int) :
    List Int :=
  list.mapIdx fun i x =>
    if 0 ≤ starts.getD i 0 ∨ (m.lineCount : Int) ≤ first + i then x else m.lineEndOf src (first + i)

/-- The lines of the fences of a fenced block hold no caret. -/
def clearFences (closed : Bool) (list : List Int) : List Int :=
  let opened := list.set 0 (-1)
  if closed ∧ 1 < list.length then opened.set (list.length - 1) (-1) else opened

/-- A code block opened by a fence line. -/
def LeafRecords.fenced (leaf : LeafRecords) : Bool :=
  leaf.kind == BlockKind.codeBlock && leaf.flags &&& BlockFlag.fenced != 0

/-- A per-line list of a literal row, from the one the walk over the content leaves. -/
def literalLines (m : RenderModel) (src : Text) (leaf : LeafRecords) (starts list : List Int) :
    List Int :=
  let filled := fillLineEnds m src leaf.firstLine starts list
  if leaf.fenced then clearFences (leaf.flags &&& BlockFlag.closed != 0) filled else filled

/-- The state of the walk over a literal leaf. -/
def literalResult (src : Text) (leaf : LeafRecords) : LiteralState :=
  literalWalk src leaf none
    { out := ⟨[], []⟩, sourceStart := -1, sourceEnd := -1
      starts := List.replicate leaf.lineCount (-1), ends := List.replicate leaf.lineCount (-1)
      prefixes := List.replicate leaf.lineCount (-1) } leaf.content

/-- `_literalRow`: the row of a code or an HTML block. -/
def literalRow (m : RenderModel) (src : Text) (block : Nat) (leaf : LeafRecords)
    (shells : List Shell) : ProjectedRow :=
  let st := literalResult src leaf
  { kind := if leaf.kind = BlockKind.codeBlock then .codeBlock else .htmlBlock
    block := block
    firstLine := leaf.firstLine.toNat
    lineCount := leaf.lineCount
    text := st.out.text
    segments := st.out.segments
    shells := shells
    sourceStart := if st.sourceStart < 0 then leaf.start else st.sourceStart
    sourceEnd := if st.sourceEnd < 0 then leaf.stop else st.sourceEnd
    contentStarts := literalLines m src leaf st.starts st.starts
    contentEnds := literalLines m src leaf st.starts st.ends
    prefixStarts := literalLines m src leaf st.starts st.prefixes
    fenced := leaf.fenced
    codeInfoStart := leaf.codeInfoStart
    codeInfoEnd := leaf.codeInfoEnd }

end Flark
