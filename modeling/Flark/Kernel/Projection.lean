import Flark.Kernel.Continuation

/-!
# Projection

`Projection.of` of `kernel/projection.dart`: the rows of a model of a source, from the
definitions, the leaf blocks and the lines that neither claims, in line order. Given an
earlier projection, the row of a leaf whose records and lines the edit left alone is taken
over from it (`Reuse`) rather than built.
-/

namespace Flark

namespace RenderModel

variable (m : RenderModel) (src : Text)

/-- The end of a line, as the integer that rows hold. -/
def lineEnd (l : Nat) : Int := m.lineEndOf src l

/-! ## Containers -/

def isContainer (kind : Nat) : Bool :=
  kind == BlockKind.blockQuote || kind == BlockKind.item || kind == BlockKind.footnoteDefinition

/-- Whether container `b` covers the line, by its source range. -/
def containerCovers (b l : Nat) : Bool :=
  isContainer (m.blockKind b) && decide (m.lineOfUtf16 (m.blockStart b) ≤ l) &&
    decide (l ≤ m.lineOfUtf16 (m.blockEnd b - 1))

/-- `containerOf`: the innermost container of a line, which is the last to cover it. -/
def containerOf (l : Nat) : Option Nat :=
  (List.range m.blockCount).foldl (fun found b => if m.containerCovers b l then some b else found)
    none

/-- `_itemIndexOf` and `_cellIndexOf`: the position of a block of a kind among those of its
    kind with its parent. -/
def siblingIndex (kind b : Nat) : Nat :=
  if m.blockKind b ≠ kind ∨ m.blockParent b = noParent then 0
  else ((List.range b).filter fun a =>
    m.blockKind a == kind && m.blockParent a == m.blockParent b).length

/-- The shell that a container or list contributes. -/
def shellOf (b : Nat) : Option Shell :=
  let kind := m.blockKind b
  let flags := m.blockFlags b
  if kind = BlockKind.blockQuote then some { kind := .blockQuote, block := b }
  else if kind = BlockKind.item then
    let task := flags &&& BlockFlag.task != 0
    -- The checkbox is the task symbol with its ASCII brackets.
    let s := m.itemTaskStart b
    let e := m.itemTaskEnd b
    let list := m.blockParent b
    let ordered := list != noParent && m.blockFlags list &&& BlockFlag.ordered != 0
    some {
      kind := .item
      block := b
      ordered := ordered
      start := if ordered then m.blockAttr list else 1
      task := task
      checked := task && flags &&& BlockFlag.checked != 0
      checkboxStart := if task ∧ 0 < s then (s : Int) - 1 else -1
      checkboxEnd := if task ∧ 0 < e then (e : Int) + 1 else -1
      itemIndex := m.siblingIndex BlockKind.item b }
  else if kind = BlockKind.list then
    some {
      kind := .list
      block := b
      ordered := flags &&& BlockFlag.ordered != 0
      start := m.blockAttr b
      tight := flags &&& BlockFlag.tight != 0 }
  else if kind = BlockKind.footnoteDefinition then
    some { kind := .footnoteDefinition, block := b }
  else none

/-- The loop of `_buildShells` up the parents, which come before their children: the shells
    outermost first. -/
def shellChain : (fuel : Nat) → (b : Nat) → List Shell
  | 0, _ => []
  | fuel + 1, b =>
    if b = noParent then []
    else shellChain fuel (m.blockParent b) ++ (m.shellOf b).toList

/-- `_shellsFor`. -/
def shellsFor (container : Option Nat) : List Shell :=
  match container with
  | none => []
  | some b => m.shellChain m.blockCount b

/-! ## Definition rows -/

/-- `emitExactDefinition`. -/
def emitDefinition (raw : Text) (base : Nat) (out : Out) (cursor stop : Nat) : Out :=
  if stop ≤ cursor then out
  else out.add (raw.substring cursor stop) (base + cursor : Nat) (base + stop : Nat) 0 true (-1) false

/-- The loop over a definition's source: a carriage return, with the line feed after it,
    shows as a line break. -/
def definitionWalk (raw : Text) (base : Nat) : (rest : Text) → (i cursor : Nat) → Out → Out
  | [], _, cursor, out => emitDefinition raw base out cursor raw.length
  | u :: rest, i, cursor, out =>
    if u = 0x0D then
      let stop := if rest.head? = some 0x0A then i + 2 else i + 1
      definitionWalk raw base rest (i + 1) stop
        ((emitDefinition raw base out cursor i).add [0x0A] (base + i : Nat) (base + stop : Nat) 0
          false (-1) true)
    else definitionWalk raw base rest (i + 1) cursor out

/-- The source-only row of a definition. -/
def definitionRow (d : Nat) : ProjectedRow :=
  let start := m.definitionStart d
  let stop := m.definitionEnd d
  let first := m.lineOfUtf16 start
  -- The definition's end may be behind its line break, which is not on the next line.
  let last := m.lineOfUtf16 (if start < stop then stop - 1 else start)
  let raw := (src.substring start stop).trimRight
  let sourceEnd : Int := (start + raw.length : Nat)
  let out := definitionWalk raw start raw 0 0 ⟨[], []⟩
  let lines := List.range' first (last + 1 - first)
  let starts := lines.map fun l => ((max start (m.lineStartUtf16 l) : Nat) : Int)
  { kind := .definition
    block := -1
    firstLine := first
    lineCount := last + 1 - first
    text := out.text
    segments := out.segments
    shells := m.shellsFor (m.containerOf first)
    sourceStart := start
    sourceEnd := sourceEnd
    contentStarts := starts
    contentEnds := lines.map fun l => min sourceEnd (m.lineEnd src l)
    prefixStarts := starts }

/-! ## Rows of blocks -/

/-- `_lineEnds`. -/
def lineEnds (first n : Nat) : List Int :=
  (List.range' first (min (first + n) m.lineCount - first)).map (m.lineEnd src)

def thematicBreakRow (b : Nat) : ProjectedRow :=
  let first := m.blockFirstLine b
  let n := m.blockLineCount b
  { kind := .thematicBreak
    block := b
    firstLine := first
    lineCount := n
    text := []
    segments := []
    shells := m.shellsFor (m.containerOf first)
    sourceStart := m.blockStart b
    sourceEnd := m.blockEnd b
    contentStarts := m.lineEnds src first n
    contentEnds := m.lineEnds src first n
    prefixStarts := m.lineEnds src first n }

/-- `_delimiterRow`: the delimiter line of a table without body rows, as one row of its
    source. Inside containers the line must start with the prefix that continues the header
    line's containers, which then stays out of the row; otherwise the row stays hidden. -/
def delimiterRow (table line : Nat) : Option ProjectedRow :=
  let lineStart := m.lineStartUtf16 line
  let stop := m.lineEnd src line
  let row (start : Int) : ProjectedRow := {
    kind := .tableCell
    block := -1
    firstLine := line
    lineCount := 1
    text := src.substring start stop
    segments := if start < stop then [⟨0, (stop - start).toNat, start, stop, 0, true, -1, false⟩]
      else []
    shells := m.shellsFor (m.containerOf line)
    sourceStart := start
    sourceEnd := stop
    contentStarts := [start]
    contentEnds := [stop]
    prefixStarts := [start]
    tableBlock := table
    column := 0 }
  match m.containerOf line with
  | none => some (row lineStart)
  -- What continues the containers is kept out of the row, and is to be there as such.
  | some _ =>
    let piece := continuationPrefix src m (m.blockFirstLine table) (m.blockStart table) table
    if src.startsWith piece lineStart ∧ (lineStart + piece.length : Int) ≤ stop then
      some (row (lineStart + piece.length))
    else none

/-- `_cellFields`. -/
def cellFields (b : Nat) : CellFields :=
  let rowBlock := m.blockParent b
  let tableBlock : Int := if rowBlock = noParent then -1 else m.blockParent rowBlock
  let column := m.siblingIndex BlockKind.tableCell b
  let packed := if tableBlock < 0 then 0 else m.tableAlignments tableBlock.toNat
  { tableBlock := tableBlock
    tableRowBlock := rowBlock
    column := column
    header := rowBlock != noParent && m.blockFlags rowBlock &&& 1 != 0
    alignment := if column < 16 then packed >>> (2 * column) &&& 3 else 0 }

/-- The kinds whose rows come from their records. -/
def isInline (kind : Nat) : Bool :=
  kind == BlockKind.paragraph || kind == BlockKind.heading || kind == BlockKind.tableCell

def isLiteral (kind : Nat) : Bool := kind == BlockKind.codeBlock || kind == BlockKind.htmlBlock

/-- `_isLeaf`. -/
def isLeaf (kind : Nat) : Bool := isInline kind || isLiteral kind

/-- The fields of a leaf's row that its own records do not determine: its first line, its
    shells and its place in a table. -/
def leafFirst (b : Nat) : Nat := (m.leaf b).rowLines.1.toNat
def leafShells (b : Nat) : List Shell := m.shellsFor (m.containerOf (m.leafFirst b))
def leafCell (b : Nat) : CellFields :=
  if m.blockKind b = BlockKind.tableCell then m.cellFields b else {}

/-- The row of a leaf, built anew. -/
def freshRow (gs : Graphemes) (options : ProjectionOptions) (b : Nat) : ProjectedRow :=
  if isInline (m.blockKind b) then
    inlineRow gs m src options b (m.leaf b) (m.leafShells b) (m.leafCell b)
  else literalRow m src b (m.leaf b) (m.leafShells b)

/-! ## Blank rows -/

/-- Where the prefix of a blank line begins: at the content record of the innermost container
    on that line; at the line's end without one; outside any container, where the line
    starts. -/
def blankPrefixStart (l : Nat) (shells : List Shell) : Int :=
  match shells.getLast? with
  | none => m.lineStartUtf16 l
  | some inner =>
    let offset := m.blockContentOffset inner.block
    let lo := Bisect.bisectFirst (fun mid => m.contentLine mid ≤ l) offset
      (offset + m.blockContentCount inner.block)
    if offset < lo ∧ m.contentLine (lo - 1) = l then m.contentPrefixStart (lo - 1)
    else m.lineEnd src l

/-- The empty item whose one-character marker is all of the line, and the only item of its
    list. -/
def bareItem (l : Nat) (shells : List Shell) : Option Nat :=
  match shells.getLast? with
  | none => none
  | some inner =>
    if inner.kind = .item then
      let item := inner.block
      let list := m.blockParent item
      let start := m.blockStart item
      -- Only the marker that starts its own list is shown as text: between other items it is one of
      -- them.
      let alone := list ≠ noParent ∧ m.blockStart list = start ∧ m.blockEnd list = m.blockEnd item
      if alone ∧ m.blockFirstLine item = l ∧ m.lineEnd src l - start = 1 ∧
          (m.blockEnd item : Int) = m.lineEnd src l then some item
      else none
    else none

/-- The row of a line that nothing claimed. -/
def blankRow (l : Nat) : ProjectedRow :=
  let stop := m.lineEnd src l
  let shells := m.shellsFor (m.containerOf l)
  match m.bareItem src l shells with
  -- The line of an item that has nothing else: its own shells are not those of the row.
  | some item =>
    barePrefixRow src item l (m.blockStart item) stop (shells.take (shells.length - 2))
  | none =>
    { kind := .blank
      block := -1
      firstLine := l
      lineCount := 1
      text := []
      segments := []
      shells := shells
      sourceStart := stop
      sourceEnd := stop
      contentStarts := [stop]
      contentEnds := [stop]
      prefixStarts := [m.blankPrefixStart src l shells] }

end RenderModel

/-! ## Building -/

/-- The rows so far, as they were added, and the lines that a row owns or hides: runs of
    lines as first line and number. -/
structure Building where
  rows : List ProjectedRow
  claimed : List (Nat × Nat)

namespace Building

def claims (st : Building) (l : Nat) : Bool :=
  st.claimed.any fun c => decide (c.1 ≤ l) && decide (l < c.1 + c.2)

def claim (st : Building) (first n : Nat) : Building :=
  { st with claimed := (first, n) :: st.claimed }

/-- `addRow`. -/
def addRow (st : Building) (row : ProjectedRow) : Building where
  rows := st.rows ++ [row]
  claimed := (row.firstLine, row.lineCount) :: st.claimed

end Building

section

variable (gs : Graphemes) (m : RenderModel) (src : Text) (options : ProjectionOptions)
  (reused : Nat → Option ProjectedRow)

/-- One turn of the loop over the blocks. -/
def blockStep (st : Building) (b : Nat) : Building :=
  let kind := m.blockKind b
  let first := m.blockFirstLine b
  let n := m.blockLineCount b
  let st :=
    if RenderModel.isLeaf kind then
      st.addRow ((reused b).getD (m.freshRow src gs options b))
    else if kind = BlockKind.thematicBreak then st.addRow (m.thematicBreakRow src b)
    else if kind = BlockKind.table then
      let st := st.claim first n
      -- A table of only a header line and its delimiter line shows the delimiter line.
      if options.editableDelimiterRows ∧ n = 2 ∧ first + 1 < m.lineCount then
        match m.delimiterRow src b (first + 1) with
        | some row => st.addRow row
        | none => st
      else st
    else st
  -- The lines that a leaf owns but has no content for are hidden.
  if RenderModel.isLeaf kind ∧ kind ≠ BlockKind.tableCell then st.claim first n else st

/-- One turn of the loop over the lines. -/
def blankStep (st : Building) (l : Nat) : Building :=
  if st.claims l then st else st.addRow (m.blankRow src l)

/-- The rows as they are added: definitions, blocks, and the lines left. -/
def buildRows : List ProjectedRow :=
  let st := (List.range m.definitionCount).foldl
    (fun st d => st.addRow (m.definitionRow src d)) (⟨[], []⟩ : Building)
  let st := (List.range m.blockCount).foldl (blockStep gs m src options reused) st
  ((List.range m.lineCount).foldl (blankStep m src) st).rows

/-- The rows by first line, and by source start on one line (the host sorts where they are
    out of order). -/
def orderRows (lineCount : Nat) (rows : List ProjectedRow) : List ProjectedRow :=
  (List.range (lineCount + 1)).flatMap fun l =>
    (rows.filter fun r => min r.firstLine lineCount == l).insertionSort fun a b =>
      a.sourceStart ≤ b.sourceStart

/-- The indexes of the rows that own a line. -/
def rowsOn (rows : List ProjectedRow) (l : Nat) : List Nat :=
  (List.range rows.length).filter fun i =>
    (rows[i]?).any fun r => decide (r.firstLine ≤ l) && decide (l < r.firstLine + r.lineCount)

end

/-- The projection of a model of a source. -/
structure Projection where
  model : RenderModel
  source : Text
  rows : List ProjectedRow
  rowsByLine : List (List Nat)
  options : ProjectionOptions
  deriving DecidableEq

/-- A projection without the provenance of its rows. -/
def Projection.withoutOrigins (p : Projection) : Projection :=
  { p with rows := p.rows.map ProjectedRow.withoutOrigin }

/-- The rows placed in order, and listed by line. -/
def Projection.ofRows (m : RenderModel) (src : Text) (options : ProjectionOptions)
    (rows : List ProjectedRow) : Projection :=
  let ordered := (orderRows m.lineCount rows).mapIdx fun i r => { r with index := i }
  { model := m
    source := src
    rows := ordered
    rowsByLine := (List.range m.lineCount).map (rowsOn ordered)
    options := options }

/-! ## Reuse -/

/-- The units that two texts share at the start. -/
def commonPrefix : Text → Text → Nat
  | a :: as, b :: bs => if a = b then commonPrefix as bs + 1 else 0
  | _, _ => 0

/-- `sameContentRecords`. -/
def sameContentRecords (a : RenderModel) (aFirst : Nat) (b : RenderModel) (bFirst count : Nat)
    (aBase bBase aLine bLine : Int) : Bool :=
  (List.range count).all fun k =>
    let i := aFirst + k
    let j := bFirst + k
    decide ((a.contentStart i : Int) - aBase = b.contentStart j - bBase) &&
    decide ((a.contentEnd i : Int) - aBase = b.contentEnd j - bBase) &&
    decide ((a.contentPrefixStart i : Int) - aBase = b.contentPrefixStart j - bBase) &&
    decide ((a.contentLine i : Int) - aLine = b.contentLine j - bLine) &&
    decide (a.content i 3 >>> 30 = b.content j 3 >>> 30)

/-- `sameRunRecords`: the words of a run compare as they are, apart from its range; a wide
    run's exact values and a display override are read from the extras. -/
def sameRunRecords (a : RenderModel) (aFirst : Nat) (b : RenderModel) (bFirst count : Nat)
    (aBase bBase : Int) : Bool :=
  (List.range count).all fun k =>
    let r := aFirst + k
    let q := bFirst + k
    decide (a.run r 2 = b.run q 2) && decide (a.run r 3 = b.run q 3) &&
    decide ((a.run r 0 : Int) - aBase = b.run q 0 - bBase) &&
    decide ((a.run r 1 : Int) - aBase = b.run q 1 - bBase) &&
    (a.run r 2 != RenderModel.wideHidden ||
      decide ((a.runContentStart r : Int) - aBase = b.runContentStart q - bBase) &&
      decide ((a.runContentEnd r : Int) - aBase = b.runContentEnd q - bBase)) &&
    (a.run r 3 >>> 16 &&& 0xFFFF != RenderModel.wideDistance ||
      decide ((a.runParent r : Int) - aFirst = b.runParent q - bFirst)) &&
    (!a.displaysString r || decide (a.displayOverride r = b.displayOverride q))

/-- A projection whose rows a new one can take over, with the model and the source of the
    new one. -/
structure Reuse where
  previous : Projection
  m : RenderModel
  source : Text

namespace Reuse

variable (u : Reuse)

def old : RenderModel := u.previous.model
def length : Nat := u.source.length
def oldLength : Nat := u.previous.source.length

/-- Source both versions share at the start. -/
def commonStart : Nat := commonPrefix u.previous.source u.source

/-- Source both versions share at the end, after what they share at the start. -/
def commonEnd : Nat :=
  min (commonPrefix u.previous.source.reverse u.source.reverse)
    (min u.length u.oldLength - u.commonStart)

/-- `rowOfBlock`: the row of a leaf block of the earlier projection. -/
def rowOfBlock (b : Nat) : Option ProjectedRow :=
  if RenderModel.isLeaf (u.old.blockKind b) then
    u.previous.rows.reverse.find? fun row => row.block == b
  else none

/-- `_extentStart`: where the lines of a block start, or the block if it starts earlier. -/
def extentStart (m : RenderModel) (b : Nat) : Nat :=
  let first := m.blockFirstLine b
  let start := m.blockStart b
  min start (if first < m.lineCount then m.lineStartUtf16 first else start)

/-- `_extentEnd`: where the line after a block starts. A run may end one past its block. -/
def extentEnd (m : RenderModel) (length b : Nat) : Nat :=
  let next := m.blockFirstLine b + m.blockLineCount b
  max (if next < m.lineCount then m.lineStartUtf16 next else length)
    (if m.blockEnd b < length then m.blockEnd b + 1 else length)

/-- `_sameBlock`: the blocks have the same records relative to their bases. -/
def sameBlock (b ob : Nat) (base oldBase : Int) : Bool :=
  let m := u.m
  let old := u.old
  decide (m.blockKind b = old.blockKind ob) && decide (m.blockFlags b = old.blockFlags ob) &&
  decide (m.blockAttr b = old.blockAttr ob) &&
  decide (m.blockLineCount b = old.blockLineCount ob) &&
  decide ((m.blockStart b : Int) - base = old.blockStart ob - oldBase) &&
  decide ((m.blockEnd b : Int) - base = old.blockEnd ob - oldBase) &&
  -- Only a fenced block has an info string.
  (!m.blockFenced b ||
    decide ((m.codeInfoStart b : Int) - base = old.codeInfoStart ob - oldBase) &&
    decide ((m.codeInfoEnd b : Int) - base = old.codeInfoEnd ob - oldBase)) &&
  decide (m.blockContentCount b = old.blockContentCount ob) &&
  sameContentRecords m (m.blockContentOffset b) old (old.blockContentOffset ob)
    (m.blockContentCount b) base oldBase (m.blockFirstLine b) (old.blockFirstLine ob) &&
  decide (m.firstRunOfBlock (b + 1) - m.firstRunOfBlock b =
    old.firstRunOfBlock (ob + 1) - old.firstRunOfBlock ob) &&
  sameRunRecords m (m.firstRunOfBlock b) old (old.firstRunOfBlock ob)
    (m.firstRunOfBlock (b + 1) - m.firstRunOfBlock b) base oldBase

/-- The old block that block `b` can stand for, with where its extent started: the same
    block before the change, the same block from the end behind it. -/
def candidate (b : Nat) : Option (Int × Int) :=
  let start := extentStart u.m b
  let stop := extentEnd u.m u.length b
  if stop ≤ u.commonStart then some (b, start)
  else if (u.length : Int) - u.commonEnd ≤ start then
    some ((b : Int) - ((u.m.blockCount : Int) - u.old.blockCount),
      (start : Int) - ((u.length : Int) - u.oldLength))
  else none

/-- `match`: the old row for a block, with how far its source offsets and run indexes move. -/
def matchRow (b : Nat) : Option (ProjectedRow × Int × Int) :=
  if u.m.blockLineCount b = 0 then none
  else
    match u.candidate b with
    | none => none
    | some (ob, oldStart) =>
      let start := extentStart u.m b
      let stop := extentEnd u.m u.length b
      if ob < 0 ∨ u.old.blockCount ≤ ob then none
      else
        match u.rowOfBlock ob.toNat with
        | none => none
        | some row =>
          -- The old row is taken if its block covered the same source, and has the same records.
          if (extentStart u.old ob.toNat : Int) ≠ oldStart ∨
              (extentEnd u.old u.oldLength ob.toNat : Int) ≠ oldStart + (stop - start : Int) ∨
              ¬u.sameBlock b ob.toNat start oldStart then none
          else
            some (row, start - oldStart,
              (u.m.firstRunOfBlock b : Int) - u.old.firstRunOfBlock ob.toNat)

/-- `_reusedRow`: the previous projection's row for a leaf, moved into place. -/
def reusedRow (b : Nat) : Option ProjectedRow :=
  (u.matchRow b).map fun (row, delta, runDelta) =>
    row.reused 0 b (u.m.leafFirst b) (u.m.leafShells b) delta runDelta (u.m.leafCell b)

end Reuse

/-- `Projection.of`. -/
def Projection.of (gs : Graphemes) (m : RenderModel) (src : Text) (options : ProjectionOptions)
    (previous : Option Projection) : Projection :=
  let reused : Nat → Option ProjectedRow := fun b =>
    match previous with
    | none => none
    | some previous =>
      if previous.options = options then (Reuse.mk previous m src).reusedRow b else none
  .ofRows m src options (buildRows gs m src options reused)

end Flark
