import Flark.Kernel.Projection
import Flark.Lib.Intervals

/-!
# Documents

The positions of a document (`FlarkDocument` of `kernel/document.dart`): where the caret may
sit. They depend on the source, the model and the projection only, so they are those of the
projection; a document adds its selection. (The host computes each set once and shares it
between documents that differ in their selection.)

* `Projection.blockedPairs`: the intervals no caret may be strictly inside;
* `Projection.isLegal`: whether an offset is a legal caret position;
* `Projection.legalOffsets`: all of them;
* `Projection.legalize`: the nearest one.
-/

namespace Flark

/-! ## Pairs -/

/-- A list of intervals as it is built, and whether each starts no earlier than the one
    before it. -/
structure Pairs where
  list : List (Int × Int)
  sorted : Bool
  byStart : sorted = true → Intervals.ByStart list

namespace Pairs

def empty : Pairs := ⟨[], true, fun _ => List.Pairwise.nil⟩

/-- Add an interval, where `behind` compares it with the one before. -/
def add (ps : Pairs) (behind : Int × Int → Int × Int → Bool)
    (hbehind : ∀ p q, behind p q = false → q.1 ≤ p.1) (p : Int × Int) : Pairs where
  list := ps.list ++ [p]
  sorted := ps.sorted && ps.list.getLast?.all fun q => !behind p q
  byStart h := by
    obtain ⟨hsorted, hlast⟩ := Bool.and_eq_true_iff.1 h
    have hpair := ps.byStart hsorted
    refine List.pairwise_append.2 ⟨hpair, List.pairwise_singleton _ _, fun q hq r hr => ?_⟩
    rw [List.mem_singleton.1 hr]
    rcases List.eq_nil_or_concat ps.list with hnil | ⟨init, last, hinit⟩
    · rw [hnil] at hq
      cases hq
    · rw [hinit, List.concat_eq_append] at hq hlast hpair
      simp only [List.getLast?_append, List.getLast?_singleton, Option.some_or, Option.all_some,
        Bool.not_eq_true'] at hlast
      have hle := hbehind _ _ hlast
      rcases List.mem_append.1 hq with hq | hq
      · exact ((List.pairwise_append.1 hpair).2.2 q hq last List.mem_cons_self).trans hle
      · rw [List.mem_singleton.1 hq]
        exact hle

/-- `_sortPairs`, where the list is out of order. -/
def ordered (ps : Pairs) : List (Int × Int) :=
  if ps.sorted then ps.list else Intervals.sort ps.list

theorem mem_ordered {ps : Pairs} {p : Int × Int} : p ∈ ps.ordered ↔ p ∈ ps.list := by
  rw [ordered]
  split
  · rfl
  · exact Intervals.mem_sort

theorem byStart_ordered (ps : Pairs) : Intervals.ByStart ps.ordered := by
  rw [ordered]
  split
  · next h => exact ps.byStart h
  · exact Intervals.byStart_sort _

/-- A later interval starts before the one before it. -/
def addByStart (ps : Pairs) (p : Int × Int) : Pairs :=
  ps.add (fun p q => p.1 < q.1) (fun _ _ h => not_lt.1 (of_decide_eq_false h)) p

/-- A later interval starts before the one before it, or starts with it and ends before it. -/
def addByEnds (ps : Pairs) (p : Int × Int) : Pairs :=
  ps.add (fun p q => decide (Intervals.Before p q))
    (fun _ _ h => Intervals.NotAfter.start_le (of_decide_eq_false h)) p

end Pairs

namespace Projection

variable (gs : Graphemes) (p : Projection)

/-! ## Hidden syntax and escapes -/

/-- The walk over the runs: the hidden intervals so far, the closing delimiters not emitted
    yet, innermost first, and the escapes so far. -/
structure RunWalk where
  hidden : Pairs
  pending : List (Int × Int)
  escapes : List (Int × Int)

/-- `flush`: emit the closing delimiters that start at the position or before it. -/
def flush (position : Int) : (pending : List (Int × Int)) → Pairs → List (Int × Int) × Pairs
  | [], hidden => ([], hidden)
  | q :: pending, hidden =>
    if q.1 ≤ position then flush position pending (hidden.addByStart q) else (q :: pending, hidden)

/-- One turn of the loop over the runs. -/
def runStep (m : RenderModel) (w : RunWalk) (r : Nat) : RunWalk :=
  let s : Int := m.runStart r
  let e : Int := m.runEnd r
  let cs : Int := m.runContentStart r
  let ce : Int := m.runContentEnd r
  let (pending, hidden) := flush s w.pending w.hidden
  { hidden := if s < cs then hidden.addByStart (s, cs) else hidden
    pending := if ce < e then (ce, e) :: pending else pending
    escapes := if m.runKind r = RunKind.escape ∧ s < ce then w.escapes ++ [(s, ce)] else w.escapes }

def runWalk : RunWalk :=
  (List.range p.model.runCount).foldl (runStep p.model) ⟨Pairs.empty, [], []⟩

/-- `_runPairs`: the hidden intervals of the runs, and the escapes whose backslash and escaped
    character are one caret unit. -/
def hiddenPairs : List (Int × Int) :=
  (flush p.source.length p.runWalk.pending p.runWalk.hidden).2.ordered

def escapePairs : List (Int × Int) := p.runWalk.escapes

/-! ## Atomic display units -/

/-- Where a displayed unit that starts at `u` in a segment starts in the source. -/
def unitStart (s : Segment) (u : Nat) : Int :=
  if s.exact then s.sourceStart + u - s.displayStart else s.sourceStart

/-- Where a displayed unit that ends at `v` in a segment ends in the source. -/
def unitEnd (s : Segment) (v : Nat) : Int :=
  if s.exact then s.sourceStart + v - s.displayStart else s.sourceEnd

/-- The loop back over the segments that end behind `offset`. -/
def firstIndex (segments : List Segment) (offset : Nat) : (i : Nat) → Nat
  | 0 => 0
  | i + 1 =>
    if (segments[i]?).any fun s => offset < s.displayEnd then firstIndex segments offset i
    else i + 1

/-- No grapheme joins the units before and after `boundary`, so that the text need not be cut
    there. -/
def keepsApart (text : Text) (boundary : Nat) : Bool :=
  let before := text.getD (boundary - 1) 0
  let after := text.getD boundary 0
  decide (before < 0x300) && decide (after < 0x300) && (before != 0x0D || after != 0x0A)

/-- One turn of the loop over the segment boundaries of a row: a displayed grapheme that
    crosses the boundary is one unit. `handled` is where the last such grapheme ends. -/
def boundaryStep (row : ProjectedRow) (st : Pairs × Nat) (i : Nat) : Pairs × Nat :=
  let (pairs, handled) := st
  let boundary := (row.segments[i]?.map Segment.displayEnd).getD 0
  if boundary = 0 ∨ row.text.length ≤ boundary ∨ boundary < handled then st
  else if keepsApart row.text boundary then st
  else
    match gs.rangeAt row.text boundary with
    | none => st
    | some (offset, stop) =>
      let firstIndex := firstIndex row.segments offset i
      -- The host would run off a list whose last segment ends before the text.
      match row.segments[firstIndex]?,
        (row.segments.drop firstIndex).find? fun s => stop ≤ s.displayEnd with
      | some first, some last =>
        let startSource := unitStart first offset
        let endSource := unitEnd last stop
        (if startSource < endSource then pairs.addByEnds (startSource, endSource) else pairs, stop)
      | _, _ => (pairs, stop)

/-- The atomic units of one row. -/
def rowUnits (pairs : Pairs) (row : ProjectedRow) : Pairs :=
  let replaced := row.segments.foldl (fun pairs s =>
    if s.exact = false ∧ s.sourceStart < s.sourceEnd then
      pairs.addByEnds (s.sourceStart, s.sourceEnd)
    else pairs) pairs
  ((List.range row.segments.length).foldl (boundaryStep gs row) (replaced, 0)).1

/-- `_rowAtomicPairs`: source ranges that one non-exact display glyph represents, and displayed
    graphemes joined across segments. -/
def rowAtomicPairs : List (Int × Int) := (p.rows.foldl (rowUnits gs) Pairs.empty).ordered

/-- `_blockedPairs`: the intervals no caret may be strictly inside, merged where they overlap;
    the offset between two that touch is legal. -/
def blockedPairs : List (Int × Int) :=
  Intervals.merge false [p.hiddenPairs, p.escapePairs, p.rowAtomicPairs gs]

/-! ## Caret spans -/

/-- Whether the row is a cell that the source never wrote: an empty cell where the cell before
    it ends. -/
def isMissingCell (index : Option Int) : Bool :=
  match index with
  | none => false
  | some i =>
    if i ≤ 0 then false
    else
      match p.rows[i.toNat]?, p.rows[i.toNat - 1]? with
      | some row, some previous =>
        -- The parser completes a short row with cells at the end of the last one written.
        row.kind == .tableCell && decide (0 < row.column) &&
          row.tableRowBlock == previous.tableRowBlock && row.sourceStart == row.sourceEnd &&
          row.text.isEmpty && row.sourceStart == p.model.blockEnd previous.block.toNat
      | _, _ => false

/-- Where the caret may sit on a line of a row. A fenced block with no body line has one
    anchor at its end. -/
def rowSpans (m : RenderModel) (line : Nat) (row : ProjectedRow) : List (Int × Int) :=
  let i := line - row.firstLine
  if row.firstLine ≤ line ∧ i < row.contentStarts.length then
    let s := row.contentStarts.getD i (-1)
    let e := row.contentEnds.getD i (-1)
    (if 0 ≤ s then [(s, if e < s then s else e)] else []) ++
      if row.bodyless ∧ (line : Int) = m.lineAt row.sourceEnd then
        [(row.sourceEnd, row.sourceEnd)]
      else []
  else []

/-- `lineSpans`: where the caret may sit on a line, in order. A cell that the source never wrote
    has no span. -/
def lineSpans (line : Nat) : List (Int × Int) :=
  (((p.rowsByLine.getD line []).filter fun (r : Nat) => !p.isMissingCell (some (r : Int))).flatMap
    fun r => match p.rows[r]? with
      | none => []
      | some row => rowSpans p.model line row).insertionSort fun a b => a.1 ≤ b.1

def hasCaretSpans : Bool :=
  (List.range p.rowsByLine.length).any fun l => !(p.lineSpans l).isEmpty

/-! ## Legal offsets -/

/-- `consider`, for one grapheme boundary after the other: the cursors into the blocked
    intervals and the caret spans only advance. -/
def considerAll : (blocked spans : List (Int × Int)) → (boundaries : List Int) → List Int
  | _, _, [] => []
  | blocked, spans, x :: boundaries =>
    let blocked := blocked.dropWhile fun b => b.2 ≤ x
    if blocked.head?.any fun b => b.1 < x ∧ x < b.2 then considerAll blocked spans boundaries
    else
      let spans := spans.dropWhile fun s => s.2 < x
      if spans.head?.any fun s => s.1 ≤ x then x :: considerAll blocked spans boundaries
      else considerAll blocked spans boundaries

/-- The caret spans of all lines; without any, the end of the source keeps the caret a place. -/
def caretSpans : List (Int × Int) :=
  if p.hasCaretSpans then
    Intervals.merge true
      [Intervals.sort ((List.range p.model.lineCount).flatMap p.lineSpans)]
  else [((p.source.length : Int), (p.source.length : Int))]

/-- `_legalOffsets`. -/
def legalOffsets : List Int :=
  considerAll (p.blockedPairs gs) p.caretSpans ((gs.boundaries p.source).map fun (x : Nat) => (x : Int))

/-- `isLegal`: whether a source offset is a legal caret position. -/
def isLegal (offset : Int) : Bool :=
  if offset < 0 ∨ p.source.length < offset then false
  else
    let blocked := p.blockedPairs gs
    let lo := Bisect.bisectFirst (fun mid => (blocked.getD mid (0, 0)).1 < offset) 0 blocked.length
    if 0 < lo ∧ offset < (blocked.getD (lo - 1) (0, 0)).2 then false
    else
      let spans := p.lineSpans (p.model.lineAt offset).toNat
      if !(spans.any fun s => s.1 ≤ offset && offset ≤ s.2) &&
          (p.hasCaretSpans || offset != p.source.length) then false
      else (gs.rangeAt p.source offset.toNat).isNone

/-- The loop of `legalize` over the hidden intervals: out at the end of those the offset is in. -/
def pastHidden : (hidden : List (Int × Int)) → Int → Int
  | [], o => o
  | q :: hidden, o => if o ≤ q.1 then o else pastHidden hidden (if o < q.2 then q.2 else o)

theorem pastHidden_cons (q : Int × Int) (hidden : List (Int × Int)) (o : Int) :
    pastHidden (q :: hidden) o =
      if o ≤ q.1 then o else pastHidden hidden (if o < q.2 then q.2 else o) := rfl

/-- The legal offset next to an illegal one: on its line before another line's, and of two on
    its line the nearer. -/
def nearestLegal (o : Int) : Int :=
  let offsets := p.legalOffsets gs
  let line := p.model.lineAt o
  let low := Bisect.bisectFirst (fun mid => offsets.getD mid 0 < o) 0 offsets.length
  let after := offsets[low]?
  let before := if 0 < low then offsets[low - 1]? else none
  let onLine : Option Int → Option Int := fun x => x.filter fun x => p.model.lineAt x == line
  match onLine after, onLine before with
  | some after, some before => if after - o < o - before then after else before
  | some after, none => after
  | none, some before => before
  | none, none => (after.or before).getD p.source.length

/-- `legalize`: where a caret asked for at an offset goes. -/
def legalize (offset : Int) : Int :=
  let o := max 0 (min offset p.source.length)
  if p.isLegal gs o then o
  else
    let o := pastHidden p.hiddenPairs o
    if p.isLegal gs o then o
    else if (p.legalOffsets gs).isEmpty then p.source.length
    else p.nearestLegal gs o

end Projection

/-! ## Selections -/

/-- `FlarkSelection`. `tableCell` is the row of an unwritten table cell that holds the caret. -/
structure Selection where
  base : Int
  extent : Int
  tableCell : Option Int := none
  deriving DecidableEq

namespace Selection

def collapsed (offset : Int) : Selection := ⟨offset, offset, none⟩

def cell (offset : Int) (row : Int) : Selection := ⟨offset, offset, some row⟩

def isCollapsed (s : Selection) : Bool := s.base == s.extent

def start (s : Selection) : Int := if s.base < s.extent then s.base else s.extent

def stop (s : Selection) : Int := if s.base < s.extent then s.extent else s.base

end Selection

/-- `FlarkDocument`: a projection, which has its source and model, and a selection. -/
structure Document where
  projection : Projection
  selection : Selection
  deriving DecidableEq

namespace Document

variable (gs : Graphemes)

def source (d : Document) : Text := d.projection.source

def model (d : Document) : RenderModel := d.projection.model

/-- The selection that `withSelection` gives: a range of the whole source and the caret of an
    unwritten cell stay as they are, the ends of any other are made legal. -/
def legalSelection (p : Projection) (s : Selection) : Selection :=
  if !s.isCollapsed && s.start == 0 && s.stop == p.source.length then s
  else if p.isMissingCell s.tableCell && s.isCollapsed &&
      (s.tableCell.bind fun i => p.rows[i.toNat]?).any fun row => row.sourceStart == s.extent then s
  else ⟨p.legalize gs s.base, p.legalize gs s.extent, none⟩

def withSelection (d : Document) (s : Selection) : Document :=
  { d with selection := legalSelection gs d.projection s }

/-- `projectFlarkDocument`: the document of a model of a source. The document being replaced
    lends its rows. -/
def project (source : Text) (model : RenderModel) (selection : Selection)
    (options : ProjectionOptions) (previous : Option Document) : Document :=
  withSelection gs ⟨Projection.of gs model source options (previous.map Document.projection), ⟨0, 0, none⟩⟩
    selection

/-- A document without the provenance of its rows. -/
def withoutOrigins (d : Document) : Document := { d with projection := d.projection.withoutOrigins }

@[simp] theorem withSelection_projection (d : Document) (s : Selection) :
    (d.withSelection gs s).projection = d.projection := rfl

@[simp] theorem withSelection_source (d : Document) (s : Selection) :
    (d.withSelection gs s).source = d.source := rfl

@[simp] theorem project_source (source : Text) (model : RenderModel) (selection : Selection)
    (options : ProjectionOptions) (previous : Option Document) :
    (project gs source model selection options previous).source = source := rfl

@[simp] theorem project_model (source : Text) (model : RenderModel) (selection : Selection)
    (options : ProjectionOptions) (previous : Option Document) :
    (project gs source model selection options previous).model = model := rfl

end Document

end Flark
