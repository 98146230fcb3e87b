import Flark.Kernel.Editor
import Flark.Kernel.Emptying
import Flark.Kernel.WordMoves

/-!
# Inline formatting

`SetStyle` (`kernel/inline_formatting.dart`): a caret at the edge of an owner of the style steps
across its delimiter, a caret inside one has it unwrapped, any other caret has the style put in or
taken out of the pending style; a range is rewritten, and the rewriting kept where the parser reads
the text as it was but for the style.

* `Editor.styleState`, `Editor.applySetStyle`: as the source has them;
* `Document.SameBut`: rows that differ in one style only;
* `sameBut_of_formattingContent`: the check of a rewriting (`_formattingContent`) reads just that.
-/

namespace Flark

namespace Style

/-- The styles a pair of delimiters spells, outermost first where they nest. -/
def delimited : List Nat := [strong, emphasis, strikethrough, code]

/-- `_styleDelimiter`. -/
def delimiter (style : Nat) : Option Text :=
  if style = emphasis then some (Text.ofString "*")
  else if style = strong then some (Text.ofString "**")
  else if style = strikethrough then some (Text.ofString "~~")
  else if style = code then some [0x60]
  else none

/-- `mask & ~style`. -/
def without (mask style : Nat) : Nat := mask ^^^ (mask &&& style)

/-- `mask & style != 0`. -/
def has (mask style : Nat) : Bool := mask &&& style != 0

end Style

/-- `FlarkStyleValue`. -/
inductive StyleValue
  | off
  | on
  | mixed
  deriving DecidableEq, Repr

/-- The value that `SetStyle` asks for. -/
def StyleValue.asked (enabled : Bool) : StyleValue := if enabled then .on else .off

/-- `FlarkStyleState`. -/
structure StyleState where
  value : StyleValue
  canEnable : Bool
  canDisable : Bool
  deriving DecidableEq, Repr

/-- An entry of `_formattingContent`: a row, or a run of segments of it up to a display offset. -/
inductive FormattingEntry
  | row (kind : RowKind) (text : Text) (headingLevel : Nat)
  | run (stop mask : Nat)
  deriving DecidableEq

/-- The runs of a row's segments that differ in no style but the one excepted: the loop of
    `_formattingContent` over the segments, from the end and the mask of the run it is in. -/
def formattingRuns (exceptStyle : Nat) : (stop : Nat) → (mask : Option Nat) → List Segment →
    List FormattingEntry
  | stop, mask, [] => (mask.map (FormattingEntry.run stop)).toList
  | stop, mask, s :: segments =>
    let nextMask := Style.without s.styles exceptStyle
    (match mask with
      | some mask => if mask ≠ nextMask then [.run stop mask] else []
      | none => []) ++ formattingRuns exceptStyle s.displayEnd (some nextMask) segments

/-- The entries of a row. -/
def ProjectedRow.formattingContent (row : ProjectedRow) (exceptStyle : Nat) :
    List FormattingEntry :=
  .row row.kind row.text row.headingLevel :: formattingRuns exceptStyle 0 none row.segments

/-- What the loop of `_contentRange` makes of the range at an owner that has all of it: the range
    keeps to the owner's content. -/
def narrowTo (range : Int × Int) (o : Owner) : Int × Int :=
  if range.1 < o.start ∨ o.stop < range.2 then range
  else if max range.1 o.contentStart < min range.2 o.contentEnd then
    (max range.1 o.contentStart, min range.2 o.contentEnd)
  else range

namespace Document

variable (gs : Graphemes) (d : Document)

/-- `typingContextAt`. -/
def typingContextAt (offset : Int) : Nat :=
  (d.ownersAt gs offset).foldl (fun mask o => mask ||| o.style) 0

/-- `ownersTouching`: the owners that are next to an offset, their delimiters included. -/
def ownersTouching (offset : Int) : List Owner :=
  let (first, stop) := d.runsNear gs offset
  ((List.range' first (stop - first)).filter fun r =>
    owns (d.model.runKind r) && d.model.runKind r != RunKind.escape &&
      ((d.model.runStart r : Int) == offset || (d.model.runEnd r : Int) == offset)).map
    d.model.owner

/-- A turn of the loop of `_contentRange`. -/
def contentTurn (range : Int × Int) : Int × Int :=
  (d.ownersAt gs range.1 ++ d.ownersAt gs range.2 ++ d.ownersTouching gs range.1 ++
    d.ownersTouching gs range.2).foldl narrowTo range

/-- The loop of `_contentRange`. A turn that goes on has made the range smaller. -/
def contentTurns : (fuel : Nat) → (range : Int × Int) → Int × Int
  | 0, range => range
  | fuel + 1, range =>
    let next := d.contentTurn gs range
    if next = range then range else contentTurns fuel next

/-- `_contentRange`. -/
def contentRange (start stop : Int) : Int × Int :=
  if start = stop then (start, stop)
  else
    let range := d.contentTurns gs (stop - start).toNat (start, stop)
    match d.autolinkAround gs range.1 range.2 with
    | none => range
    | some link =>
      let a := max range.1 link.contentStart
      let b := min range.2 link.contentEnd
      -- An autolink goes as a whole, or else the part of it that is in the range.
      if a = link.contentStart ∧ b = link.contentEnd then (link.start, link.stop)
      else if a < b then (a, b)
      else range

/-- `_styleRange`: the content of the rows that the selection ends in. -/
def styleRange : Int × Int :=
  let clamped (row : Option ProjectedRow) (o : Int) : Int :=
    row.elim o fun row => max row.sourceStart (min o row.sourceEnd)
  d.contentRange gs (clamped (d.rowAt gs d.selection.start) d.selection.start)
    (clamped (d.rowAt gs d.selection.stop) d.selection.stop)

/-- `_styleOwners`, of the caret's row. -/
def styleOwners (style : Nat) : List Owner :=
  (d.caretRow.elim [] d.ownersOf).filter fun o => o.style == style

/-- A segment shows more than white space in a range of its row. -/
def showsIn (row : ProjectedRow) (range : Int × Int) (s : Segment) : Bool :=
  let a := max range.1 (min s.displayStart range.2)
  let b := max range.1 (min s.displayEnd range.2)
  !(a == b || (row.text.substring a b).trim.isEmpty)

/-- `_selectedStyleValue`. -/
def selectedStyleValue (style : Nat) : StyleValue :=
  let first := d.displayOf gs d.selection.start
  let last := d.displayOf gs d.selection.stop
  let shown := (List.range' first.row (last.row + 1 - first.row)).flatMap fun i =>
    d.projection.rows[i]?.elim [] fun row =>
      row.segments.filter (showsIn row (visibleRange first last i row))
  let on := shown.any fun s => Style.has s.styles style
  let off := shown.any fun s => !Style.has s.styles style
  if on && off then .mixed else if on then .on else .off

/-- `_formattingContent`. -/
def formattingContent (exceptStyle : Nat) : List FormattingEntry :=
  d.projection.rows.flatMap fun row => row.formattingContent exceptStyle

/-- Whether `_styleState` lets a style of the value given be set. -/
def canStyle (style : Nat) (value : StyleValue) : Bool :=
  let enabled := d.caretRow.any fun row =>
    row.kind == .paragraph || row.kind == .heading || row.kind == .tableCell || row.kind == .blank
  if d.selection.isCollapsed then
    -- Within code there are no other styles.
    if style != Style.code && value != .on && d.selection.tableCell.isNone &&
        (d.ownersAt gs d.selection.extent).any fun o => o.style == Style.code then false
    else enabled
  else
    let range := d.styleRange gs
    let enabled := enabled && d.supportedRange gs range.1 range.2 &&
      (d.visibleText gs range.1 range.2).any (fun t => !t.trim.isEmpty) &&
      (d.styleOwners style).all fun o =>
        decide (range.2 ≤ o.contentStart ∨ o.contentEnd ≤ range.1) ||
          !decide (o.contentStart < range.1 ∨ range.2 < o.contentEnd)
    if style != Style.code && value != .on &&
        d.caretRow.any fun row => row.segments.any fun s =>
          decide (s.sourceStart < range.2) && decide (range.1 < s.sourceEnd) &&
            Style.has s.styles Style.code then false
    else enabled

/-- The source without the delimiters of an owner, and where the caret is in it. -/
def unwrapped (o : Owner) : Text × Selection :=
  ((d.source.replaceRange o.contentEnd o.stop []).replaceRange o.start o.contentStart [],
    .collapsed (d.selection.extent - (o.contentStart - o.start)))

/-- The source with the selected text in delimiters or out of them, and the selection in it.
    Cuts that start together are of a delimiter of no length. -/
def restyled (style : Nat) (enabled : Bool) : Text × Selection :=
  let range := d.styleRange gs
  let owners := (d.styleOwners style).filter fun o =>
    decide (range.1 ≤ o.contentStart ∧ o.contentEnd ≤ range.2)
  let start := owners.foldl (fun start o => if o.start < start then o.start else start) range.1
  let stop := owners.foldl (fun stop o => if stop < o.stop then o.stop else stop) range.2
  -- From the last on, so that the offsets of those before stay.
  let cuts := (owners.flatMap fun o =>
    [(o.start, o.contentStart), (o.contentEnd, o.stop)]).insertionSort fun a b => b.1 ≤ a.1
  let content := cuts.foldl
    (fun content c => content.replaceRange (c.1 - start).toNat (c.2 - start).toNat [])
    (d.source.substring start stop)
  let delimiter := (Style.delimiter style).getD []
  -- Delimiters go inside the white space at the ends.
  let leading := content.length - content.trimLeft.length
  let trailing := content.trimRight.length
  let written := if enabled then content.substring 0 leading ++ delimiter ++
    content.substring leading trailing ++ delimiter ++ content.substring trailing content.length
    else content
  let selectedStart := if enabled then start + leading + delimiter.length else start
  let selectedEnd := if enabled then start + trailing + delimiter.length else start + content.length
  (d.source.replaceRange start.toNat stop.toNat written,
    if d.selection.base ≤ d.selection.extent then ⟨selectedStart, selectedEnd, none⟩
    else ⟨selectedEnd, selectedStart, none⟩)

/-- The owners of the style that the caret is in, and those it touches. A caret in an unwritten cell
    has none. -/
def caretOwner (style : Nat) : Option Owner :=
  if d.selection.tableCell.isNone then
    (d.ownersAt gs d.selection.extent).find? fun o => o.style == style
  else none

def touchedOwner (style : Nat) : Option Owner :=
  if d.selection.tableCell.isNone then
    (d.ownersTouching gs d.selection.extent).find? fun o => o.style == style
  else none

end Document

namespace Editor

variable {gs : Graphemes} (setup : EditorSetup) (ed : Editor gs)

/-- The styles of the pending style. -/
def pendingStyles : Nat := ed.pending.elim 0 PendingStyle.styles

/-- `typingContext`. -/
def typingContext : Nat :=
  match ed.snapshot with
  | .source _ => 0
  | .live d =>
    (if d.selection.tableCell.isNone then d.typingContextAt gs d.selection.extent else 0) ^^^
      ed.pendingStyles

/-- `styleState`. -/
def styleState (style : Nat) : StyleState :=
  match ed.snapshot with
  | .source _ => ⟨.off, false, false⟩
  | .live d =>
    if (Style.delimiter style).isNone then ⟨.off, false, false⟩
    else
      let value :=
        if d.selection.isCollapsed then .asked (Style.has ed.typingContext style)
        else d.selectedStyleValue gs style
      ⟨value, d.canStyle gs style value, d.canStyle gs style value⟩

/-- A rewriting that is kept where the parser reads the text as it was but for the style. -/
def restyle (d : Document) (style : Nat) (written : Text × Selection)
    (value : Document → Bool) : Except ParseFailure (Bool × Editor gs) :=
  ed.commit setup {
    source := written.1
    selection := written.2
    coalesce := false
    accept := some fun next =>
      value next && d.formattingContent style == next.formattingContent style }

/-- `_toggleCaretStyle`. -/
def toggleCaretStyle (d : Document) (style : Nat) : Except ParseFailure (Bool × Editor gs) :=
  let caret := d.selection.extent
  match d.caretOwner gs style with
  -- The first owner of the style, in the order of `ownersAt`.
  | some o =>
    -- At an edge of the content the caret steps over the delimiter; inside it the delimiters are
    -- taken out.
    if caret = o.contentEnd then .ok (ed.select d (.collapsed o.stop)).swap
    else if caret = o.contentStart then .ok (ed.select d (.collapsed o.start)).swap
    else ed.restyle setup d style (d.unwrapped o) fun _ => true
  | none =>
    match d.touchedOwner gs style with
    | some o =>
      .ok (ed.select d (.collapsed (if caret = o.stop then o.contentEnd else o.contentStart))).swap
    | none =>
      -- No owner is near: the style is pending, for the text that is typed next.
      let mask := ed.pendingStyles ^^^ style
      if Style.delimited.foldl Style.without mask ≠ 0 then .ok (false, ed)
      else
        let delimiters := (Style.delimited.filter (Style.has mask)).filterMap Style.delimiter
        .ok (true,
          { ed with
            pending :=
              if mask = 0 then none
              else some ⟨delimiters.flatten, delimiters.reverse.flatten, mask, false⟩
            history := ed.history.breakCoalescing
            goalColumn := none })

/-- `_setStyle`. -/
def setStyle (d : Document) (style : Nat) (enabled : Bool) :
    Except ParseFailure (Bool × Editor gs) :=
  let state := ed.styleState style
  if (Style.delimiter style).isSome && state.value == .asked enabled then
    .ok (false, { ed with inert := true })
  else if !(if enabled then state.canEnable else state.canDisable) then .ok (false, ed)
  else if d.selection.isCollapsed then ed.toggleCaretStyle setup d style
  else
    ed.restyle setup d style (d.restyled gs style enabled) fun next =>
      next.selectedStyleValue gs style == .asked enabled

/-- The call that a command is applied in, from its start at the time given. -/
def entered (at_ : Int) : Editor gs :=
  { ed with lastRejection := none, inert := false, selectedCodeScope := false, now := at_ }

/-- The end of the call: an edit is published; one that is refused is not inert. -/
def answered (r : Bool × Editor gs) : Bool × Editor gs :=
  if r.1 then (true, { r.2 with revision := r.2.revision + 1 })
  else if r.2.inert then r
  else (false, { r.2 with lastRejection := r.2.lastRejection.or (some .unsupportedEdit) })

/-- `SetStyle` in either mode: source mode has no formatting. -/
def setStyleCommand (style : Nat) (enabled : Bool) : Except ParseFailure (Bool × Editor gs) :=
  match ed.snapshot with
  | .source _ => .ok (false, ed)
  | .live d => ed.setStyle setup d style enabled

/-- `apply(SetStyle(style, enabled))` at the time given. -/
def applySetStyle (style : Nat) (enabled : Bool) (at_ : Int) :
    Except ParseFailure (Bool × Editor gs) :=
  ((ed.entered at_).setStyleCommand setup style enabled).map answered

end Editor

/-! ## Bits of a mask -/

namespace Style

theorem has_two_pow (mask k : Nat) : has mask (2 ^ k) = mask.testBit k := by
  rw [has, Nat.and_two_pow]
  cases mask.testBit k with
  | false => simp
  | true => simp

/-- A style that a delimiter pair spells is one bit. -/
theorem exists_two_pow {style : Nat} (h : style ∈ delimited) : ∃ k, style = 2 ^ k := by
  simp only [delimited, List.mem_cons, List.not_mem_nil, or_false] at h
  rcases h with rfl | rfl | rfl | rfl
  · exact ⟨1, rfl⟩
  · exact ⟨0, rfl⟩
  · exact ⟨3, rfl⟩
  · exact ⟨2, rfl⟩

theorem has_xor {style : Nat} (h : style ∈ delimited) (a b : Nat) :
    has (a ^^^ b) style = (has a style ^^ has b style) := by
  obtain ⟨k, rfl⟩ := exists_two_pow h
  rw [has_two_pow, has_two_pow, has_two_pow, Nat.testBit_xor]

theorem has_or {style : Nat} (h : style ∈ delimited) (a b : Nat) :
    has (a ||| b) style = (has a style || has b style) := by
  obtain ⟨k, rfl⟩ := exists_two_pow h
  rw [has_two_pow, has_two_pow, has_two_pow, Nat.testBit_or]

theorem has_self {style : Nat} (h : style ∈ delimited) : has style style = true := by
  obtain ⟨k, rfl⟩ := exists_two_pow h
  rw [has_two_pow, Nat.testBit_two_pow_self]

theorem has_zero (style : Nat) : has 0 style = false := by
  rw [has, Nat.zero_and]
  rfl

theorem isSome_delimiter {style : Nat} (h : style ∈ delimited) :
    (delimiter style).isSome = true := by
  simp only [delimited, List.mem_cons, List.not_mem_nil, or_false] at h
  rcases h with rfl | rfl | rfl | rfl <;> rfl

end Style

/-- An owner has a delimited style in its mask where that is its style. -/
theorem Owner.has_style (o : Owner) {style : Nat} (h : style ∈ Style.delimited) :
    Style.has o.style style = (o.style == style) := by
  simp only [Style.delimited, List.mem_cons, List.not_mem_nil, or_false] at h
  have hall : ∀ mask ∈ [Style.emphasis, Style.strong, Style.strikethrough, Style.code, Style.link,
      Style.image, 0], ∀ style ∈ Style.delimited, Style.has mask style = (mask == style) := by
    decide
  refine hall _ ?_ _ (by simpa [Style.delimited] using h)
  rw [Owner.style]
  split_ifs <;> simp

namespace Document

variable {gs : Graphemes} (d : Document)

/-- An owner of the style has the caret in its content. -/
def caretOwned (gs : Graphemes) (d : Document) (style : Nat) : Bool :=
  (d.ownersAt gs d.selection.extent).any fun o => o.style == style

theorem has_typingContextAt {style : Nat} (h : style ∈ Style.delimited) (offset : Int) :
    Style.has (d.typingContextAt gs offset) style =
      (d.ownersAt gs offset).any fun o => o.style == style := by
  have hfold : ∀ (owners : List Owner) (mask : Nat),
      Style.has (owners.foldl (fun mask o => mask ||| o.style) mask) style =
        (Style.has mask style || owners.any fun o => o.style == style) := by
    intro owners
    induction owners with
    | nil => exact fun mask => (Bool.or_false _).symm
    | cons o owners ih =>
      intro mask
      rw [List.foldl_cons, ih, Style.has_or h, o.has_style h, List.any_cons, Bool.or_assoc]
  rw [typingContextAt, hfold, Style.has_zero, Bool.false_or]

/-- A caret selects no text. -/
theorem selectedStyleValue_caret (h : d.selection.isCollapsed = true) (style : Nat) :
    d.selectedStyleValue gs style = .off := by
  have hends : d.selection.start = d.selection.stop := by
    rw [Selection.isCollapsed, beq_iff_eq] at h
    rw [Selection.start, Selection.stop, h]
  have hshown : ∀ (x : Int) (row : ProjectedRow),
      row.segments.filter (showsIn row (x, x)) = [] := by
    intro x row
    refine List.filter_eq_nil_iff.2 fun s _ => ?_
    have ha : max x (min (s.displayStart : Int) x) = x := max_eq_left (min_le_right _ _)
    have hb : max x (min (s.displayEnd : Int) x) = x := max_eq_left (min_le_right _ _)
    rw [showsIn, ha, hb]
    simp
  have hnone : ∀ (i : Nat) (row : ProjectedRow),
      i ∈ List.range' (d.displayOf gs d.selection.stop).row 1 →
      row.segments.filter (showsIn row
        (visibleRange (d.displayOf gs d.selection.stop) (d.displayOf gs d.selection.stop) i row)) =
        [] := by
    intro i row hi
    obtain rfl : i = (d.displayOf gs d.selection.stop).row := by simpa using hi
    rw [visibleRange, if_pos rfl, if_pos rfl]
    exact hshown _ row
  rw [selectedStyleValue, hends]
  have hempty : ((List.range' (d.displayOf gs d.selection.stop).row 1).flatMap fun i =>
      d.projection.rows[i]?.elim [] fun row => row.segments.filter (showsIn row
        (visibleRange (d.displayOf gs d.selection.stop) (d.displayOf gs d.selection.stop) i row))) =
      [] := by
    refine List.flatMap_eq_nil_iff.2 fun i hi => ?_
    cases d.projection.rows[i]? with
    | none => rfl
    | some row => exact hnone i row hi
  rw [Nat.add_sub_cancel_left, hempty]
  rfl

end Document

/-! ## What the check compares -/

/-- The styles of the unit displayed at `k`, those of the segment that shows it. -/
def stylesIn (segments : List Segment) (k : Nat) : Option Nat :=
  (segments.find? fun s => decide (s.displayStart ≤ k ∧ k < s.displayEnd)).map Segment.styles

/-- The mask of the first run that ends behind `k`. -/
def maskAt (entries : List FormattingEntry) (k : Nat) : Option Nat :=
  entries.findSome? fun
    | .run stop mask => if k < stop then some mask else none
    | .row _ _ _ => none

def FormattingEntry.isRun : FormattingEntry → Bool
  | .run _ _ => true
  | .row _ _ _ => false

theorem isRun_formattingRuns {exceptStyle stop : Nat} {mask : Option Nat}
    {segments : List Segment} :
    ∀ e ∈ formattingRuns exceptStyle stop mask segments, e.isRun = true := by
  induction segments generalizing stop mask with
  | nil =>
    intro e he
    rw [formattingRuns, Option.mem_toList, Option.map_eq_some_iff] at he
    obtain ⟨_, -, rfl⟩ := he
    rfl
  | cons s segments ih =>
    intro e he
    cases mask with
    | none =>
      rw [formattingRuns, List.nil_append] at he
      exact ih e he
    | some mask =>
      rw [formattingRuns] at he
      rcases List.mem_append.1 he with he | he
      · split at he
        · obtain rfl := List.mem_singleton.1 he
          rfl
        · cases he
      · exact ih e he

theorem stylesIn_cons {s : Segment} {segments : List Segment} {a b k : Nat}
    (h : Tiles a (s :: segments) b) (hk : a ≤ k) :
    stylesIn (s :: segments) k =
      if k < s.displayEnd then some s.styles else stylesIn segments k := by
  rw [stylesIn, List.find?_cons]
  by_cases hlt : k < s.displayEnd
  · rw [if_pos hlt, show decide (s.displayStart ≤ k ∧ k < s.displayEnd) = true from
      decide_eq_true ⟨h.1.symm ▸ hk, hlt⟩]
    rfl
  · rw [if_neg hlt, show decide (s.displayStart ≤ k ∧ k < s.displayEnd) = false from
      decide_eq_false fun h => hlt h.2]
    rfl

/-- The runs give every unit the mask of the segment that shows it. -/
theorem maskAt_formattingRuns {exceptStyle : Nat} {segments : List Segment} {a b mask k : Nat}
    (h : Tiles a segments b) :
    maskAt (formattingRuns exceptStyle a (some mask) segments) k =
      if k < a then some mask else (stylesIn segments k).map (Style.without · exceptStyle) := by
  induction segments generalizing a mask with
  | nil =>
    rw [formattingRuns, maskAt]
    simp only [Option.map_some, Option.toList_some, List.findSome?_cons, List.findSome?_nil]
    split
    · next hk => split at hk <;> simp_all
    · next hk => split at hk <;> simp_all [stylesIn]
  | cons s segments ih =>
    have hrest := @ih s.displayEnd (Style.without s.styles exceptStyle) h.2.2
    have hnext : maskAt (formattingRuns exceptStyle s.displayEnd
        (some (Style.without s.styles exceptStyle)) segments) k =
        if k < a then some (Style.without s.styles exceptStyle)
        else (stylesIn (s :: segments) k).map (Style.without · exceptStyle) := by
      rw [hrest]
      by_cases hk : k < a
      · rw [if_pos hk, if_pos (hk.trans_le h.2.1)]
      · rw [if_neg hk, stylesIn_cons h (not_lt.1 hk)]
        split
        · rfl
        · rfl
    rw [formattingRuns]
    by_cases hmask : mask = Style.without s.styles exceptStyle
    · rw [if_neg (not_not.2 hmask), List.nil_append, hnext, hmask]
    · rw [if_pos hmask, maskAt, List.singleton_append, List.findSome?_cons]
      dsimp only
      by_cases hk : k < a
      · rw [if_pos hk, if_pos hk]
      · rw [if_neg hk, if_neg hk]
        rw [if_neg hk] at hnext
        exact hnext

theorem maskAt_formattingContent {exceptStyle : Nat} {segments : List Segment} {b k : Nat}
    (h : Tiles 0 segments b) :
    maskAt (formattingRuns exceptStyle 0 none segments) k =
      (stylesIn segments k).map (Style.without · exceptStyle) := by
  cases segments with
  | nil => rfl
  | cons s segments =>
    rw [formattingRuns, List.nil_append, maskAt_formattingRuns h.2.2,
      stylesIn_cons h (Nat.zero_le k)]
    split
    · rfl
    · rfl

/-- The runs of a row end where the next row begins. -/
theorem runs_append_inj {runs runs' rest rest' : List FormattingEntry}
    (hruns : ∀ e ∈ runs, e.isRun = true) (hruns' : ∀ e ∈ runs', e.isRun = true)
    (hrest : ∀ e ∈ rest.head?, e.isRun = false) (hrest' : ∀ e ∈ rest'.head?, e.isRun = false)
    (h : runs ++ rest = runs' ++ rest') : runs = runs' ∧ rest = rest' := by
  have htake : ∀ {runs rest : List FormattingEntry}, (∀ e ∈ runs, e.isRun = true) →
      (∀ e ∈ rest.head?, e.isRun = false) →
        (runs ++ rest).takeWhile FormattingEntry.isRun = runs := by
    intro runs rest hruns hrest
    rw [List.takeWhile_append_of_pos hruns]
    cases rest with
    | nil => rw [List.takeWhile_nil, List.append_nil]
    | cons e rest =>
      rw [List.takeWhile_cons, hrest e rfl, if_neg Bool.false_ne_true, List.append_nil]
  have heq : runs = runs' := by rw [← htake hruns hrest, h, htake hruns' hrest']
  exact ⟨heq, List.append_cancel_left (heq ▸ h)⟩

theorem head?_flatMap_formattingContent (exceptStyle : Nat) (rows : List ProjectedRow) :
    ∀ e ∈ (rows.flatMap fun row => row.formattingContent exceptStyle).head?, e.isRun = false := by
  intro e he
  cases rows with
  | nil => cases he
  | cons row rows =>
    obtain rfl := Option.some.inj he
    rfl

/-- The entries determine those of every row. -/
theorem map_formattingContent {exceptStyle : Nat} {rows rows' : List ProjectedRow}
    (h : (rows.flatMap fun row => row.formattingContent exceptStyle) =
      rows'.flatMap fun row => row.formattingContent exceptStyle) :
    (rows.map fun row => row.formattingContent exceptStyle) =
      rows'.map fun row => row.formattingContent exceptStyle := by
  induction rows generalizing rows' with
  | nil =>
    cases rows' with
    | nil => rfl
    | cons row' rows' => cases h
  | cons row rows ih =>
    cases rows' with
    | nil => cases h
    | cons row' rows' =>
      rw [List.flatMap_cons, List.flatMap_cons, ProjectedRow.formattingContent,
        ProjectedRow.formattingContent, List.cons_append, List.cons_append] at h
      obtain ⟨hrow, hbehind⟩ := List.cons.inj h
      obtain ⟨hruns, hrest⟩ := runs_append_inj isRun_formattingRuns isRun_formattingRuns
        (head?_flatMap_formattingContent _ _) (head?_flatMap_formattingContent _ _) hbehind
      rw [List.map_cons, List.map_cons, ih hrest, ProjectedRow.formattingContent,
        ProjectedRow.formattingContent, hrow, hruns]

/-- The rows of a document but for one style: their kinds, texts and heading levels, and of every
    unit the other styles. -/
structure Document.SameBut (d d' : Document) (style : Nat) : Prop where
  length : d'.projection.rows.length = d.projection.rows.length
  rows : ∀ (i : Nat) (row row' : ProjectedRow), d.projection.rows[i]? = some row →
    d'.projection.rows[i]? = some row' →
    row'.kind = row.kind ∧ row'.text = row.text ∧ row'.headingLevel = row.headingLevel ∧
      ∀ k < row.text.length, (stylesIn row'.segments k).map (Style.without · style) =
        (stylesIn row.segments k).map (Style.without · style)

/-- What the check compares is what it is for. -/
theorem sameBut_of_formattingContent {gs : Graphemes} {d d' : Document} {style : Nat}
    (hd : d.Live gs) (hd' : d'.Live gs)
    (h : d.formattingContent style = d'.formattingContent style) : d.SameBut d' style := by
  have hmap := map_formattingContent h
  refine ⟨?_, fun i row row' hrow hrow' => ?_⟩
  · have hlength := congrArg List.length hmap
    rw [List.length_map, List.length_map] at hlength
    exact hlength.symm
  · have hentry := congrArg (·[i]?) hmap
    simp only [List.getElem?_map, hrow, hrow', Option.map_some, Option.some.injEq,
      ProjectedRow.formattingContent] at hentry
    obtain ⟨hheader, hruns⟩ := List.cons.inj hentry
    obtain ⟨hkind, htext, hlevel⟩ := FormattingEntry.row.inj hheader
    refine ⟨hkind.symm, htext.symm, hlevel.symm, fun k _ => ?_⟩
    have htiles := (hd.built.shape hd.conforms row (List.mem_of_getElem? hrow)).tiles
    have htiles' := (hd'.built.shape hd'.conforms row' (List.mem_of_getElem? hrow')).tiles
    rw [← maskAt_formattingContent htiles, ← maskAt_formattingContent htiles', hruns]

end Flark
