import Flark.Cells.CellHits
import Mathlib.Data.List.SplitBy

/-!
# Positions in a layout

`positionFor` of `flark_fleury/cell_layout.dart`: the cell of a source offset, over the lines
where the caret may be on its row. The layout of a document lays every row out once
(`LaidRows`), whatever stands between the lines of a row: padding rows, rules, previews of
images, and the lines of the other cells of a table row.

* `CellSettings.addText_laid`, `CellSettings.addRow_laid`, `CellSettings.addTable_laid`: what is
  added for a row, and for a table;
* `CellDocumentLayout.live_laid`, `CellDocumentLayout.source_laid`: the layout of a document or of
  a source;
* `CellDocumentLayout.positionFor_spec`: the cell of a grapheme boundary hits it.
-/

namespace Flark

namespace CellFragment

variable {CellStyle : Type} {line : CellFragment CellStyle}

/-- The caret may be on a line. -/
def takesCaret (line : CellFragment CellStyle) : Bool := line.editable && line.caretLine

/-- A line of the row with an index, where the caret may be. -/
def takesCaretOf (index : Nat) (line : CellFragment CellStyle) : Bool :=
  line.row.any (fun row => row.index == index) && line.editable && line.caretLine

/-- A line without glyphs. -/
theorem level_of_nil (hglyphs : line.glyphs = []) (hstop : line.start = line.stop) :
    line.Level := by
  refine ⟨line.stop, ⟨?_, ?_⟩, Nat.le_refl _, fun _ => rfl⟩
  · rw [endColumn_of_nil hglyphs, hglyphs]
    rfl
  · rw [hglyphs]
    exact hstop

/-- A line does not get uneven where it stands. -/
theorem level_atMargin {moved : CellFragment CellStyle} (hrow : moved.row = line.row)
    (h : moved.atMargin = line.atMargin) (hlevel : line.Level) : moved.Level := by
  obtain ⟨stop, heven, hle, hstop⟩ := hlevel
  have hend : moved.stop = line.stop :=
    (congrArg CellFragment.stop h : moved.atMargin.stop = line.atMargin.stop)
  refine ⟨stop, ?_, hend ▸ hle, fun htable => ?_⟩
  · rw [← even_iff_atMargin, h, even_iff_atMargin]
    exact heven
  · rw [hend]
    rw [inTable, hrow] at htable
    exact hstop htable

end CellFragment

namespace CellSettings

variable {CellStyle CellWidthPolicy : Type} {c : CellSettings CellStyle CellWidthPolicy}
  {row : ProjectedRow}

/-! ## What `_addText` adds -/

/-- The lines of a row where the caret may be. -/
structure RowLaid (gs : Graphemes) (row : ProjectedRow) (lines : List (CellFragment CellStyle)) :
    Prop where
  laysOut : CellFragment.LaysOut (row.text.take (paintedEnd (some row) row.text))
    (gs.split (row.text.take (paintedEnd (some row) row.text))) row.text.length lines
  row_eq : ∀ line ∈ lines, line.row = some row

/-- Every line of an ink is of the text, or has no glyphs and takes no caret. -/
theorem mem_inkLines {k : RowInk CellStyle} (hlines : ∀ line ∈ c.textLines k, k.Draws line)
    {line : CellFragment CellStyle} (h : line ∈ c.inkLines k) :
    (line.ofText ∧ bare line ∈ c.textLines k) ∨
      (line.ofText = false ∧ line.glyphs = [] ∧ line.start = line.stop ∧ line.row = k.row ∧
        line.left = 0 ∧ line.caretLine = false) := by
  have hbare {lines : List (CellFragment CellStyle)}
      (hmap : lines.map bare = (c.textLines k).map bare)
      {l : CellFragment CellStyle} (hl : l ∈ lines) : l.ofText ∧ bare l ∈ c.textLines k := by
    have hmem : bare l ∈ (c.textLines k).map bare := hmap ▸ List.mem_map_of_mem hl
    obtain ⟨l', hl', heq⟩ := List.mem_map.1 hmem
    obtain ⟨htext, hsame⟩ := ofText_of_draws (hlines l' hl')
    rw [hsame] at heq
    rw [← heq]
    exact ⟨(congrArg CellFragment.ofText heq).symm.trans htext, hl'⟩
  have hedge {top : Bool} {start : Nat} {linePrefix : Text} {l : CellFragment CellStyle}
      (hl : l ∈ c.codeEdge k top start linePrefix) :
      l.ofText = false ∧ l.glyphs = [] ∧ l.start = l.stop ∧ l.row = k.row ∧ l.left = 0 ∧
        l.caretLine = false := by
    rw [codeEdge] at hl
    split_ifs at hl
    · rw [List.mem_singleton.1 hl]
      exact ⟨rfl, rfl, rfl, rfl, rfl, rfl⟩
    · cases hl
  unfold inkLines at h
  dsimp only at h
  cases hheading : k.heading with
  | some heading =>
    rw [hheading] at h
    dsimp only at h
    rw [headingLines] at h
    split_ifs at h
    · rcases List.mem_append.1 h with h | h
      · exact .inl (hbare (map_bare_labelLines _) h)
      · rw [List.mem_singleton.1 h]
        exact .inr ⟨rfl, rfl, rfl, rfl, rfl, rfl⟩
    · exact .inl (hbare (map_bare_labelLines _) h)
  | none =>
    rw [hheading] at h
    dsimp only at h
    split_ifs at h
    · rw [codeLines] at h
      rcases List.mem_append.1 h with h | h
      · rcases List.mem_append.1 h with h | h
        · exact .inr (hedge h)
        · exact .inl (hbare (by rw [List.map_map]; rfl) h)
      · exact .inr (hedge h)
    · exact .inl (hbare rfl h)

/-- Only a table cell has padding that is not painted. -/
theorem length_painted_of_not_inTable {row : Option ProjectedRow} {text : Text}
    (h : !(row.any fun row => row.kind == .tableCell)) :
    (text.take (paintedEnd row text)).length = text.length := by
  cases row with
  | none => rw [paintedEnd, List.take_length]
  | some row =>
    rw [Option.any_some, Bool.not_eq_true', beq_eq_false_iff_ne] at h
    rw [paintedEnd, if_neg h, List.take_length]

/-- What `_addText` adds of a row or of a source: the lines where the caret may be lay its text out,
    and all lines are level and stand at the left margin. -/
theorem addText_laid (hc : c.Substitutes) (m : Markers) (row : Option ProjectedRow)
    (text linePrefix : Text) (sourceStart : Nat) (outerCols : Int) (colors : Option CodeHighlight) :
    let lines := c.addText m row text linePrefix sourceStart outerCols colors
    let painted := text.take (paintedEnd row text)
    CellFragment.LaysOut painted (c.graphemes.split painted) text.length
        (lines.filter CellFragment.takesCaret) ∧
      ∀ line ∈ lines, line.row = row ∧ line.left = 0 ∧ line.Level ∧
        (line.takesCaret → line.sourceStart = sourceStart) := by
  intro lines painted
  have hk : (c.ink m row text linePrefix sourceStart outerCols colors).continued.length =
      (c.ink m row text linePrefix sourceStart outerCols colors).linePrefix.length :=
    length_continuation m _ row
  obtain ⟨hlaid, hlines⟩ := textLines_laid hc hk
    (length_painted_le m row text linePrefix sourceStart outerCols colors)
  have hmem {l : CellFragment CellStyle} (hl : l ∈ lines) :=
    mem_inkLines (fun l hl => (hlines l hl).1) hl
  have hfilter : lines.filter CellFragment.takesCaret = lines.filter CellFragment.ofText := by
    refine List.filter_congr fun l hl => ?_
    rcases hmem hl with ⟨htext, hbare⟩ | ⟨htext, -, -, -, -, hcaret⟩
    · have heq := (hlines _ hbare).1.eq_of
      have htakes : (bare l).takesCaret = true := by
        rw [heq]
        rfl
      exact htakes.trans htext.symm
    · rw [CellFragment.takesCaret, hcaret, Bool.and_false, htext]
  have hlays : CellFragment.LaysOut painted (c.graphemes.split painted) text.length
      (lines.filter CellFragment.takesCaret) := by
    rw [hfilter, ← laysOut_map_bare]
    exact (map_bare_inkLines fun l hl => (hlines l hl).1) ▸ hlaid
  refine ⟨hlays, fun l hl => ?_⟩
  rcases hmem hl with ⟨htext, hbare⟩ | ⟨htext, hglyphs, hstop, hrow, hleft, hcaret⟩
  · have heq := (hlines _ hbare).1.eq_of
    have hrow : l.row = row := congrArg CellFragment.row heq
    have hl' : l ∈ lines.filter CellFragment.takesCaret :=
      hfilter ▸ List.mem_filter.2 ⟨hl, htext⟩
    have hle : ∀ l ∈ lines.filter CellFragment.takesCaret, l.start ≤ l.stop := fun l hl =>
      (hlays.even l hl).offsets.le.trans (Nat.min_le_left _ _)
    refine ⟨hrow, congrArg CellFragment.left heq, ⟨_, hlays.even l hl', Nat.min_le_left _ _,
      fun htable => ?_⟩, fun _ => congrArg CellFragment.sourceStart heq⟩
    have hwithin := CellFragment.stop_le_last hlays.follows hle hlays.last l hl'
    rw [length_painted_of_not_inTable (hrow ▸ htable), Nat.min_eq_left hwithin]
  · refine ⟨hrow, hleft, CellFragment.level_of_nil hglyphs hstop, fun htakes => ?_⟩
    rw [CellFragment.takesCaret, hcaret, Bool.and_false] at htakes
    cases htakes

/-- A source that is shown as it is has no other lines than those of its text. -/
theorem addText_source (hc : c.Substitutes) (m : Markers) (text linePrefix : Text)
    (sourceStart : Nat) (outerCols : Int) (colors : Option CodeHighlight) :
    let lines := c.addText m none text linePrefix sourceStart outerCols colors
    CellFragment.LaysOut text (c.graphemes.split text) text.length lines ∧
      ∀ line ∈ lines, line.row = none ∧ line.Level ∧ line.sourceStart = sourceStart := by
  intro lines
  obtain ⟨hlays, hlines⟩ := addText_laid hc m none text linePrefix sourceStart outerCols colors
  have hdraws := (textLines_laid (k := c.ink m none text linePrefix sourceStart outerCols colors) hc
    (length_continuation (c := c) m _ none) (length_painted_le (c := c) m none _ _ _ _ _)).2
  have htakes (line : CellFragment CellStyle) (hline : line ∈ lines) : line.takesCaret = true := by
    rw [(hdraws line hline).1.eq_of]
    rfl
  have hall : lines.filter CellFragment.takesCaret = lines := List.filter_eq_self.2 htakes
  rw [paintedEnd, List.take_length] at hlays
  exact ⟨hall ▸ hlays, fun line hline => ⟨(hlines line hline).1, (hlines line hline).2.2.1,
    (hlines line hline).2.2.2 (htakes line hline)⟩⟩

/-! ## Rows and their lines -/

/-- The lines of the row with an index, where the caret may be. -/
def ofRow (index : Nat) (lines : List (CellLine CellStyle)) : List (CellFragment CellStyle) :=
  lines.flatMap fun line => line.fragments.filter (CellFragment.takesCaretOf index)

/-- Lines that lay some rows out. -/
structure LaidRows (gs : Graphemes) (rows : List ProjectedRow) (lines : List (CellLine CellStyle)) :
    Prop where
  level : ∀ line ∈ lines, line.Level ∧ ∀ fragment ∈ line.fragments, fragment.Level
  absent : ∀ index, (∀ row ∈ rows, row.index ≠ index) → ofRow index lines = []
  laid : ∀ row ∈ rows, RowLaid gs row (ofRow row.index lines)

/-- The rows of a list are different ones. -/
def Apart (rows : List ProjectedRow) : Prop :=
  rows.Pairwise fun row other => row.index ≠ other.index

variable {gs : Graphemes} {rows rows' : List ProjectedRow}
  {lines lines' : List (CellLine CellStyle)} {fragments : List (CellFragment CellStyle)}

theorem ofRow_append (index : Nat) :
    ofRow index (lines ++ lines') = ofRow index lines ++ ofRow index lines' := List.flatMap_append

/-- Rows laid on lines one behind the other are laid. -/
theorem LaidRows.append (h : LaidRows gs rows lines) (h' : LaidRows gs rows' lines')
    (hapart : Apart (rows ++ rows')) : LaidRows gs (rows ++ rows') (lines ++ lines') := by
  obtain ⟨-, -, hdiffer⟩ := List.pairwise_append.1 hapart
  refine ⟨fun line hline => ?_, fun index hindex => ?_, fun row hrow => ?_⟩
  · exact (List.mem_append.1 hline).elim (h.level line) (h'.level line)
  · rw [ofRow_append, h.absent index fun row hrow => hindex row (List.mem_append_left _ hrow),
      h'.absent index fun row hrow => hindex row (List.mem_append_right _ hrow)]
    rfl
  · rw [ofRow_append]
    rcases List.mem_append.1 hrow with hrow | hrow
    · rw [h'.absent row.index fun other hother => (hdiffer row hrow other hother).symm,
        List.append_nil]
      exact h.laid row hrow
    · rw [h.absent row.index fun other hother => hdiffer other hother row hrow, List.nil_append]
      exact h'.laid row hrow

/-- The fragments of a row are those that take its caret. -/
theorem ofRow_map (index : Nat) :
    ofRow index (fragments.map fun fragment => { toCellFragment := fragment }) =
      fragments.filter (CellFragment.takesCaretOf index) := by
  rw [ofRow, List.flatMap_map]
  induction fragments with
  | nil => rfl
  | cons fragment fragments ih =>
    rw [List.flatMap_cons, ih, ← List.singleton_append (l := fragments), List.filter_append]
    rfl

/-- A line of one row takes the caret of that row only. -/
theorem takesCaretOf_eq {index : Nat} {line : CellFragment CellStyle} (h : line.row = some row) :
    line.takesCaretOf index = (row.index == index && line.takesCaret) := by
  rw [CellFragment.takesCaretOf, h, Option.any_some, Bool.and_assoc, CellFragment.takesCaret]

/-- Lines made of level fragments are level. -/
theorem level_map (hlevel : ∀ fragment ∈ fragments, fragment.Level) {line : CellLine CellStyle}
    (hline : line ∈
      fragments.map fun fragment => ({ toCellFragment := fragment } : CellLine CellStyle)) :
    line.Level ∧ ∀ fragment ∈ line.fragments, fragment.Level := by
  obtain ⟨fragment, hfragment, rfl⟩ := List.mem_map.1 hline
  exact ⟨hlevel fragment hfragment, fun f hf => by
    rw [List.mem_singleton.1 hf]
    exact hlevel fragment hfragment⟩

/-- Lines that no caret may be on, between those of rows. -/
theorem laidRows_nil (hlevel : ∀ fragment ∈ fragments, fragment.Level)
    (hcaret : ∀ fragment ∈ fragments, fragment.takesCaret = false) :
    LaidRows gs [] (fragments.map fun fragment => { toCellFragment := fragment }) := by
  refine ⟨fun line => level_map hlevel, fun index _ => ?_,
    fun row hrow => absurd hrow List.not_mem_nil⟩
  rw [ofRow_map]
  refine List.filter_eq_nil_iff.2 fun f hf => ?_
  rw [CellFragment.takesCaretOf, Bool.and_assoc]
  have hnone : (f.editable && f.caretLine) = false := hcaret f hf
  rw [hnone, Bool.and_false]
  exact Bool.false_ne_true

/-- No rows are laid on no lines. -/
theorem laidRows_empty : LaidRows gs [] ([] : List (CellLine CellStyle)) :=
  ⟨fun _ hline => absurd hline List.not_mem_nil, fun _ _ => rfl,
    fun _ hrow => absurd hrow List.not_mem_nil⟩

/-- The lines of one row. -/
theorem laidRows_singleton (hlevel : ∀ fragment ∈ fragments, fragment.Level)
    (hrow : ∀ fragment ∈ fragments, fragment.row = some row)
    (hlaid : RowLaid gs row (fragments.filter CellFragment.takesCaret)) :
    LaidRows gs [row] (fragments.map fun fragment => { toCellFragment := fragment }) := by
  have hfilter (index : Nat) : fragments.filter (CellFragment.takesCaretOf index) =
      fragments.filter fun f => row.index == index && f.takesCaret :=
    List.filter_congr fun f hf => takesCaretOf_eq (hrow f hf)
  refine ⟨fun line => level_map hlevel, fun index hindex => ?_, fun other hother => ?_⟩
  · rw [ofRow_map, hfilter, beq_eq_false_iff_ne.2 (hindex row (List.mem_singleton_self row))]
    exact List.filter_eq_nil_iff.2 fun _ _ => Bool.false_ne_true
  · rw [List.mem_singleton.1 hother, ofRow_map, hfilter, beq_self_eq_true]
    exact hlaid

/-- The lines of a row where it stands. -/
theorem RowLaid.map {f : CellFragment CellStyle → CellFragment CellStyle}
    (h : RowLaid gs row (fragments.filter CellFragment.takesCaret))
    (hrow : ∀ line, (f line).row = line.row)
    (hcaret : ∀ line, (f line).takesCaret = line.takesCaret)
    (hmargin : ∀ line ∈ fragments, (f line).atMargin = line.atMargin) :
    RowLaid gs row ((fragments.map f).filter CellFragment.takesCaret) := by
  have hfilter : (fragments.map f).filter CellFragment.takesCaret =
      (fragments.filter CellFragment.takesCaret).map f := by
    rw [List.filter_map]
    exact congrArg _ (List.filter_congr fun line _ => hcaret line)
  have hsame : ((fragments.filter CellFragment.takesCaret).map f).map CellFragment.atMargin =
      (fragments.filter CellFragment.takesCaret).map CellFragment.atMargin := by
    rw [List.map_map]
    exact List.map_congr_left fun line hline => hmargin line (List.mem_filter.1 hline).1
  refine ⟨?_, fun line hline => ?_⟩
  · rw [hfilter, ← CellFragment.laysOut_atMargin, hsame, CellFragment.laysOut_atMargin]
    exact h.laysOut
  · rw [hfilter] at hline
    obtain ⟨line', hline', rfl⟩ := List.mem_map.1 hline
    rw [hrow]
    exact h.row_eq line' hline'

/-! ## Images -/

variable {m : Markers} {d : Document} {controller : FlarkCellController} {cv : Canvas CellStyle}

/-- What is added to a canvas lays some rows out. -/
def Adds (gs : Graphemes) (cv cv' : Canvas CellStyle) (rows : List ProjectedRow) : Prop :=
  ∃ lines, cv'.lines = cv.lines ++ lines ∧ LaidRows gs rows lines

/-- What adds rows and then others adds both. -/
theorem Adds.trans {cv' cv'' : Canvas CellStyle} (h : Adds gs cv cv' rows)
    (h' : Adds gs cv' cv'' rows') (hapart : Apart (rows ++ rows')) :
    Adds gs cv cv'' (rows ++ rows') := by
  obtain ⟨lines, hlines, hlaid⟩ := h
  obtain ⟨lines', hlines', hlaid'⟩ := h'
  exact ⟨lines ++ lines', by rw [hlines', hlines, List.append_assoc], hlaid.append hlaid' hapart⟩

/-- Other lines before those of rows. -/
theorem Adds.after {cv' cv'' : Canvas CellStyle} (h : Adds gs cv cv' [])
    (h' : Adds gs cv' cv'' rows) (hapart : Apart rows) : Adds gs cv cv'' rows := h.trans h' hapart

/-- Other lines behind those of rows. -/
theorem Adds.before {cv' cv'' : Canvas CellStyle} (h : Adds gs cv cv' rows)
    (h' : Adds gs cv' cv'' []) (hapart : Apart rows) : Adds gs cv cv'' rows := by
  have := h.trans h' (by rwa [List.append_nil])
  rwa [List.append_nil] at this

/-- A preview has no glyphs, and takes no caret. -/
theorem mem_preview {row : ProjectedRow} {left width : Int} {linePrefix : Text}
    {resource : InlineResource} {line : CellFragment CellStyle}
    (h : line ∈ c.preview row left width linePrefix resource) :
    line.Level ∧ line.takesCaret = false ∧ line.row = some row := by
  rw [List.eq_of_mem_replicate h]
  exact ⟨CellFragment.level_of_nil rfl rfl, rfl, rfl⟩

/-- Previews add no rows. -/
theorem addPreviews_adds (row : ProjectedRow) (left width : Int) (linePrefix : Text)
    (images : List InlineResource) (cv : Canvas CellStyle) :
    Adds gs cv (images.foldl (c.addPreview row left width linePrefix) cv) [] := by
  induction images generalizing cv with
  | nil => exact ⟨[], (List.append_nil _).symm, laidRows_empty⟩
  | cons image images ih =>
    have hfirst : Adds gs cv (c.addPreview row left width linePrefix cv image) [] :=
      ⟨_, rfl, laidRows_nil (fun f hf => (mem_preview hf).1) fun f hf => (mem_preview hf).2.1⟩
    exact hfirst.trans (ih _) List.Pairwise.nil

/-- Images add no rows. -/
theorem addImages_adds (row : ProjectedRow) (left width : Int) (linePrefix : Text)
    (cv : Canvas CellStyle) : Adds gs cv (c.addImages row left width linePrefix cv) [] :=
  addPreviews_adds row left width linePrefix _ { cv with resources := _ }

/-! ## Rows -/

/-- The text of a row is laid on lines of that row. -/
theorem addText_row (hc : c.Substitutes) (m : Markers) (row : ProjectedRow) (linePrefix : Text)
    (outerCols : Int) (colors : Option CodeHighlight) :
    let lines := c.addText m (some row) row.text linePrefix 0 outerCols colors
    RowLaid c.graphemes row (lines.filter CellFragment.takesCaret) ∧
      ∀ line ∈ lines, line.row = some row ∧ line.left = 0 ∧ line.Level := by
  intro lines
  obtain ⟨hlays, hlines⟩ := addText_laid hc m (some row) row.text linePrefix 0 outerCols colors
  exact ⟨⟨hlays, fun line hline => (hlines line (List.mem_filter.1 hline).1).1⟩,
    fun line hline => ⟨(hlines line hline).1, (hlines line hline).2.1, (hlines line hline).2.2.1⟩⟩

/-- The lines of a row, as they are or moved. -/
theorem addLines_adds (hc : c.Substitutes) (m : Markers) (row : ProjectedRow) (linePrefix : Text)
    (outerCols : Int) (colors : Option CodeHighlight)
    {f : CellFragment CellStyle → CellFragment CellStyle}
    (hrow : ∀ line, (f line).row = line.row)
    (hcaret : ∀ line, (f line).takesCaret = line.takesCaret)
    (hmargin : ∀ line, line.left = 0 → (f line).atMargin = line.atMargin) (cv : Canvas CellStyle) :
    Adds c.graphemes cv (addLines cv
      ((c.addText m (some row) row.text linePrefix 0 outerCols colors).map f)) [row] := by
  obtain ⟨hlaid, hlines⟩ := addText_row hc m row linePrefix outerCols colors
  refine ⟨_, rfl, laidRows_singleton (fun l hl => ?_) (fun l hl => ?_)
    (hlaid.map hrow hcaret fun line hline => hmargin line (hlines line hline).2.1)⟩
  · obtain ⟨line, hline, rfl⟩ := List.mem_map.1 hl
    obtain ⟨-, hleft, hlevel⟩ := hlines line hline
    exact CellFragment.level_atMargin (hrow line) (hmargin line hleft) hlevel
  · obtain ⟨line, hline, rfl⟩ := List.mem_map.1 hl
    rw [hrow]
    exact (hlines line hline).1

/-- The text of a row adds the row. -/
theorem addText_adds (hc : c.Substitutes) (m : Markers) (row : ProjectedRow) (linePrefix : Text)
    (colors : Option CodeHighlight) (cv : Canvas CellStyle) :
    Adds c.graphemes cv
      (addLines cv (c.addText m (some row) row.text linePrefix 0 c.cols colors)) [row] := by
  have h := addLines_adds hc m row linePrefix c.cols colors (f := id) (fun _ => rfl)
    (fun _ => rfl) (fun _ _ => rfl) cv
  rwa [List.map_id] at h

/-- A line that is moved down stays at the margin, or off it. -/
theorem atMargin_shift (n : Int) (line : CellFragment CellStyle) :
    (shift n line).atMargin = line.atMargin := by
  have hglyphs : (line.glyphs.map fun g => { g with col := g.col + n }).map
      (CellGlyph.moveLeft (line.left + n)) = line.glyphs.map (CellGlyph.moveLeft line.left) := by
    rw [List.map_map]
    refine List.map_congr_left fun g _ => ?_
    have hcol : g.col + n - (line.left + n) = g.col - line.left := by omega
    exact congrArg (fun col => { g with col := col }) hcol
  rw [CellFragment.atMargin, CellFragment.atMargin]
  exact congrArg (fun glyphs => { (CellFragment.of none line.start line.linePrefix 0 :
    CellFragment CellStyle) with glyphs := glyphs, stop := line.stop }) hglyphs

/-- What the loop adds for a row. -/
theorem addRow_laid (hc : c.Substitutes) (b : CellBuilding CellStyle) (row : ProjectedRow) :
    Adds c.graphemes b.canvas (c.addRow controller d m b row none).canvas [row] := by
  have hlen := (c.length_rowPrefix m b.canvas.seenItems row).symm
  have hapart : Apart [row] := List.pairwise_singleton _ _
  let cv := { b.canvas with seenItems := (c.rowPrefix m b.canvas.seenItems row).2 }
  rw [addRow]
  dsimp only
  split
  · next image _ =>
    have hlabel (left : Int) (linePrefix : Text) (cv : Canvas CellStyle) :
        Adds c.graphemes cv (addLines cv (c.imageLabel m row linePrefix left image)) [row] :=
      addLines_adds hc m row linePrefix c.cols none
        (f := fun line => shift (max 0 ((c.cols - line.endColumn - left - 1).tdiv 2))
          { line with imageLabel := some image }) (fun _ => rfl)
        (fun _ => rfl) (fun line _ => atMargin_shift _ { line with imageLabel := some image }) cv
    exact (addImages_adds (c := c) row _ _ _ cv).after (hlabel _ _ _) hapart
  · dsimp only
    rw [rowText_lines hlen fun t ht => absurd ht (Option.not_mem_none t), Option.getD_some]
    exact (addText_adds hc m row _ _ cv).before (addImages_adds (c := c) row _ _ _ _) hapart

/-! ## Tables -/

/-- Rows one below the other are added. -/
theorem addStacked_adds (hc : c.Substitutes) (m : Markers) (linePrefix : Text) (available : Int)
    (rows : List ProjectedRow) (hapart : Apart rows) (cv : Canvas CellStyle) :
    Adds c.graphemes cv (rows.foldl (c.addStacked m linePrefix available) cv) rows := by
  induction rows generalizing cv with
  | nil => exact ⟨[], (List.append_nil _).symm, laidRows_empty⟩
  | cons row rows ih =>
    have hfirst : Adds c.graphemes cv (c.addStacked m linePrefix available cv row) [row] :=
      (addText_adds hc m row _ none cv).before (addImages_adds (c := c) row _ _ _ _)
        (List.pairwise_singleton _ _)
    exact hfirst.trans (ih (List.pairwise_cons.1 hapart).2 _) hapart

/-- The lines of a table cell. -/
structure PartLaid (gs : Graphemes) (row : ProjectedRow) (part : List (CellFragment CellStyle)) :
    Prop where
  level : ∀ fragment ∈ part, fragment.Level
  row_eq : ∀ fragment ∈ part, fragment.row = some row
  laid : RowLaid gs row (part.filter CellFragment.takesCaret)

/-- A cell's line is at its own margin where it was at the row's. -/
theorem atMargin_moved (n right : Int) {line : CellFragment CellStyle} (h : line.left = 0) :
    ({ shift n line with left := n, right := right } : CellFragment CellStyle).atMargin =
      line.atMargin := by
  rw [← atMargin_shift n line, CellFragment.atMargin, CellFragment.atMargin, shift]
  dsimp only
  rw [h, Int.zero_add]

/-- Aligning a cell leaves its lines at their margin. -/
theorem atMargin_alignCell (row : ProjectedRow) (left width : Int) {line : CellFragment CellStyle}
    (h : line.left = 0) : (alignCell row left width line).atMargin = line.atMargin :=
  atMargin_moved _ _ h

/-- Each cell of a table's line is laid in its part. -/
theorem tableParts_laid (hc : c.Substitutes) (m : Markers) (widths : List Int) (left : Int)
    (rows : List ProjectedRow) (resources : List InlineResource) :
    List.Forall₂ (PartLaid c.graphemes) rows (c.tableParts m widths left rows resources).1 := by
  induction rows generalizing left resources with
  | nil => exact List.Forall₂.nil
  | cons row rows ih =>
    rw [tableParts]
    refine List.Forall₂.cons ?_ (ih _ _)
    obtain ⟨hlaid, hlines⟩ :=
      addText_row hc m row (Text.blanks 1) (widths.getD row.column.toNat 0) none
    have hpreview {f : CellFragment CellStyle} {resources : List InlineResource} {left width : Int}
        (hf : f ∈ resources.flatMap (c.preview row left width [])) :
        f.Level ∧ f.takesCaret = false ∧ f.row = some row := by
      obtain ⟨resource, -, hf⟩ := List.mem_flatMap.1 hf
      exact mem_preview hf
    refine ⟨fun f hf => ?_, fun f hf => ?_, ?_⟩
    · rcases List.mem_append.1 hf with hf | hf
      · obtain ⟨line, hline, rfl⟩ := List.mem_map.1 hf
        obtain ⟨-, hleft, hlevel⟩ := hlines line hline
        have hrow : (alignCell row left (widths.getD row.column.toNat 0) line).row = line.row := rfl
        exact CellFragment.level_atMargin hrow (atMargin_alignCell row _ _ hleft) hlevel
      · exact (hpreview hf).1
    · rcases List.mem_append.1 hf with hf | hf
      · obtain ⟨line, hline, rfl⟩ := List.mem_map.1 hf
        exact (hlines line hline).1
      · exact (hpreview hf).2.2
    · rw [List.filter_append, List.filter_eq_nil_iff (l := List.flatMap _ _) |>.2 fun f hf => by
        rw [(hpreview hf).2.1]
        exact Bool.false_ne_true, List.append_nil]
      exact hlaid.map (fun _ => rfl) (fun _ => rfl) fun line hline =>
        atMargin_alignCell row _ _ (hlines line hline).2.1

/-- The line of a table at a height of a row. -/
def tableLine (linePrefix : Text) (rows : List ProjectedRow)
    (parts : List (List (CellFragment CellStyle))) (y : Nat) : CellLine CellStyle :=
  { toCellFragment := .of rows.head? 0 linePrefix 0, cells := some (parts.map (fragmentAt · y)) }

/-- The lines of a table are added from top to bottom. -/
theorem foldl_addTableLine (linePrefix : Text) (rows : List ProjectedRow)
    (parts : List (List (CellFragment CellStyle))) (ys : List Nat) (cv : Canvas CellStyle) :
    (ys.foldl (c.addTableLine linePrefix rows parts) cv).lines =
      cv.lines ++ ys.map (tableLine linePrefix rows parts) := by
  induction ys generalizing cv with
  | nil => exact (List.append_nil _).symm
  | cons y ys ih =>
    rw [List.foldl_cons, ih, List.map_cons, List.append_cons]
    rfl

section

variable {part : List (CellFragment CellStyle)} {parts : List (List (CellFragment CellStyle))}
  {index height : Nat}

/-- Below the last line of a cell there is an empty line, which takes no caret. -/
theorem fragmentAt_cases (part : List (CellFragment CellStyle)) (y : Nat) :
    part[y]? = some (fragmentAt part y) ∨
      part.length ≤ y ∧ (fragmentAt part y).Level ∧ (fragmentAt part y).caretLine = false := by
  rw [fragmentAt]
  cases h : part[y]? with
  | some line => exact .inl rfl
  | none => exact .inr ⟨List.getElem?_eq_none_iff.1 h, CellFragment.level_of_nil rfl rfl, rfl⟩

/-- A part takes the caret of its own row only. -/
theorem takesCaretOf_fragmentAt (h : PartLaid gs row part) (hindex : row.index ≠ index) (y : Nat) :
    (fragmentAt part y).takesCaretOf index = false := by
  rcases fragmentAt_cases part y with hmem | ⟨-, -, hcaret⟩
  · rw [takesCaretOf_eq (h.row_eq _ (List.mem_of_getElem? hmem)), beq_eq_false_iff_ne.2 hindex,
      Bool.false_and]
  · rw [CellFragment.takesCaretOf, hcaret, Bool.and_false]

/-- The caret lines of a cell over the heights of its row. -/
theorem filter_fragmentAt (h : PartLaid gs row part) (hheight : part.length ≤ height) :
    ((List.range height).map (fragmentAt part)).filter (CellFragment.takesCaretOf row.index) =
      part.filter CellFragment.takesCaret := by
  obtain ⟨k, rfl⟩ := Nat.exists_eq_add_of_le hheight
  have hpart : (List.range part.length).map (fragmentAt part) = part := by
    refine List.ext_getElem (by rw [List.length_map, List.length_range]) fun y hy hy' => ?_
    rw [List.getElem_map, List.getElem_range]
    rcases fragmentAt_cases part y with hmem | ⟨hle, -⟩
    · rw [List.getElem?_eq_getElem hy'] at hmem
      exact (Option.some_inj.1 hmem).symm
    · exact absurd hle (not_le.2 hy')
  have hbelow : ((List.range k).map (fragmentAt part ∘ fun i => part.length + i)).filter
      (CellFragment.takesCaretOf row.index) = [] := by
    refine List.filter_eq_nil_iff.2 fun f hf => ?_
    obtain ⟨i, -, rfl⟩ := List.mem_map.1 hf
    rcases fragmentAt_cases part (part.length + i) with hmem | ⟨-, -, hcaret⟩
    · rw [List.getElem?_eq_none (Nat.le_add_right _ _)] at hmem
      cases hmem
    · rw [Function.comp_apply, CellFragment.takesCaretOf, hcaret, Bool.and_false]
      exact Bool.false_ne_true
  rw [List.range_add, List.map_append, hpart, List.filter_append, List.map_map,
    hbelow, List.append_nil]
  refine List.filter_congr fun f hf => ?_
  rw [takesCaretOf_eq (h.row_eq f hf), beq_self_eq_true, Bool.true_and]

/-- The caret lines of one row over the heights of a table row. -/
theorem flatMap_fragmentAt (hparts : List.Forall₂ (PartLaid gs) rows parts) (hapart : Apart rows)
    (hheight : ∀ part ∈ parts, part.length ≤ height) :
    (∀ index, (∀ row ∈ rows, row.index ≠ index) →
      ((List.range height).flatMap fun y => (parts.map (fragmentAt · y)).filter
        (CellFragment.takesCaretOf index)) = []) ∧
    ∀ row ∈ rows, RowLaid gs row ((List.range height).flatMap fun y =>
      (parts.map (fragmentAt · y)).filter (CellFragment.takesCaretOf row.index)) := by
  induction hparts with
  | nil => exact ⟨fun _ _ => List.flatMap_eq_nil_iff.2 fun _ _ => rfl,
      fun row hrow => absurd hrow List.not_mem_nil⟩
  | @cons first part rows parts hfirst hparts ih =>
    obtain ⟨hdiffer, hapart⟩ := List.pairwise_cons.1 hapart
    obtain ⟨habsent, hlaid⟩ := ih hapart fun part hpart =>
      hheight part (List.mem_cons_of_mem _ hpart)
    have hskip {index : Nat} (h : first.index ≠ index) (y : Nat) :
        ((part :: parts).map (fragmentAt · y)).filter (CellFragment.takesCaretOf index) =
          (parts.map (fragmentAt · y)).filter (CellFragment.takesCaretOf index) := by
      rw [List.map_cons, List.filter_cons_of_neg]
      rw [takesCaretOf_fragmentAt hfirst h]
      exact Bool.false_ne_true
    refine ⟨fun index hindex => ?_, fun row hrow => ?_⟩
    · simp only [hskip (hindex first List.mem_cons_self)]
      exact habsent index fun row hrow => hindex row (List.mem_cons_of_mem first hrow)
    · rcases List.mem_cons.1 hrow with rfl | hrow
      · have hothers := List.flatMap_eq_nil_iff.1 (habsent row.index fun other hother =>
          (hdiffer other hother).symm)
        have hhere : ∀ y ∈ List.range height, ((part :: parts).map (fragmentAt · y)).filter
            (CellFragment.takesCaretOf row.index) =
            [fragmentAt part y].filter (CellFragment.takesCaretOf row.index) := fun y hy => by
          rw [List.map_cons, ← List.singleton_append (l := parts.map _), List.filter_append,
            hothers y hy, List.append_nil]
        rw [List.flatMap_congr hhere, ← List.filter_flatMap, ← List.map_eq_flatMap,
          filter_fragmentAt hfirst (hheight part List.mem_cons_self)]
        exact hfirst.laid
      · simp only [hskip (hdiffer row hrow)]
        exact hlaid row hrow

/-- A part of level fragments is level. -/
theorem level_fragmentAt (h : ∀ fragment ∈ part, fragment.Level) (y : Nat) :
    (fragmentAt part y).Level := by
  rcases fragmentAt_cases part y with hmem | ⟨-, hlevel, -⟩
  · exact h _ (List.mem_of_getElem? hmem)
  · exact hlevel

/-- The lines of a table row. -/
theorem tableLines_laid (linePrefix : Text) (hparts : List.Forall₂ (PartLaid gs) rows parts)
    (hapart : Apart rows) (hheight : ∀ part ∈ parts, part.length ≤ height) :
    LaidRows gs rows ((List.range height).map (tableLine linePrefix rows parts)) := by
  obtain ⟨habsent, hlaid⟩ := flatMap_fragmentAt hparts hapart hheight
  have hof (index : Nat) : ofRow index ((List.range height).map (tableLine linePrefix rows parts)) =
      (List.range height).flatMap fun y => (parts.map (fragmentAt · y)).filter
        (CellFragment.takesCaretOf index) := by
    rw [ofRow, List.flatMap_map]
    rfl
  have hlevel : ∀ part ∈ parts, ∀ fragment ∈ part, fragment.Level := by
    clear habsent hlaid hof hheight hapart
    induction hparts with
    | nil => exact fun part hpart => absurd hpart List.not_mem_nil
    | cons hfirst _ ih => exact List.forall_mem_cons.2 ⟨hfirst.level, ih⟩
  refine ⟨fun line hline => ?_, fun index hindex => ?_, fun row hrow => ?_⟩
  · obtain ⟨y, -, rfl⟩ := List.mem_map.1 hline
    refine ⟨CellFragment.level_of_nil rfl rfl, fun fragment hfragment => ?_⟩
    obtain ⟨part, hpart, rfl⟩ := List.mem_map.1 hfragment
    exact level_fragmentAt (hlevel part hpart) y
  · rw [hof]
    exact habsent index hindex
  · rw [hof]
    exact hlaid row hrow

end

/-- A maximum is not below what it is one of. -/
theorem le_foldl_max (ns : List Nat) (n : Nat) :
    n ≤ ns.foldl max n ∧ ∀ k ∈ ns, k ≤ ns.foldl max n := by
  induction ns generalizing n with
  | nil => exact ⟨Nat.le_refl n, fun k hk => absurd hk List.not_mem_nil⟩
  | cons k ns ih =>
    obtain ⟨hle, hall⟩ := ih (max n k)
    refine ⟨(Nat.le_max_left n k).trans hle, fun k' hk' => ?_⟩
    rcases List.mem_cons.1 hk' with rfl | hk'
    · exact (Nat.le_max_right n k').trans hle
    · exact hall k' hk'

/-- A rule adds no rows. -/
theorem addRule_adds (text : Text) (cv : Canvas CellStyle) : Adds gs cv (addRule text cv) [] := by
  refine ⟨_, rfl, laidRows_nil (fun f hf => ?_) fun f hf => ?_⟩
  · rw [List.mem_singleton.1 hf]
    exact CellFragment.level_of_nil rfl rfl
  · rw [List.mem_singleton.1 hf]
    rfl

/-- The rows of a table add their cells. -/
theorem addTableRows_adds (hc : c.Substitutes) (m : Markers) (linePrefix : Text) (widths : List Int)
    (middle bottom : Text) (groups : List (List ProjectedRow)) (hapart : Apart groups.flatten)
    (cv : Canvas CellStyle) :
    Adds c.graphemes cv (c.addTableRows m linePrefix widths middle bottom groups cv)
      groups.flatten := by
  induction groups generalizing cv with
  | nil => exact ⟨[], (List.append_nil _).symm, laidRows_empty⟩
  | cons rows groups ih =>
    rw [List.flatten_cons] at hapart ⊢
    obtain ⟨hrows, hgroups, -⟩ := List.pairwise_append.1 hapart
    rw [addTableRows]
    have hparts := tableParts_laid hc m widths (linePrefix.length + 1) rows cv.resources
    generalize c.tableParts m widths (linePrefix.length + 1) rows cv.resources = parts at hparts ⊢
    have hheight : ∀ part ∈ parts.1, part.length ≤ (parts.1.map List.length).foldl max 0 :=
      fun part hpart => (le_foldl_max _ 0).2 _ (List.mem_map_of_mem hpart)
    have hlines : Adds c.graphemes cv ((List.range ((parts.1.map List.length).foldl max 0)).foldl
        (c.addTableLine linePrefix rows parts.1) { cv with resources := parts.2 }) rows :=
      ⟨_, foldl_addTableLine linePrefix rows parts.1 _ _,
        tableLines_laid linePrefix hparts hrows hheight⟩
    exact (hlines.before (addRule_adds _ _) hrows).trans (ih hgroups _) hapart

/-- What is added for a table. -/
theorem addTable_laid (hc : c.Substitutes) (m : Markers) (first : ProjectedRow)
    (rest : List ProjectedRow) (hapart : Apart (first :: rest)) (cv : Canvas CellStyle) :
    Adds c.graphemes cv (c.addTable m first rest cv) (first :: rest) := by
  have hflatten : ((first :: rest).splitBy fun a b => a.tableRowBlock == b.tableRowBlock).flatten =
      first :: rest := List.flatten_splitBy ..
  let cv' := { cv with seenItems := (c.rowPrefix m cv.seenItems first).2 }
  rw [addTable]
  dsimp only
  split
  · exact addStacked_adds hc m _ _ (first :: rest) hapart cv'
  · have htop (text : Text) : Adds c.graphemes cv (addRule text cv') [] := addRule_adds text cv'
    have hrows (linePrefix : Text) (widths : List Int) (middle bottom : Text)
        (cv : Canvas CellStyle) :
        Adds c.graphemes cv (c.addTableRows m linePrefix widths middle bottom
          ((first :: rest).splitBy fun a b => a.tableRowBlock == b.tableRowBlock) cv)
          (first :: rest) := by
      have h := addTableRows_adds hc m linePrefix widths middle bottom
        ((first :: rest).splitBy fun a b => a.tableRowBlock == b.tableRowBlock)
        (by rwa [hflatten]) cv
      rwa [hflatten] at h
    exact (htop _).after (hrows _ _ _ _ _) hapart

/-! ## Documents -/

/-- What the loop over the rows adds, of which some are laid out. -/
theorem addRows_laid (controller : FlarkCellController) (d : Document) (m : Markers)
    (hc : c.Substitutes) (rows : List ProjectedRow) (i skip : Nat)
    (hapart : Apart (rows.drop skip)) (b : CellBuilding CellStyle) :
    Adds c.graphemes b.canvas (c.addRows controller d m (fun _ => none) i skip b rows).canvas
      (rows.drop skip) := by
  induction rows generalizing i skip b with
  | nil =>
    rw [List.drop_nil, addRows]
    exact ⟨[], (List.append_nil _).symm, laidRows_empty⟩
  | cons row rows ih =>
    cases skip with
    | succ skip =>
      rw [addRows]
      exact ih (i + 1) skip hapart { b with rowText := _ }
    | zero =>
      rw [List.drop_zero] at hapart ⊢
      rw [addRows]
      split_ifs with htable
      · have hsplit : rows.takeWhile (fun r => r.tableBlock == row.tableBlock) ++
            rows.dropWhile (fun r => r.tableBlock == row.tableBlock) = rows :=
          List.takeWhile_append_dropWhile
        generalize rows.takeWhile (fun r => r.tableBlock == row.tableBlock) = rest at hsplit ⊢
        generalize rows.dropWhile (fun r => r.tableBlock == row.tableBlock) = others at hsplit
        have hdrop : rows.drop rest.length = others := by rw [← hsplit, List.drop_left]
        rw [← hsplit, ← List.cons_append] at hapart ⊢
        obtain ⟨htable, hothers, -⟩ := List.pairwise_append.1 hapart
        have hrest := ih (i + 1) rest.length (hdrop.symm ▸ hothers)
        rw [hdrop, ← hsplit] at hrest
        exact (addTable_laid hc m row rest htable b.canvas).trans (hrest
          { canvas := c.addTable m row rest b.canvas
            rowText := b.rowText ++ [{ row := row }]
            counts := b.counts }) hapart
      · have hrest :=
          ih (i + 1) 0 (List.pairwise_cons.1 hapart).2 (c.addRow controller d m b row none)
        exact (addRow_laid hc b row).trans hrest hapart

theorem candidate_nil (rows : List ProjectedRow) :
    candidate ([] : List (RowText CellStyle)) rows = fun _ => none := by
  funext i
  have hmatching (rows : List ProjectedRow) :
      matching ([] : List (RowText CellStyle)) rows = 0 := rfl
  simp [candidate, hmatching]

/-- A layout has a line. -/
theorem LaidRows.orEmptyLine (h : LaidRows gs rows lines) :
    LaidRows gs rows (CellDocumentLayout.orEmptyLine lines) := by
  rw [CellDocumentLayout.orEmptyLine]
  split_ifs with hempty
  · rw [List.isEmpty_iff.1 hempty] at h
    cases rows with
    | cons row rows => cases (h.laid row List.mem_cons_self).laysOut.first
    | nil =>
      refine ⟨fun line => @level_map _ [.of none 0 [] 0] (fun f hf => ?_) line,
        fun index _ => rfl, fun row hrow => absurd hrow List.not_mem_nil⟩
      rw [List.mem_singleton.1 hf]
      exact CellFragment.level_of_nil rfl rfl
  · exact h

end CellSettings

namespace CellDocumentLayout

variable {CellStyle CellWidthPolicy : Type}

/-- The lines that `positionFor` searches. -/
def candidates (l : CellDocumentLayout CellStyle CellWidthPolicy)
    (position : Option DisplayPosition) : List (Nat × CellFragment CellStyle) :=
  match position with
  | none => l.lines.zipIdx.map fun (line, i) => (i, line.toCellFragment)
  | some pos => l.rowLines pos.row

/-- `positionFor`, given the projection that the layout shows. -/
def positionFor (l : CellDocumentLayout CellStyle CellWidthPolicy) (projection : Option Projection)
    (source : Int) (tableCell : Option Int) (lineEnd : Bool) : CellOffset :=
  let position := projection.bind fun p => p.displayForSource source tableCell
  CellFragment.search lineEnd
    (fun line =>
      match position with
      | some pos => pos.offset
      | none => source - line.sourceStart) ⟨0, 0⟩ (l.candidates position)

/-- The lines of a row are found among all lines by its index. -/
theorem map_rowLines (l : CellDocumentLayout CellStyle CellWidthPolicy) (index : Nat) :
    (l.rowLines index).map Prod.snd = CellSettings.ofRow index l.lines := by
  have hzip : ∀ (lines : List (CellLine CellStyle)) (n : Nat),
      ((lines.zipIdx n).flatMap fun (line, i) => (line.fragments.filter fun fragment =>
        fragment.row.any (·.index == index) && fragment.editable && fragment.caretLine).map
          (i, ·)).map Prod.snd = CellSettings.ofRow index lines := by
    intro lines
    induction lines with
    | nil => exact fun _ => rfl
    | cons line lines ih =>
      intro n
      rw [List.zipIdx_cons, List.flatMap_cons, List.map_append, ih, List.map_map]
      exact congrArg (· ++ CellSettings.ofRow index lines) (List.map_id _)
  exact hzip l.lines 0

variable {fl : Fleury CellStyle CellWidthPolicy} {gs : Graphemes} {host : Nat → FlarkCellController}
  {r : LayoutRequest CellStyle CellWidthPolicy}

/-- The layout of a document lays its rows out. -/
theorem buildLive_laid (hc : (settings fl gs r).Substitutes) {d : Document} (hd : d.Live gs)
    (counts : LayoutCounts) :
    CellSettings.LaidRows gs d.projection.rows
      (buildLive fl gs host r d [] counts).canvas.lines := by
  have hapart : CellSettings.Apart d.projection.rows := by
    refine List.pairwise_iff_getElem.2 fun i j hi hj hlt => ?_
    rw [hd.built.index (List.getElem?_eq_getElem hi), hd.built.index (List.getElem?_eq_getElem hj)]
    exact hlt.ne
  have hrows := CellSettings.addRows_laid (host r.controller) d
    ((settings fl gs r).measureMarkers d.projection.rows) hc d.projection.rows 0 0 hapart
    { canvas :=
        { lines := []
          images := []
          seenItems := []
          resources := (d.images gs).insertionSort fun a b => a.contentStart ≤ b.contentStart }
      rowText := []
      counts := counts }
  obtain ⟨lines, hlines, hlaid⟩ := hrows
  rw [buildLive, CellSettings.candidate_nil, hlines]
  exact hlaid

variable [DecidableEq CellStyle] [DecidableEq CellWidthPolicy]

/-- A layout of a live document has all its rows laid. -/
theorem live_laid (host : Nat → FlarkCellController) (hc : (settings fl gs r).Substitutes)
    {d : Document} (hsnapshot : r.snapshot = .live d) (hd : d.Live gs) (counts : LayoutCounts) :
    CellSettings.LaidRows gs d.projection.rows (build fl gs host r none counts).1.lines := by
  simp only [build, hsnapshot]
  exact (buildLive_laid hc hd counts).orEmptyLine

/-- A source offset that shows at an offset of a text that is laid out: that of a row, or the part
    of a source that is shown as it is. -/
inductive Addresses (r : LayoutRequest CellStyle CellWidthPolicy) :
    (painted : Text) → (projection : Option Projection) → (source : Int) →
      (tableCell : Option Int) → (offset : Nat) → Prop
  | row {d : Document} {row : ProjectedRow} {source : Int} {tableCell : Option Int} {offset : Nat}
    {snapped : Bool} (hsnapshot : r.snapshot = .live d) (hrow : row ∈ d.projection.rows)
    (hposition :
      d.projection.displayForSource source tableCell = some ⟨row.index, offset, snapped⟩) :
    Addresses r (row.text.take (CellSettings.paintedEnd (some row) row.text)) (some d.projection)
      source tableCell offset
  | source {text : Text} {selection : Selection} {tableCell : Option Int} {offset : Nat}
    (hsnapshot : r.snapshot = .source text selection) :
    Addresses r
      (text.substring (windowOf text selection.extent).1 (windowOf text selection.extent).2) none
      ((windowOf text selection.extent).1 + offset) tableCell offset

/-- A window does not start in front of the source. -/
theorem windowOf_nonneg (source : Text) (extent : Int) : 0 ≤ (windowOf source extent).1 := by
  rw [windowOf]
  dsimp only
  split_ifs with h
  · rw [Bool.and_eq_true, decide_eq_true_eq] at h
    omega
  · omega

/-- The lines of a source that is shown as it is. -/
theorem source_laid (host : Nat → FlarkCellController) (hc : (settings fl gs r).Substitutes)
    {text : Text} {selection : Selection}
    (hsnapshot : r.snapshot = .source text selection) (counts : LayoutCounts) :
    let window := windowOf text selection.extent
    let painted := text.substring window.1 window.2
    let lines := (build fl gs host r none counts).1.lines
    ∃ fragments, lines = fragments.map (fun fragment => { toCellFragment := fragment }) ∧
      CellFragment.LaysOut painted (gs.split painted) painted.length fragments ∧
      ∀ fragment ∈ fragments, fragment.row = none ∧ fragment.Level ∧
        fragment.sourceStart = window.1.toNat := by
  intro window painted lines
  obtain ⟨hlays, hfragments⟩ := CellSettings.addText_source hc ⟨fun _ => none, fun _ => none⟩
    painted [] window.1.toNat r.cols none
  refine ⟨_, ?_, hlays, hfragments⟩
  simp only [lines, build, hsnapshot]
  rw [orEmptyLine, if_neg]
  intro hempty
  have hnil := List.map_eq_nil_iff.1 (List.isEmpty_iff.1 hempty)
  rw [hnil] at hlays
  cases hlays.first

/-- The cell of a grapheme boundary of a text that is laid out hits the boundary; it is on a line
    of the text that has it, and where the text is wrapped there, on the line that starts there,
    or on the one that ends there if that is asked for. Whatever column of a line is hit, it is an
    edge of a glyph, and not before that of a column further left. -/
theorem positionFor_spec (hc : (settings fl gs r).Substitutes)
    {previous : Option (CellDocumentLayout CellStyle CellWidthPolicy)}
    (hprevious : ∀ l ∈ previous, Chained fl gs host l) (hr : r.snapshot.Live gs)
    (counts : LayoutCounts) :
    let l := (build fl gs host r previous counts).1
    (∀ painted projection source tableCell offset,
      Addresses r painted projection source tableCell offset →
      offset ∈ gs.boundaries painted → ∀ lineEnd,
        let candidates :=
          l.candidates (projection.bind fun p => p.displayForSource source tableCell)
        let cell := l.positionFor projection source tableCell lineEnd
        ∃ line, (cell.row, line) ∈ candidates ∧ cell.col = line.columnAt offset ∧
          (line.hit cell.col).1 = offset ∧ line.start ≤ offset ∧ offset ≤ line.stop ∧
          ∀ before after, [before, after] <:+: candidates → before.2.stop = offset →
            after.2.start = offset → (cell.row, line) = if lineEnd then before else after) ∧
      ∀ line ∈ l.lines, ∀ fragment, fragment = line.toCellFragment ∨ fragment ∈ line.fragments →
        (Monotone fun col => (fragment.hit col).1) ∧
          ∀ col, fragment.start ≤ (fragment.hit col).1 ∧ (fragment.hit col).1 ≤ fragment.stop ∧
            ((∃ g ∈ fragment.glyphs,
                (fragment.hit col).1 = g.start ∨ (fragment.hit col).1 = g.stop) ∨
              fragment.glyphs = [] ∧ (fragment.hit col).1 = fragment.start) := by
  intro l
  -- Only the lines of the layout are asked, and these are what a fresh layout has.
  have hlines : l.lines = (build fl gs host r none ⟨0, 0⟩).1.lines :=
    (build_eq_fresh (fun l hl => (hprevious l hl).lends) hr counts ⟨0, 0⟩).1
  constructor
  · intro painted projection source tableCell offset haddress hoffset lineEnd
    cases haddress with
    -- In a live document the candidates are the lines of the caret's row.
    | @row d row source tableCell offset snapped hsnapshot hrow hposition =>
      rw [hsnapshot] at hr
      have hlaid : CellSettings.RowLaid gs row ((l.rowLines row.index).map Prod.snd) := by
        rw [map_rowLines, hlines]
        exact (live_laid host hc hsnapshot hr.1 ⟨0, 0⟩).laid row hrow
      have hwhole : ∀ c ∈ l.rowLines row.index, !c.2.inTable →
          (row.text.take (CellSettings.paintedEnd (some row) row.text)).length = row.text.length :=
        fun c hc htable => CellSettings.length_painted_of_not_inTable (by
          rw [CellFragment.inTable, hlaid.row_eq c.2 (List.mem_map_of_mem hc)] at htable
          exact htable)
      obtain ⟨c, hmem, hfound, hspec⟩ := CellFragment.search_boundary
        hlaid.laysOut (List.length_take_le' _ _) hwhole hoffset lineEnd ⟨0, 0⟩
      have hcell : l.positionFor (some d.projection) source tableCell lineEnd =
          ⟨c.2.columnAt offset, c.1⟩ := by
        rw [positionFor, Option.bind_some, hposition]
        exact hfound
      rw [Option.bind_some, hposition]
      dsimp only
      rw [hcell]
      exact ⟨c.2, hmem, rfl, hspec⟩
    -- In source mode they are all lines, and offsets count from the window's start.
    | @source text selection tableCell offset hsnapshot =>
      obtain ⟨fragments, heq, hlays, hfragments⟩ :=
        source_laid host hc hsnapshot ⟨0, 0⟩
      have hmap : (l.candidates none).map Prod.snd = fragments := by
        have hfst : l.lines.map CellLine.toCellFragment = fragments := by
          rw [hlines, heq, List.map_map]
          exact List.map_id _
        rw [candidates, List.map_map, ← hfst]
        conv_rhs => rw [← List.zipIdx_map_fst 0 l.lines, List.map_map]
        rfl
      have hnonneg := windowOf_nonneg text selection.extent
      obtain ⟨c, hmem, hfound, hspec⟩ := CellFragment.search_boundary
        (hmap.symm ▸ hlays) (Nat.le_refl _) (fun _ _ _ => rfl) hoffset lineEnd ⟨0, 0⟩
      have hcell :
          l.positionFor none ((windowOf text selection.extent).1 + offset) tableCell lineEnd =
            ⟨c.2.columnAt offset, c.1⟩ := by
        rw [positionFor, Option.bind_none, ← hfound]
        refine CellFragment.search_congr fun c hc => ?_
        rw [(hfragments c.2 (hmap ▸ List.mem_map_of_mem hc)).2.2]
        dsimp only
        omega
      rw [hcell]
      exact ⟨c.2, hmem, rfl, hspec⟩
  · intro line hline fragment hfragment
    have hlevel : fragment.Level := by
      rw [hlines] at hline
      cases hsnapshot : r.snapshot with
      | live d =>
        rw [hsnapshot] at hr
        obtain ⟨hwhole, hparts⟩ := (live_laid host hc hsnapshot hr.1 ⟨0, 0⟩).level line hline
        exact hfragment.elim (fun heq => heq ▸ hwhole) (hparts fragment)
      | source text selection =>
        obtain ⟨fragments, heq, -, hfragments⟩ :=
          source_laid host hc hsnapshot ⟨0, 0⟩
        rw [heq] at hline
        obtain ⟨only, honly, rfl⟩ := List.mem_map.1 hline
        have hsame : fragment = only := hfragment.elim id List.mem_singleton.1
        exact hsame ▸ (hfragments only honly).2.1
    exact ⟨CellFragment.hit_mono hlevel, CellFragment.hit_edge hlevel⟩

/-- The last paragraph of `Document.letters` in two columns, where each letter has a line: between
    the two, the caret is at the start of the second line or, if that is asked for, at the end of
    the first. -/
theorem positionFor_spec_letters :
    let r := { inTwentyColumns Document.letters with cols := 2 }
    let l := (build plainTerminal .units (fun _ => .fleury none) r none ⟨0, 0⟩).1
    let cell := l.positionFor (some Document.letters.projection) 4 none
    cell false = ⟨0, 3⟩ ∧ cell true = ⟨1, 2⟩ ∧ ∀ lineEnd, ∃ line : CellFragment CellStyleArgs,
      (line.hit (cell lineEnd).col).1 = 1 := by
  intro r l cell
  have hc : (settings plainTerminal .units r).Substitutes := fun g _ => by
    show 0 < (Text.ofString "◌" ++ g).length
    rw [List.length_append]
    exact Nat.add_pos_left (by decide) _
  have hr : r.snapshot.Live .units := ⟨Document.letters_live, twoParagraphs_resourcesConform.2⟩
  have hcells := (@positionFor_spec _ _ _ _ (fun _ => .fleury none) _ _ _ hc none
    (fun l hl => absurd hl (Option.not_mem_none l)) hr ⟨0, 0⟩).1
  refine ⟨by decide, by decide, fun lineEnd => ?_⟩
  obtain ⟨row, hrow⟩ : ∃ row, Document.letters.projection.rows[2]? = some row :=
    Option.isSome_iff_exists.1 (by decide)
  have hindex : row.index = 2 := Document.letters_live.built.index hrow
  have hposition : Document.letters.projection.displayForSource 4 none =
      some ⟨row.index, (1 : Nat), false⟩ := by
    rw [hindex]
    decide
  have hoffset : 1 ∈ Graphemes.units.boundaries
      (row.text.take (CellSettings.paintedEnd (some row) row.text)) := by
    have hall : ∀ row ∈ Document.letters.projection.rows[2]?, 1 ∈ Graphemes.units.boundaries
        (row.text.take (CellSettings.paintedEnd (some row) row.text)) := by decide
    exact hall row hrow
  obtain ⟨line, -, -, hhit, -⟩ := hcells _ _ 4 none 1
    (Addresses.row rfl (List.mem_of_getElem? hrow) hposition) hoffset lineEnd
  exact ⟨line, hhit⟩

end CellDocumentLayout

end Flark
