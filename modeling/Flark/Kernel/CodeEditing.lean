import Flark.Kernel.CodeBody
import Flark.Kernel.Edits

/-!
# Editing fenced code

An edit of the text of a fenced block, written to the source (`_applyCodeEdit` of
`kernel/code_editing.dart`). The replaced text can start and end on different lines, whose
containers' prefixes can differ; a line break that is put there takes the prefix of the line that
the edit starts on. An indentation writes the lines one by one instead.

* `applyCodeEdit`: what an edit comes to, as `_commitCodeEdit` is asked to commit it;
* `Written`: a source that has a text between the fences, and where it has each unit of it;
* `applyCodeEdit_spec`: an edit writes the proposed text, with the caret where that is; an
  indentation does as well, and keeps what is around each line.
-/

namespace Flark

open Spelled

/-- `CodeEditingAction`. -/
inductive CodeEditingAction
  | insert
  | newline
  | indent
  | outdent
  deriving DecidableEq, Repr

/-- The actions that shift whole lines. -/
def CodeEditingAction.shifts (action : CodeEditingAction) : Bool :=
  action == .indent || action == .outdent

/-- `CodeEditProposal`: a range of a row's text, the text in its place and the selection after. -/
structure CodeEditProposal where
  start : Int
  stop : Int
  text : Text
  base : Int
  extent : Int
  deriving DecidableEq, Repr

namespace CodeEditing

/-- What `_applyCodeEdit` comes to. -/
inductive Outcome
  | throws (message : String)
  | rejected (rejection : FlarkRejection)
  | refused
  /-- The source stays as it is. -/
  | selects (selection : Selection)
  /-- `_createEmptyCodeBody`. -/
  | createsBody (body : Text) (base extent : Int)
  /-- `_commitCodeEdit`. -/
  | commits (body candidate : Text) (selected : Selection) (typing checked : Bool)
  deriving DecidableEq

/-! ## Prefixes and line endings -/

/-- The line feed that ends the line of an offset, or on the last line the one before it. -/
def lineFeedAt (source : Text) (offset : Nat) : Option Nat :=
  (((source.drop offset).findIdx? (· == 0x0A)).map (offset + ·)).or
    (((source.take offset).reverse.findIdx? (· == 0x0A)).map (offset - 1 - ·))

/-- `_lineBreakAt`. -/
def lineBreakAt (source : Text) (offset : Int) : Text :=
  match lineFeedAt source offset.toNat with
  | some newline =>
    if 0 < newline ∧ source.codeUnitAt (newline - 1 : Nat) = 0x0D then [0x0D, 0x0A] else [0x0A]
  | none => [0x0A]

/-- `_codeLines`: a line break becomes a line ending and a prefix. -/
def codeLines (newline indent text : Text) : Text := expand 0x0A newline indent text

/-- `_columns`: the visual column after a text, from one on. -/
def columns (text : Text) (column : Nat) : Nat :=
  text.foldl (fun column u => if u = 0x09 then (column / 4 + 1) * 4 else column + 1) column

/-- The loop of `_newLinePrefix`: tabs as the spaces they show. -/
def spaces : (column : Nat) → Text → Text
  | _, [] => []
  | column, u :: rest =>
    let next := columns [u] column
    (if u = 0x09 then List.replicate (next - column) 0x20 else [u]) ++ spaces next rest

/-- `_newLinePrefix`: of a tab that shows some of its columns as code, a new line takes the others
    as spaces. -/
def newLinePrefix (row : ProjectedRow) (contentStart : Int) (piece : Text) : Text :=
  match row.segments.find? fun s => !s.exact && !s.lineBreak && s.sourceStart == contentStart with
  | some s =>
    let hidden := spaces 0 piece
    hidden.take (hidden.length - (s.displayEnd - s.displayStart))
  | none => piece

section

variable (source : Text) (m : RenderModel)

/-- `_continuing`: the prefix of a new line that continues the containers of a block. -/
def continuing (b : Nat) : Text :=
  continuationPrefix source m (m.blockFirstLine b) (m.blockStart b) b

/-- `_isSpace`. -/
def isSpace (text : Text) (i : Int) : Bool := Text.isWordSpace (text.codeUnitAt i)

/-- `_innerPrefix`: the prefix that holds a later line of a list item or footnote definition. -/
def innerPrefix (c : Nat) : Text :=
  let outer := continuationPrefix source m (m.blockFirstLine c) (m.blockStart c) c
  if m.blockKind c = BlockKind.footnoteDefinition then
    (if m.blockKind (m.blockParent c) = BlockKind.document then [] else outer) ++ footnoteIndent
  else
    let stop := m.itemMarkerEnd c
    let marker := markerIndent (source.substring (m.blockStart c) stop)
    -- The first space behind a quote's marker would be read as a part of it.
    let pad : Text :=
      if outer ≠ [] ∧ isSpace outer (outer.length - 1 : Nat) = false then [0x20] else []
    if isSpace source (stop - 1 : Nat) then outer ++ pad ++ marker else outer ++ pad ++ marker ++ [0x20]

/-- `continued`: the prefix that the fence's own lines continue with, if it can be used, and whether
    the parser must check it. -/
def continued (b : Nat) : Option Text × Bool :=
  let continued := continuing source m b
  if continued.contains 0x09 then
    let parent := m.blockParent b
    if m.blockKind parent = BlockKind.item ∨ m.blockKind parent = BlockKind.footnoteDefinition then
      (some (innerPrefix source m parent), true)
    else (none, false)
  else (some continued, false)

end

/-! ## A replaced stretch -/

/-- An offset of a text is on a line that holds nothing. -/
def onEmptyLine (text : Text) (offset : Int) : Bool :=
  (offset == 0 || text.codeUnitAt (offset - 1) == 0x0A) &&
    (offset == text.length || text.codeUnitAt offset == 0x0A)

/-- Where an edit is written in the source, and how its line breaks are spelled. -/
structure CodeSplice where
  /-- The start of the line that the edit starts on. -/
  lineStart : Int
  from_ : Int
  stop : Int
  lead : Text
  newline : Text
  indent : Text
  checked : Bool

section

variable (source : Text) (m : RenderModel) (row : ProjectedRow) (edit : CodeEditProposal)

def codeSplice (body : Text) : CodeSplice :=
  let start := row.sourceForDisplay edit.start
  let stop := row.sourceForDisplay edit.stop
  let line := m.lineAt start
  let lineStart : Int := m.lineStartUtf16 line.toNat
  let contentStart := row.contentStarts.getD (line - row.firstLine).toNat (-1)
  let own := newLinePrefix row contentStart (source.substring lineStart contentStart)
  let newline := lineBreakAt source start
  -- The source of an empty line can lack the prefix that keeps text inside the block, which is
  -- written with the text then.
  if onEmptyLine row.text edit.start then
    match continued source m row.block.toNat with
    | (some continued, checked) =>
      if edit.start < body.length ∧ body.codeUnitAt edit.start ≠ 0x0A then
        ⟨lineStart, lineStart, stop, continued, newline, continued, checked⟩
      else ⟨lineStart, start, stop, [], newline, continued, checked⟩
    | (none, _) => ⟨lineStart, start, stop, [], newline, own, false⟩
  else ⟨lineStart, start, stop, [], newline, own, false⟩

variable (s : CodeSplice)

def CodeSplice.inserted : Text := s.lead ++ codeLines s.newline s.indent edit.text

def CodeSplice.candidate : Text :=
  source.replaceRange s.from_.toNat s.stop.toNat (s.inserted edit)

/-- `position`: the offset of the candidate for one of the new body. -/
def CodeSplice.position (offset : Int) : Int :=
  if offset < edit.start then row.sourceForDisplay offset
  else if offset ≤ edit.start + edit.text.length then
    s.from_ + s.lead.length +
      (codeLines s.newline s.indent (edit.text.substring 0 (offset - edit.start))).length
  else
    row.sourceForDisplay (offset - edit.text.length + edit.stop - edit.start) +
      (s.inserted edit).length - (s.stop - s.from_)

/-- What a composition has erased again: the source it began with, where the candidate has nothing
    more than white space at the end of the prefix of the empty line. -/
def CodeSplice.erased (body : Text) (began : Option Text) : Option (Text × Selection) :=
  began.bind fun began =>
    let candidate := s.candidate source edit
    let cut : Int := candidate.length - began.length
    if edit.text = [] ∧ onEmptyLine body edit.start ∧ 0 < cut ∧ cut ≤ s.from_ - s.lineStart ∧
        (candidate.substring (s.from_ - cut) s.from_).all Text.isSpace ∧
        candidate.replaceRange (s.from_ - cut).toNat s.from_.toNat [] = began then
      some (began, .collapsed (s.from_ - cut))
    else none

end

/-! ## Shifted lines -/

/-- The edits of a line shift: the content of each line that the row shows, replaced. -/
def shiftEdits (row : ProjectedRow) (indices : List Nat) (lines : List Text) : List Edit :=
  (indices.zip lines).map fun (i, line) =>
    ⟨row.contentStarts.getD i (-1), row.contentEnds.getD i (-1), line⟩

/-- `position` of a line shift, over the lines and where the first of them starts. -/
def shiftPosition (row : ProjectedRow) (made : Edits) (offset : Int) :
    (start : Int) → List (Nat × Text) → Option Int
  | _, [] => none
  | start, (i, line) :: lines =>
    if offset ≤ start + line.length then
      some (made.forward (row.contentEnds.getD i (-1)) true - line.length + offset - start)
    else shiftPosition row made offset (start + line.length + 1) lines

/-- The lines of the row that hold a caret. -/
def shownLines (row : ProjectedRow) : List Nat :=
  (List.range row.lineCount).filter fun i => decide (0 ≤ row.contentStarts.getD i (-1))

/-- An explicit shift of lines keeps what is before and behind each. -/
def shift (source : Text) (row : ProjectedRow) (edit : CodeEditProposal) (body : Text) : Outcome :=
  let lines := body.splitOn 0x0A
  let indices := shownLines row
  if lines.length ≠ indices.length then .throws "Code shift changed lines"
  else if h : isDisjoint (shiftEdits row indices lines) = true then
    let made : Edits := ⟨shiftEdits row indices lines, h⟩
    match shiftPosition row made edit.base 0 (indices.zip lines),
      shiftPosition row made edit.extent 0 (indices.zip lines) with
    | some base, some extent => .commits body (made.apply source) ⟨base, extent, none⟩ false false
    | _, _ => .throws "Invalid code shift caret"
  else .throws "overlapping edits"

/-! ## An edit -/

/-- Ordinary typing: the action inserts a keystroke over the selection, as it is. -/
def ordinaryTyping (gs : Graphemes) (row : ProjectedRow) (selection : Selection)
    (edit : CodeEditProposal) (action : CodeEditingAction) (text : Text) : Bool :=
  action == .insert && edit.start == (row.displayForSource selection.start).1 &&
    edit.stop == (row.displayForSource selection.stop).1 && edit.text == text &&
    (text != [0x0A] && (gs.split text).length == 1)

/-- `_applyCodeEdit`. `began` is the source that a composition began with. -/
def applyCodeEdit (gs : Graphemes) (source : Text) (m : RenderModel) (selection : Selection)
    (began : Option Text) (row : ProjectedRow) (edit : CodeEditProposal)
    (action : CodeEditingAction) (text : Text) (typing : Option Bool) : Outcome :=
  if edit.start < 0 ∨ edit.stop < edit.start ∨ (row.text.length : Int) < edit.stop then
    .throws "Invalid code edit range"
  else if edit.text.contains 0x0D then .rejected .invalidSource
  else
    let body := row.text.replaceRange edit.start.toNat edit.stop.toNat edit.text
    if edit.base < 0 ∨ edit.extent < 0 ∨ (body.length : Int) < edit.base ∨
        (body.length : Int) < edit.extent then
      .throws "Invalid code edit selection"
    else if body = row.text then
      -- Nothing to edit: at most the selection is another.
      if action.shifts then .refused
      else .selects ⟨row.sourceForDisplay edit.base, row.sourceForDisplay edit.extent, none⟩
    else if row.bodyless then .createsBody body edit.base edit.extent
    else if action.shifts then shift source row edit body
    else
      let splice := codeSplice source m row edit body
      let (candidate, selected) := (splice.erased source edit body began).getD
        (splice.candidate source edit,
          ⟨splice.position row edit edit.base, splice.position row edit edit.extent, none⟩)
      .commits body candidate selected
        (typing.getD (ordinaryTyping gs row selection edit action text)) splice.checked

/-! ## What is written -/

/-- A source has a text between the fences, as lines: each with the prefix of one that was there,
    and each but the last with a line ending. What is around the lines is kept, and a position of
    the text is where the source has it. -/
structure Written (source : Text) (base : Nat) (old : List (Line UInt16)) (body candidate : Text)
    (position : Int → Int) (new : List (Line UInt16)) : Prop where
  around : candidate = source.take base ++ spell new ++ source.drop (base + (spell old).length)
  shown : shown 0x0A new = body
  indent : ∀ l ∈ new, ∃ l' ∈ old, l'.indent = l.indent
  broken : Broken IsLineBreak new
  plain : ∀ l ∈ new, ∀ u ∈ l.content, u ≠ 0x0A ∧ u ≠ 0x0D
  position : ∀ o : Nat, o ≤ body.length → position o = ((base + offset new o : Nat) : Int)

theorem isLineBreak_lineBreakAt (source : Text) (offset : Int) :
    IsLineBreak (lineBreakAt source offset) := by
  rw [lineBreakAt]
  split
  · split
    · exact Or.inr rfl
    · exact Or.inl rfl
  · exact Or.inl rfl

section

variable {m : RenderModel} {source : Text} {row : ProjectedRow} {base : Nat}
  {content : List ContentView} {lines : List (Line UInt16)}
  (h : CodeRow m source row base content lines)

include h

/-- A line of the row has its caret where its record is. -/
theorem caret_codeRow {i : Nat} {c : ContentView} (hc : content[i]? = some c) :
    row.contentStarts.getD (i + 1) (-1) = c.start ∧ row.contentEnds.getD (i + 1) (-1) = c.stop := by
  obtain ⟨tail, -, hstarts, hends, -⟩ := h.carets
  have hi := (List.getElem?_eq_some_iff.1 hc).1
  rw [hstarts, hends, List.getD_cons_succ, List.getD_cons_succ, List.getD_eq_getElem?_getD,
    List.getD_eq_getElem?_getD, List.getElem?_append_left (by rwa [List.length_map]),
    List.getElem?_append_left (by rwa [List.length_map]), List.getElem?_map, List.getElem?_map, hc]
  exact ⟨rfl, rfl⟩

/-- An edit that starts on a line that holds something takes the prefix of that line. -/
theorem codeSplice_eq {edit : CodeEditProposal} {body : Text} {s e : Nat} (hs : edit.start = s)
    (he : edit.stop = e) (hle : s ≤ e) (hlength : e ≤ row.text.length)
    (hempty : onEmptyLine row.text edit.start = false) :
    ∃ l ∈ lines, ∃ lineStart, codeSplice source m row edit body =
      ⟨lineStart, (base + offset lines s : Nat), (base + offset lines e : Nat), [],
        lineBreakAt source (base + offset lines s : Nat), l.indent, false⟩ := by
  obtain ⟨i, c, l, hc, hl, hstart, hstop⟩ := h.laid.exists_line h.ne_nil
    (show s ≤ (shown 0x0A lines).length by rw [← h.text]; omega)
  obtain ⟨hline, hat⟩ := h.line i c hc
  have hindent := h.indent i c l hc hl
  have hcaret : row.contentStarts.getD (c.line - row.firstLine).toNat (-1) = c.start := by
    rw [hline, show (((row.firstLine + 1 + i : Nat) : Int) - row.firstLine).toNat = i + 1 by omega]
    exact (caret_codeRow h hc).1
  have hown : ∀ piece, newLinePrefix row c.start piece = piece := by
    intro piece
    have hnone : (row.segments.find? fun s => !s.exact && !s.lineBreak && s.sourceStart == c.start) =
        none := by
      refine List.find?_eq_none.2 fun s hs => ?_
      rcases h.exact s hs with hs | hs <;> simp [hs]
    rw [newLinePrefix, hnone]
  refine ⟨l, List.mem_of_getElem? hl, m.lineStartUtf16 c.line.toNat, ?_⟩
  rw [codeSplice, hempty, hs, he, h.source s (by omega), h.source e hlength, hat _ hstart hstop]
  simp only [Bool.false_eq_true, if_false]
  rw [hcaret, hown, hindent]

/-- The source with a stretch that the row shows replaced is the source with other lines. -/
theorem replaceRange_spell {s e : Nat} (hle : s ≤ e) (hlength : e ≤ row.text.length)
    (newline indent text : Text) :
    source.replaceRange (base + offset lines s) (base + offset lines e)
        (codeLines newline indent text) =
      source.take base ++ spell (splice 0x0A newline indent lines s e text) ++
        source.drop (base + (spell lines).length) := by
  rw [h.text] at hlength
  have hbase : (source.take base).length = base := by
    have := h.laid.length_le
    rw [List.length_take]
    omega
  have hs := offset_le_length (0x0A : UInt16) h.ne_nil (hle.trans hlength)
  have he := offset_le_length (0x0A : UInt16) h.ne_nil hlength
  have hright := @Text.replaceRange_append_right (spell lines ++ source.drop (base + (spell lines).length))
    (codeLines newline indent text) (source.take base)
    (offset lines s) (offset lines e)
  rw [hbase, ← List.append_assoc, ← h.laid.source_eq, Text.replaceRange_append_left hs he] at hright
  rw [hright, spell_splice h.ne_nil hle hlength, Text.replaceRange, codeLines]
  simp only [List.append_assoc]

/-- Such a source writes the text with the stretch of it replaced. -/
theorem written_splice {edit : CodeEditProposal} {s e : Nat} (hs : edit.start = s)
    (he : edit.stop = e) (hle : s ≤ e) (hlength : e ≤ row.text.length)
    (hreturn : 0x0D ∉ edit.text) {newline : Text} (hnewline : IsLineBreak newline)
    {l : Line UInt16} (hl : l ∈ lines) (lineStart : Int) (checked : Bool) :
    Written source base lines (row.text.replaceRange s e edit.text)
      (source.replaceRange (base + offset lines s) (base + offset lines e)
        (codeLines newline l.indent edit.text))
      (CodeSplice.position row edit ⟨lineStart, (base + offset lines s : Nat),
        (base + offset lines e : Nat), [], newline, l.indent, checked⟩)
      (splice 0x0A newline l.indent lines s e edit.text) := by
  have hlength' := hlength
  rw [h.text] at hlength'
  have htext : (row.text.replaceRange s e edit.text).length =
      s + edit.text.length + (row.text.length - e) := Text.length_replaceRange (hle.trans hlength)
  refine
    { around := replaceRange_spell h hle hlength _ _ _
      shown := by rw [shown_splice h.ne_nil, ← h.text]; rfl
      indent := fun l' hl' => (mem_splice h.ne_nil hl').1.elim (fun heq => ⟨l, hl, heq.symm⟩) id
      broken := broken_splice h.broken hnewline
      plain := content_splice (fun l' hl' => (h.plain l' hl').2) fun u hu hne =>
        ⟨hne, fun heq => hreturn (heq ▸ hu)⟩
      position := fun o ho => ?_ }
  rw [htext] at ho
  rw [CodeSplice.position, hs, he]
  -- The three regions: before the stretch, in the text put there, and behind it.
  rcases Nat.lt_or_ge o s with hlt | hge
  · rw [if_pos (by omega), h.source o (by omega), offset_splice_before h.ne_nil hle hlength' hlt.le]
  · rw [if_neg (by omega)]
    obtain ⟨k, rfl⟩ := Nat.exists_eq_add_of_le hge
    rcases Nat.lt_or_ge edit.text.length k with hlt | hge'
    · obtain ⟨j, rfl⟩ := Nat.exists_eq_add_of_lt hlt
      have hafter := @offset_splice_after _ _ 0x0A newline l.indent lines s e edit.text
        h.ne_nil hle hlength' (j + 1) (by rw [← h.text]; omega)
      rw [if_neg (by omega), show ((s + (edit.text.length + j + 1) : Nat) : Int) - edit.text.length +
          e - s = ((e + (j + 1) : Nat) : Int) by omega, h.source _ (by omega), CodeSplice.inserted,
        List.nil_append, codeLines, show s + (edit.text.length + j + 1) =
          s + edit.text.length + (j + 1) by omega]
      dsimp only
      omega
    · rw [if_pos (by omega), show ((s + k : Nat) : Int) - s = k by omega,
        offset_splice_within h.ne_nil hle hlength' hge', codeLines, List.length_nil, Text.substring]
      simp only [Int.toNat_zero, List.drop_zero, sub_zero, Int.toNat_natCast]
      push_cast
      omega

/-- The source itself writes the text of the row. -/
theorem written_codeRow : Written source base lines row.text source row.sourceForDisplay lines where
  around := h.laid.source_eq
  shown := h.text.symm
  indent := fun l hl => ⟨l, hl, rfl⟩
  broken := h.broken
  plain := fun l hl => (h.plain l hl).2
  position := h.source

theorem plain_codeRow : 0x0D ∉ row.text := by
  rw [h.text]
  intro hmem
  obtain heq | ⟨l, hl, hu⟩ := mem_shown hmem
  · exact absurd heq (by decide)
  · exact ((h.plain l hl).2 _ hu).2 rfl

/-- What an edit writes that does not start on an empty line. -/
theorem written_codeSplice {edit : CodeEditProposal} {body : Text} {s e : Nat} (hs : edit.start = s)
    (he : edit.stop = e) (hle : s ≤ e) (hlength : e ≤ row.text.length) (hreturn : 0x0D ∉ edit.text)
    (hbody : body = row.text.replaceRange s e edit.text)
    (hempty : onEmptyLine row.text edit.start = false) :
    (∃ new, Written source base lines body
      ((codeSplice source m row edit body).candidate source edit)
      ((codeSplice source m row edit body).position row edit) new) ∧
    (codeSplice source m row edit body).candidate source edit =
      source.take (row.sourceForDisplay edit.start).toNat ++
        (codeSplice source m row edit body).inserted edit ++
        source.drop (row.sourceForDisplay edit.stop).toNat ∧
    (codeSplice source m row edit body).checked = false := by
  obtain ⟨l, hl, lineStart, hsplice⟩ := @codeSplice_eq _ _ _ _ _ _ h edit body _ _ hs he hle hlength hempty
  have hwritten := written_splice h hs he hle hlength hreturn
    (isLineBreak_lineBreakAt source (base + offset lines s : Nat)) hl lineStart false
  rw [← hbody] at hwritten
  rw [hsplice, hs, he, h.source s (hle.trans hlength), h.source e hlength]
  exact ⟨⟨_, hwritten⟩, rfl, rfl⟩

end

/-! ## What a shift writes -/

/-- The edit of a line shift for one line. -/
def lineEdit (c : ContentView) (piece : Text) : Edit := ⟨c.start, c.stop, piece⟩

theorem length_pos_of_isLineBreak {eol : Text} (h : IsLineBreak eol) : 0 < eol.length := by
  rcases h with rfl | rfl <;> decide

section

variable {src : Text} {base : Nat} {content : List ContentView} {lines : List (Line UInt16)}
  {pieces : List Text}

theorem length_laid (h : Laid src base content lines) : content.length = lines.length := by
  induction content generalizing base lines with
  | nil =>
    cases lines with
    | nil => rfl
    | cons l lines => exact h.elim
  | cons c content ih =>
    cases lines with
    | nil => exact h.elim
    | cons l lines => exact congrArg Nat.succ (ih h.2.2)

theorem start_laid (h : Laid src base content lines) : ∀ c ∈ content, 0 ≤ c.start := by
  induction content generalizing base lines with
  | nil => exact fun c hc => absurd hc List.not_mem_nil
  | cons c content ih =>
    cases lines with
    | nil => exact h.elim
    | cons l lines =>
      exact List.forall_mem_cons.2 ⟨h.1.1 ▸ Int.natCast_nonneg _, ih h.2.2⟩

/-- The edits are sorted, each on its own line. -/
theorem fits_laid (h : Laid src base content lines) (pieces : List Text) {copied : Int}
    (hcopied : copied ≤ base) :
    Edits.Fits src.length copied (List.zipWith lineEdit content pieces) := by
  induction content generalizing base lines pieces copied with
  | nil =>
    have hle := h.length_le
    rw [List.zipWith_nil_left, Edits.Fits]
    omega
  | cons c content ih =>
    cases lines with
    | nil => exact h.elim
    | cons l lines =>
      cases pieces with
      | nil =>
        have hle := h.length_le
        rw [List.zipWith_nil_right, Edits.Fits]
        omega
      | cons piece pieces =>
        obtain ⟨⟨hstart, hstop⟩, -, hrest⟩ := h
        rw [List.zipWith_cons_cons, Edits.Fits, lineEdit]
        refine ⟨by dsimp only; omega, by dsimp only; omega, ih hrest pieces ?_⟩
        rw [Line.length_spelled]
        dsimp only
        omega

/-- The edits write the source with other contents in its lines. -/
theorem applyFrom_laid (h : Laid src base content lines) (hlength : pieces.length = lines.length)
    {copied : Nat} (hcopied : copied ≤ base) :
    Edits.applyFrom src copied (List.zipWith lineEdit content pieces) =
      src.substring copied base ++ spell (withContents lines pieces) ++
        src.drop (base + (spell lines).length) := by
  induction content generalizing base lines pieces copied with
  | nil =>
    cases lines with
    | cons l lines => exact h.elim
    | nil =>
      have hbase : base ≤ src.length := h
      have hall : src.substring base src.length = src.drop base := by
        rw [Text.substring, Int.toNat_natCast, List.take_of_length_le]
        rw [List.length_drop]
        omega
      rw [List.zipWith_nil_left, Edits.applyFrom_nil, Text.substring_split hcopied hbase, hall]
      simp [withContents, spell]
  | cons c content ih =>
    cases lines with
    | nil => exact h.elim
    | cons l lines =>
      cases pieces with
      | nil => cases hlength
      | cons piece pieces =>
        obtain ⟨⟨hstart, hstop⟩, ⟨hindent, -, heol⟩, hrest⟩ := h
        have hspelled := l.length_spelled
        have hnew : ({ l with content := piece } : Line UInt16).spelled = l.indent ++ piece ++ l.eol :=
          rfl
        rw [hstart] at hindent
        rw [hstop] at heol
        rw [List.zipWith_cons_cons, Edits.applyFrom_cons, lineEdit]
        dsimp only
        -- What is copied before the line's content is its indent, and behind it its ending.
        rw [hstart, hstop, Text.substring_split hcopied (Nat.le_add_right base _), hindent,
          ih hrest (Nat.succ.inj hlength) (by omega), heol, withContents_cons, spell_cons, spell_cons,
          List.length_append, ← Nat.add_assoc, hnew]
        simp only [List.append_assoc]

/-- The end of a line's content is behind what replaces it. -/
theorem forwardFrom_laid {c : ContentView} {l : Line UInt16}
    (h : Laid src base (c :: content) (l :: lines)) (hbroken : Broken IsLineBreak (l :: lines))
    (piece : Text) (shift : Int) :
    Edits.forwardFrom c.stop true shift (List.zipWith lineEdit (c :: content) (piece :: pieces)) =
      c.start + shift + piece.length := by
  obtain ⟨⟨hstart, hstop⟩, -, hrest⟩ := h
  rw [List.zipWith_cons_cons, Edits.forwardFrom_caret, if_neg (by rw [lineEdit]; dsimp only; omega),
    if_neg (by rw [lineEdit]; exact lt_irrefl _)]
  have hend : Edits.forwardFrom c.stop true (shift + (lineEdit c piece).growth)
      (List.zipWith lineEdit content pieces) = c.stop + (shift + (lineEdit c piece).growth) := by
    cases content with
    | nil => rfl
    | cons c' content =>
      cases pieces with
      | nil => rfl
      | cons piece' pieces =>
        cases lines with
        | nil => exact hrest.elim
        | cons l' lines =>
          -- The next line starts behind the break.
          have hlt := length_pos_of_isLineBreak hbroken.1
          have hnext := hrest.1.1
          rw [Line.length_spelled] at hnext
          rw [List.zipWith_cons_cons, Edits.forwardFrom_caret, if_pos]
          rw [lineEdit]
          dsimp only
          omega
  rw [hend, Edit.growth, lineEdit]
  dsimp only
  omega

/-- A position of the shifted text is where its line has it. -/
theorem shiftPosition_laid {row : ProjectedRow} {made : Edits} (h : Laid src base content lines)
    (hbroken : Broken IsLineBreak lines) (hne : lines ≠ []) (hlength : pieces.length = lines.length)
    {shift : Int} (hmade : ∀ o : Int, base ≤ o →
      made.forward o true = Edits.forwardFrom o true shift (List.zipWith lineEdit content pieces))
    {line : Nat} (hcaret : ∀ i c, content[i]? = some c → row.contentEnds.getD (line + i) (-1) = c.stop)
    (first : Nat) {o : Nat} (ho : o ≤ (shown 0x0A (withContents lines pieces)).length) :
    shiftPosition row made (first + o : Nat) first ((List.range' line content.length).zip pieces) =
      some ((base + offset (withContents lines pieces) o : Nat) + shift) := by
  -- By induction on the lines: a position in the content of the first is in front of its end, and
  -- one past it is looked for in the others, with the growth of the first added to the shift.
  induction content generalizing base lines pieces shift line first o with
  | nil =>
    cases lines with
    | nil => exact absurd rfl hne
    | cons l lines => exact h.elim
  | cons c content ih =>
    cases lines with
    | nil => exact h.elim
    | cons l lines =>
      cases pieces with
      | nil => cases hlength
      | cons piece pieces =>
        have hend := @forwardFrom_laid _ _ _ _ pieces _ _ h hbroken piece shift
        obtain ⟨⟨hstart, hstop⟩, -, hrest⟩ := h
        have hstops : row.contentEnds.getD line (-1) = c.stop := hcaret 0 c rfl
        rw [withContents_cons] at ho ⊢
        rw [List.length_cons, List.range'_succ, List.zip_cons_cons, shiftPosition, offset, hstops,
          hmade c.stop (by omega), hend]
        dsimp only
        split_ifs with hpos hcontent hcontent
        · refine congrArg some ?_
          push_cast
          omega
        · omega
        · omega
        · cases lines with
          | nil =>
            rw [List.length_eq_zero_iff.1 (Nat.succ.inj hlength)] at ho
            exact absurd ho hcontent
          | cons l' lines =>
            cases pieces with
            | nil => cases hlength
            | cons piece' pieces =>
              have hspelled := l.length_spelled
              have hnew := Line.length_spelled { l with content := piece }
              dsimp only at hnew
              have hshown : o - piece.length - 1 ≤
                  (shown 0x0A (withContents (l' :: lines) (piece' :: pieces))).length := by
                have hcons : shown 0x0A ({ l with content := piece } ::
                    withContents (l' :: lines) (piece' :: pieces)) = piece ++ 0x0A ::
                      shown 0x0A (withContents (l' :: lines) (piece' :: pieces)) := rfl
                rw [hcons, List.length_append, List.length_cons] at ho
                omega
              have hrec := @ih _ _ _ hrest hbroken.2 (List.cons_ne_nil _ _) (Nat.succ.inj hlength)
                (shift + (lineEdit c piece).growth) (fun o ho => by
                  rw [hmade o (by omega), List.zipWith_cons_cons, Edits.forwardFrom_caret,
                    if_neg (by rw [lineEdit]; dsimp only; omega),
                    if_neg (by rw [lineEdit]; dsimp only; omega)])
                (line + 1) (fun i c' hc' => by
                  rw [← hcaret (i + 1) c' hc']
                  congr 1
                  omega)
                (first + piece.length + 1) _ hshown
              rw [show first + piece.length + 1 + (o - piece.length - 1) = first + o by omega] at hrec
              rw [show ((first : Int) + piece.length + 1) = ((first + piece.length + 1 : Nat) : Int) by
                push_cast; rfl, hrec, Edit.growth, lineEdit, hnew]
              dsimp only
              refine congrArg some ?_
              push_cast
              omega

end

section

variable {m : RenderModel} {source : Text} {row : ProjectedRow} {base : Nat}
  {content : List ContentView} {lines : List (Line UInt16)}
  (h : CodeRow m source row base content lines)

include h

/-- The lines of the row that hold a caret are those between the fences. -/
theorem shownLines_codeRow : shownLines row = List.range' 1 content.length := by
  obtain ⟨tail, htail, hstarts, -, hcount⟩ := h.carets
  have hrange : List.range row.lineCount = [0] ++ (List.range' 1 content.length ++
      List.range' (1 + content.length) tail.length) := by
    rw [hcount, List.range_eq_range', Nat.add_comm _ 1, ← List.range'_append_1,
      ← List.range'_append_1]
    rfl
  have hfence : [0].filter (fun i => decide (0 ≤ row.contentStarts.getD i (-1))) = [] := by
    rw [List.filter_eq_nil_iff, hstarts]
    refine List.forall_mem_singleton.2 fun h => ?_
    rw [decide_eq_true_eq, List.getD_cons_zero] at h
    exact absurd h (by decide)
  have hbody : (List.range' 1 content.length).filter
      (fun i => decide (0 ≤ row.contentStarts.getD i (-1))) = List.range' 1 content.length := by
    refine List.filter_eq_self.2 fun i hi => ?_
    obtain ⟨k, hk, rfl⟩ := List.mem_range'.1 hi
    rw [decide_eq_true_eq, Nat.one_mul, Nat.add_comm,
      (caret_codeRow h (List.getElem?_eq_getElem hk)).1]
    exact start_laid h.laid _ (List.getElem_mem hk)
  have hend : (List.range' (1 + content.length) tail.length).filter
      (fun i => decide (0 ≤ row.contentStarts.getD i (-1))) = [] := by
    refine List.filter_eq_nil_iff.2 fun i hi => ?_
    obtain ⟨k, hk, rfl⟩ := List.mem_range'.1 hi
    have hat : row.contentStarts.getD (1 + content.length + 1 * k) (-1) = tail[k] := by
      rw [hstarts, show 1 + content.length + 1 * k = (content.map ContentView.start).length + k + 1 by
        rw [List.length_map]; omega, List.getD_cons_succ, List.getD_eq_getElem?_getD,
        List.getElem?_append_right (Nat.le_add_right _ _), Nat.add_sub_cancel_left,
        List.getElem?_eq_getElem hk, Option.getD_some]
    rw [decide_eq_true_eq, hat]
    exact not_le.2 (htail _ (List.getElem_mem hk))
  rw [shownLines, hrange, List.filter_append, List.filter_append, hfence, hbody, hend,
    List.append_nil, List.nil_append]

theorem shiftEdits_codeRow (pieces : List Text) :
    shiftEdits row (List.range' 1 content.length) pieces = List.zipWith lineEdit content pieces := by
  refine List.ext_getElem ?_ fun i hi hi' => ?_
  · rw [shiftEdits, List.length_map, List.length_zip, List.length_range', List.length_zipWith]
  · rw [List.length_zipWith] at hi'
    have hi : i < content.length := by omega
    have hc : content[i]? = some content[i] := List.getElem?_eq_getElem hi
    obtain ⟨hstart, hstop⟩ := caret_codeRow h hc
    simp only [shiftEdits, List.getElem_map, List.getElem_zip, List.getElem_range', Nat.one_mul,
      List.getElem_zipWith]
    rw [Nat.add_comm, hstart, hstop, lineEdit]

/-- A shift of lines writes the text in the lines there were. -/
theorem written_shift {body : Text} (hreturn : 0x0D ∉ body)
    (hcount : (body.splitOn 0x0A).length = lines.length) {edit : CodeEditProposal}
    (hbase : 0 ≤ edit.base ∧ edit.base ≤ body.length)
    (hextent : 0 ≤ edit.extent ∧ edit.extent ≤ body.length) :
    ∃ (made : Edits) (position : Int → Int),
      made.list = shiftEdits row (shownLines row) (body.splitOn 0x0A) ∧
      (∀ o : Nat, o ≤ body.length →
        shiftPosition row made o 0 ((shownLines row).zip (body.splitOn 0x0A)) = some (position o)) ∧
      Written source base lines body (made.apply source) position
        (withContents lines (body.splitOn 0x0A)) ∧
      shift source row edit body = .commits body (made.apply source)
        ⟨position edit.base, position edit.extent, none⟩ false false := by
  have hlength := length_laid h.laid
  have hshown := shownLines_codeRow h
  have hedits := shiftEdits_codeRow h (body.splitOn 0x0A)
  rw [← hshown] at hedits
  have hdisjoint : isDisjoint (shiftEdits row (shownLines row) (body.splitOn 0x0A)) = true := by
    rw [hedits]
    exact (fits_laid h.laid _ (Int.natCast_nonneg base)).disjoint
  have hbody : shown 0x0A (withContents lines (body.splitOn 0x0A)) = body := by
    rw [shown_withContents _ hcount, List.intercalate_splitOn]
  -- One edit a line, from the end of its indent to the end of its content.
  set made : Edits := ⟨shiftEdits row (shownLines row) (body.splitOn 0x0A), hdisjoint⟩
  have hlist : made.list = List.zipWith lineEdit content (body.splitOn 0x0A) := hedits
  have hposition : ∀ o : Nat, o ≤ body.length →
      shiftPosition row made o 0 ((shownLines row).zip (body.splitOn 0x0A)) =
        some ((base + offset (withContents lines (body.splitOn 0x0A)) o : Nat) : Int) := by
    intro o ho
    have hat := @shiftPosition_laid _ _ _ _ _ row made h.laid h.broken h.ne_nil hcount
      0 (fun o _ => by rw [Edits.forward, hlist]) 1 (fun i c hc => by
        rw [Nat.add_comm]
        exact (caret_codeRow h hc).2) 0 o (by rwa [hbody])
    rwa [Nat.zero_add, ← hshown, Int.add_zero] at hat
  obtain ⟨b, hb⟩ := Int.eq_ofNat_of_zero_le hbase.1
  obtain ⟨x, hx⟩ := Int.eq_ofNat_of_zero_le hextent.1
  refine ⟨made, fun o =>
    ((base + offset (withContents lines (body.splitOn 0x0A)) o.toNat : Nat) : Int), rfl, hposition,
    ?_, ?_⟩
  · refine
      { around := ?_
        shown := hbody
        indent := fun l hl => (mem_withContents hl).1
        broken := broken_withContents h.broken hcount
        plain := fun l hl u hu => ?_
        position := fun o _ => rfl }
    · rw [Edits.apply, hlist, show (0 : Int) = ((0 : Nat) : Int) from rfl,
        applyFrom_laid h.laid hcount (Nat.zero_le base), Text.substring]
      rfl
    · obtain ⟨hmem, hne⟩ := mem_splitOn (mem_withContents hl).2 u hu
      exact ⟨hne, fun heq => hreturn (heq ▸ hmem)⟩
  · simp only [shift]
    rw [if_neg (by rw [hshown, List.length_range', hlength]; exact not_not.2 hcount), dif_pos hdisjoint,
      hb, hx, hposition b (by omega), hposition x (by omega)]
    rfl

end

/-! ## An edit of a row -/

/-- What an edit in range of a row with a body comes to. -/
theorem applyCodeEdit_eq {gs : Graphemes} {source : Text} {m : RenderModel} {selection : Selection}
    {began : Option Text} {row : ProjectedRow} {edit : CodeEditProposal} {action : CodeEditingAction}
    {text body : Text} {typing : Option Bool} (hbodyless : row.bodyless = false)
    (hstart : 0 ≤ edit.start) (hle : edit.start ≤ edit.stop) (hstop : edit.stop ≤ row.text.length)
    (hreturn : 0x0D ∉ edit.text)
    (hbody : body = row.text.replaceRange edit.start.toNat edit.stop.toNat edit.text)
    (hbase : 0 ≤ edit.base ∧ edit.base ≤ body.length)
    (hextent : 0 ≤ edit.extent ∧ edit.extent ≤ body.length) :
    applyCodeEdit gs source m selection began row edit action text typing =
      if body = row.text then
        if action.shifts then .refused
        else .selects ⟨row.sourceForDisplay edit.base, row.sourceForDisplay edit.extent, none⟩
      else if action.shifts then shift source row edit body
      else
        let splice := codeSplice source m row edit body
        let written := (splice.erased source edit body began).getD
          (splice.candidate source edit,
            ⟨splice.position row edit edit.base, splice.position row edit edit.extent, none⟩)
        .commits body written.1 written.2
          (typing.getD (ordinaryTyping gs row selection edit action text)) splice.checked := by
  subst hbody
  rw [applyCodeEdit, if_neg (by omega), if_neg (by rwa [List.contains_iff_mem])]
  dsimp only
  rw [if_neg (by omega), hbodyless, if_neg Bool.false_ne_true]

/-- A composition's edit is erased to the source that it began with. -/
theorem erased_eq {s : CodeSplice} {source body c : Text} {edit : CodeEditProposal}
    {began : Option Text} {selected : Selection}
    (h : s.erased source edit body began = some (c, selected)) :
    began = some c ∧ edit.text = [] ∧ onEmptyLine body edit.start = true ∧
      ∃ cut : Int, 0 < cut ∧ cut ≤ s.from_ - s.lineStart ∧
        ((s.candidate source edit).substring (s.from_ - cut) s.from_).all Text.isSpace = true ∧
        c = (s.candidate source edit).replaceRange (s.from_ - cut).toNat s.from_.toNat [] ∧
        selected = .collapsed (s.from_ - cut) := by
  obtain ⟨began, rfl, hsome⟩ := Option.bind_eq_some_iff.1 h
  dsimp only at hsome
  split at hsome
  · next hcut =>
    obtain ⟨htext, hempty, hpos, hle, hspace, heq⟩ := hcut
    cases hsome
    exact ⟨rfl, htext, hempty, _, hpos, hle, hspace, heq.symm, rfl⟩
  · cases hsome

/-- An edit of a row of fenced code, the lines of which show no columns of a tab, writes the
    proposed text between the fences, keeps what is around the stretch that it replaces, and maps
    the selection to where the text is written. What a composition erases again on an empty line
    is the source that it began with. -/
theorem applyCodeEdit_spec {gs : Graphemes} {p : Projection} (hp : Built gs p)
    (hm : p.model.SchemaConforms p.source) (hsrc : validateFlarkSource p.source = true)
    (hbodies : ∀ b < p.model.blockCount, p.model.blockFenced b = true →
      p.model.BodyConforms p.source b)
    {row : ProjectedRow} (hrow : row ∈ p.rows) (hfenced : row.fenced = true)
    (hbodyless : row.bodyless = false)
    (hexact : ∀ s ∈ row.segments, s.exact = true ∨ s.lineBreak = true)
    {edit : CodeEditProposal} {body : Text} (hstart : 0 ≤ edit.start) (hle : edit.start ≤ edit.stop)
    (hstop : edit.stop ≤ row.text.length) (hreturn : 0x0D ∉ edit.text)
    (hbody : body = row.text.replaceRange edit.start.toNat edit.stop.toNat edit.text)
    (hbase : 0 ≤ edit.base ∧ edit.base ≤ body.length)
    (hextent : 0 ≤ edit.extent ∧ edit.extent ≤ body.length) (selection : Selection)
    (began : Option Text) (action : CodeEditingAction) (text : Text) (typing : Option Bool) :
    let base := lineBound p.source (row.firstLine + 1)
    let old := (p.model.contentOf row.block.toNat).map (codeLine p.source)
    let outcome := applyCodeEdit gs p.source p.model selection began row edit action text typing
    let splice := codeSplice p.source p.model row edit body
    (Written p.source base old row.text p.source row.sourceForDisplay old) ∧
    (action.shifts = false → body = row.text → outcome =
      .selects ⟨row.sourceForDisplay edit.base, row.sourceForDisplay edit.extent, none⟩) ∧
    (action.shifts = false → body ≠ row.text → onEmptyLine row.text edit.start = false →
      (∃ new, Written p.source base old body (splice.candidate p.source edit)
        (splice.position row edit) new) ∧
      splice.candidate p.source edit = p.source.take (row.sourceForDisplay edit.start).toNat ++
        splice.inserted edit ++ p.source.drop (row.sourceForDisplay edit.stop).toNat ∧
      ∃ typed, (splice.erased p.source edit body began = none →
          outcome = .commits body (splice.candidate p.source edit)
            ⟨splice.position row edit edit.base, splice.position row edit edit.extent, none⟩
            typed false) ∧
        ∀ c selected, splice.erased p.source edit body began = some (c, selected) →
          began = some c ∧ edit.text = [] ∧ onEmptyLine body edit.start = true ∧
          (∃ cut : Int, 0 < cut ∧ cut ≤ splice.from_ - splice.lineStart ∧
            ((splice.candidate p.source edit).substring (splice.from_ - cut) splice.from_).all
              Text.isSpace = true ∧
            c = (splice.candidate p.source edit).replaceRange (splice.from_ - cut).toNat
              splice.from_.toNat [] ∧
            selected = .collapsed (splice.from_ - cut)) ∧
          outcome = .commits body c selected typed false) ∧
    (action.shifts = true → body ≠ row.text →
      ((body.splitOn 0x0A).length ≠ old.length → outcome = .throws "Code shift changed lines") ∧
      ((body.splitOn 0x0A).length = old.length → ∃ (new : List (Line UInt16)) (made : Edits)
        (position : Int → Int),
        made.list = shiftEdits row (shownLines row) (body.splitOn 0x0A) ∧
        (∀ o : Nat, o ≤ body.length →
          shiftPosition row made o 0 ((shownLines row).zip (body.splitOn 0x0A)) =
            some (position o)) ∧
        Written p.source base old body (made.apply p.source) position new ∧
        new.map Line.indent = old.map Line.indent ∧ new.map Line.eol = old.map Line.eol ∧
        outcome = .commits body (made.apply p.source)
          ⟨position edit.base, position edit.extent, none⟩ false false)) := by
  -- The row is laid on the lines of its block. An edit that does not shift is a splice of these
  -- lines, with what a composition erases apart; one that shifts writes each line anew.
  have hcode := hp.codeRow hm (noBareReturn_of_validate hsrc) hbodies hrow hfenced hbodyless hexact
  obtain ⟨s, hs⟩ := Int.eq_ofNat_of_zero_le hstart
  obtain ⟨e, he⟩ := Int.eq_ofNat_of_zero_le (hstart.trans hle)
  have hse : s ≤ e := by omega
  have hlength : e ≤ row.text.length := by omega
  dsimp only
  rw [applyCodeEdit_eq hbodyless hstart hle hstop hreturn hbody hbase hextent]
  rw [hs, he, Int.toNat_natCast, Int.toNat_natCast] at hbody
  refine ⟨written_codeRow hcode, fun hshifts hsame => ?_, fun hshifts hne hempty => ?_,
    fun hshifts hne => ⟨fun hcount => ?_, fun hcount => ?_⟩⟩
  · rw [if_pos hsame, hshifts, if_neg Bool.false_ne_true]
  · obtain ⟨hwritten, hcandidate, hchecked⟩ :=
      written_codeSplice hcode hs he hse hlength hreturn hbody hempty
    refine ⟨hwritten, hcandidate, typing.getD (ordinaryTyping gs row selection edit action text),
      fun hnone => ?_, fun c selected hsome => ?_⟩
    · rw [if_neg hne, hshifts, if_neg Bool.false_ne_true]
      dsimp only
      rw [hnone, hchecked, Option.getD_none]
    · obtain ⟨hbegan, htext, hline, hcut⟩ := erased_eq hsome
      refine ⟨hbegan, htext, hline, hcut, ?_⟩
      rw [if_neg hne, hshifts, if_neg Bool.false_ne_true]
      dsimp only
      rw [hsome, hchecked, Option.getD_some]
  · rw [if_neg hne, hshifts, if_pos rfl]
    simp only [shift]
    rw [if_pos (by rwa [shownLines_codeRow hcode, List.length_range', length_laid hcode.laid])]
  · have hreturn' : 0x0D ∉ body := by
      rw [hbody, Text.replaceRange, List.mem_append, List.mem_append]
      rintro ((h | h) | h)
      · exact plain_codeRow hcode (List.mem_of_mem_take h)
      · exact hreturn h
      · exact plain_codeRow hcode (List.mem_of_mem_drop h)
    obtain ⟨made, position, hlist, hposition, hwritten, hshift⟩ :=
      written_shift hcode hreturn' hcount hbase hextent
    obtain ⟨hindent, heol⟩ := around_withContents hcount
    refine ⟨_, made, position, hlist, hposition, hwritten, hindent, heol, ?_⟩
    rw [if_neg hne, hshifts, if_pos rfl, hshift]

/-- A projection of the fenced block in a quote. -/
def quoted : Projection :=
  Projection.of .units CodeFence.quotedFence (Text.ofString "> ```\n> a\n> ```` \nx") {} none

theorem quoted_schemaConforms : quoted.model.SchemaConforms quoted.source where
  toConforms := ⟨⟨by decide, by decide⟩, by decide⟩
  parent := by decide
  blockStart := by decide
  contentLine := by decide
  lineOrder := by decide
  afterDefinitions := by decide
  runOrder := by decide
  runRange := by decide

theorem quoted_bodyConforms : ∀ b < quoted.model.blockCount, quoted.model.blockFenced b = true →
    quoted.model.BodyConforms quoted.source b := by
  intro b hb hfenced
  have honly : ∀ b < quoted.model.blockCount, quoted.model.blockFenced b = true → b = 2 := by
    decide
  have hcontent : quoted.model.contentOf 2 = [⟨1, 8, 9, 6, 0⟩] := by decide +kernel
  rw [honly b hb hfenced]
  refine ⟨by decide +kernel, fun i c hc => ?_, by decide +kernel⟩
  rw [hcontent] at hc
  cases i with
  | zero =>
    cases hc
    decide +kernel
  | succ i => cases hc

/-- Two lines in place of a letter: each has the quote's marker. -/
theorem applyCodeEdit_spec_quoted : ∃ row ∈ quoted.rows, ∃ position new,
    Written quoted.source 6 [⟨Text.ofString "> ", Text.ofString "a", [0x0A]⟩] (Text.ofString "b\nc")
      (Text.ofString "> ```\n> b\n> c\n> ```` \nx") position new ∧
    ∃ typed, applyCodeEdit .units quoted.source quoted.model (.collapsed 8) none row
      ⟨0, 1, Text.ofString "b\nc", 3, 3⟩ .insert [] none = .commits (Text.ofString "b\nc")
        (Text.ofString "> ```\n> b\n> c\n> ```` \nx") ⟨position 3, position 3, none⟩ typed false := by
  have hbuilt : Built .units quoted := Built.anew quoted_schemaConforms.toConforms {}
  obtain ⟨row, hrow, hfenced, hbodyless, hexact, htext, hlines, hempty, hcandidate⟩ :
      ∃ row ∈ quoted.rows, row.fenced = true ∧ row.bodyless = false ∧
        (∀ s ∈ row.segments, s.exact = true ∨ s.lineBreak = true) ∧ row.text = Text.ofString "a" ∧
        (lineBound quoted.source (row.firstLine + 1) = 6 ∧
          (quoted.model.contentOf row.block.toNat).map (codeLine quoted.source) =
            [⟨Text.ofString "> ", Text.ofString "a", [0x0A]⟩]) ∧
        onEmptyLine row.text 0 = false ∧
        (codeSplice quoted.source quoted.model row ⟨0, 1, Text.ofString "b\nc", 3, 3⟩
            (Text.ofString "b\nc")).candidate quoted.source ⟨0, 1, Text.ofString "b\nc", 3, 3⟩ =
          Text.ofString "> ```\n> b\n> c\n> ```` \nx" := by
    decide +kernel
  obtain ⟨-, -, hsplice, -⟩ := @applyCodeEdit_spec _ _ hbuilt quoted_schemaConforms
    (by decide +kernel) quoted_bodyConforms _ hrow hfenced hbodyless hexact
    ⟨0, 1, Text.ofString "b\nc", 3, 3⟩ (Text.ofString "b\nc") (by decide) (by decide)
    (by rw [htext]; decide) (by decide) (by rw [htext]; decide) (by decide) (by decide)
    (.collapsed 8) none .insert [] none
  obtain ⟨⟨new, hwritten⟩, -, typed, hcommits, -⟩ := hsplice rfl (by rw [htext]; decide) hempty
  rw [hlines.1, hlines.2, hcandidate] at hwritten
  rw [hcandidate] at hcommits
  exact ⟨row, hrow, _, new, hwritten, typed, hcommits rfl⟩

/-- A model of a fenced block of one line in a list item. -/
def fencedItem : RenderModel where
  bytes := []
  words :=
    [0x354B4C46, 5, 15, 15, 3, 4, 1, 0, 0, 0, 5, 0] ++ [0, 6, 10] ++
    [0, 0xFFFFFFFF, 0, 15, 0, 3, 0, 0, 0, 0xFFFFFFFF] ++
    [6, 0, 0, 15, 0, 3, 0, 0, 0, 0xFFFFFFFF] ++
    [7, 1, 0, 15, 0, 3, 0, 0, 0, 0] ++
    [0x303, 2, 2, 15, 0, 3, 0, 0, 3, 3] ++
    [8, 9, 6, 1] ++ [2, 0, 0, 5, 5]

/-- A composition on a line that lacked the prefix of the item, erased again: the source from 6 to 8
    goes as well, though the letter is from 8 to 9. -/
theorem applyCodeEdit_erases :
    let p := Projection.of .units fencedItem (Text.ofString "- ```\n  x\n  ```") {} none
    validateFlarkSource p.source = true ∧ ∃ row ∈ p.rows, row.fenced = true ∧ row.bodyless = false ∧
      (∀ s ∈ row.segments, s.exact = true ∨ s.lineBreak = true) ∧
      row.text = Text.ofString "x" ∧ onEmptyLine row.text 0 = false ∧
      row.sourceForDisplay 0 = 8 ∧ row.sourceForDisplay 1 = 9 ∧
      applyCodeEdit .units p.source p.model (.collapsed 9) (some (Text.ofString "- ```\n\n  ```")) row
        ⟨0, 1, [], 0, 0⟩ .insert [] (some true) =
          .commits [] (Text.ofString "- ```\n\n  ```") (.collapsed 6) true false ∧
      (Text.ofString "- ```\n\n  ```").take 8 ≠ p.source.take 8 := by
  decide +kernel

end CodeEditing

end Flark
