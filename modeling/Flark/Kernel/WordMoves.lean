import Flark.Kernel.Closest
import Flark.Kernel.InlineEdges
import Flark.Kernel.SourceMode

/-!
# Words

Movements and deletions by a word from a caret that has text of its row ahead (`_move` and
`_delete` of `kernel/editor.dart`), in source mode and in a live row. In a live row the edge of
the word is a display offset: a movement goes to its anchor, and a deletion takes the source from
the caret's place to it, unless that would strand the hidden syntax of a span.

* `Document.wordDeletion`: what a deletion by a word asks for;
* `Document.RefusesWord`: the ranges that a deletion by a word refuses;
* `Document.EdgeFallsBack`: where the closest caret to the edge of the word is not past the caret;
* `word_progress`: movements and deletions by a word, in both modes.
-/

namespace Flark

namespace Document

/-! ## Deletions -/

section

variable (gs : Graphemes) (d : Document)

/-- `autolinkAround`. -/
def autolinkAround (start stop : Int) : Option Owner :=
  let (first, last) := d.runsNear gs start
  ((List.range' first (last - first)).find? fun r =>
    d.model.runKind r == RunKind.autolink && decide ((d.model.runStart r : Int) ≤ start) &&
      decide (stop ≤ d.model.runEnd r)).map d.model.owner

/-- What the loop of `_coverOwners` makes of the range at an owner: one that has all its text, and
    neither exactly that nor all of the owner, takes in the owner. -/
def coverOwner (range : Int × Int) (o : Owner) : Int × Int :=
  let covers := range.1 ≤ o.contentStart ∧ o.contentEnd ≤ range.2
  let content := range.1 = o.contentStart ∧ range.2 = o.contentEnd
  let whole := range.1 ≤ o.start ∧ o.stop ≤ range.2
  if covers ∧ ¬content ∧ ¬whole then (min range.1 o.start, max range.2 o.stop) else range

/-- The loop of `_coverOwners`. A turn that goes on has taken in the start or the end of one more
    run. -/
def coverTurns : (fuel : Nat) → (range : Int × Int) → Int × Int
  | 0, range => range
  | fuel + 1, range =>
    let owners := d.ownersAt gs range.1 ++ d.ownersAt gs range.2 ++
      (d.autolinkAround gs range.1 range.1).toList ++ (d.autolinkAround gs range.2 range.2).toList
    let next := owners.foldl coverOwner range
    if next = range then range else coverTurns fuel next

/-- `_coverOwners`. -/
def coverOwners (range : Int × Int) : Int × Int :=
  if range.1 = range.2 then range else d.coverTurns gs (2 * d.model.runCount + 1) range

/-- `_supportedRange`: a range of one row that no owner has partly. -/
def supportedRange (start stop : Int) : Bool :=
  start == stop || (d.displayOf gs start).row == (d.displayOf gs stop).row &&
    (d.ownersAt gs start ++ d.ownersAt gs stop).all fun o =>
      decide (o.contentStart ≤ start ∧ stop ≤ o.contentEnd) ||
        (decide (start ≤ o.start ∧ o.stop ≤ stop) ||
          decide (start = o.contentStart ∧ stop = o.contentEnd))

/-- `hardBreaksOf`: the ranges of the hard breaks of a row. -/
def hardBreaksOf (row : ProjectedRow) : List (Int × Int) :=
  let (first, last) := d.runsOfRow row
  ((List.range' first (last - first)).filter fun r => d.model.runKind r == RunKind.hardBreak).map
    fun r => ((d.model.runStart r : Int), (d.model.runEnd r : Int))

/-- Where a range that joins two lines starts: a hard break goes with its whole marker. -/
def joinStart (row : ProjectedRow) (start stop : Int) : Int :=
  ((d.hardBreaksOf row).find? fun r => decide (r.1 ≤ start ∧ start ≤ r.2 ∧ r.2 ≤ stop)).elim start
    Prod.fst

/-- What a deletion by a word at a caret asks for. -/
inductive WordDeletion
  /-- The caret has no text of its row ahead, so that no word goes. -/
  | edge
  | refused
  /-- A cut of a delimiter line that is shown as its source. -/
  | cuts (start stop : Int)
  /-- A line ending goes, and two lines become one. -/
  | joins (start stop : Int)
  | deletes (start stop : Int)
  deriving DecidableEq

/-- The word at a display offset, from its start to its end. -/
def wordRange (row : ProjectedRow) (offset : Int) (backward : Bool) : Int × Int :=
  if backward then (row.text.wordStart offset, offset) else (offset, row.text.wordEnd offset)

/-- Whether a caret has no text of its row ahead. -/
def atRowEdge (row : ProjectedRow) (offset : Int) (backward : Bool) : Bool :=
  if backward then offset == 0 else decide ((row.text.length : Int) ≤ offset)

/-- `_deleteInDelimiterRow` by a word. -/
def deleteInDelimiterRow (row : ProjectedRow) (backward : Bool) : WordDeletion :=
  let offset := (row.displayForSource d.selection.extent).1
  let word := wordRange row offset backward
  let start := row.sourceForDisplay word.1
  let stop := row.sourceForDisplay word.2
  if atRowEdge row offset backward || decide (stop ≤ start) then .refused else .cuts start stop

/-- `_delete` by a word, where the selection is a caret; `none` is the throw of a document without
    rows. -/
def wordDeletion (backward : Bool) : Option WordDeletion :=
  let pos := d.displayOf gs d.selection.extent
  (d.projection.rows[pos.row]?).map fun row =>
    if atRowEdge row pos.offset backward then .edge
    else if row.delimiterSource then d.deleteInDelimiterRow row backward
    else
      let word := wordRange row pos.offset backward
      let (start, stop) := d.coverOwners gs
        (row.sourceForDisplay word.1 .after, row.sourceForDisplay word.2 .before)
      if !d.supportedRange gs start stop || decide (stop ≤ start) then .refused
      else
        -- Any line ending joins two lines, but for one inside inline code.
        let join := (adjacentAtomicSegment row pos.offset (!backward)).any fun s =>
          s.lineBreak && decide (s.run < 0)
        if join && !row.fenced then .joins (d.joinStart row start stop) stop
        else .deletes start stop

/-- A range of the source that is not empty and reaches from the near end of the word at a display
    offset to the far one, the far one taken from a side. -/
def ReachesWord (row : ProjectedRow) (offset : Int) (backward : Bool) (side : Anchor)
    (start stop : Int) : Prop :=
  start < stop ∧ start ≤ row.sourceForDisplay (wordRange row offset backward).1 .after ∧
    row.sourceForDisplay (wordRange row offset backward).2 side ≤ stop

/-- What a deletion takes reaches over the word. -/
def TakesWord (row : ProjectedRow) (offset : Int) (backward : Bool) : WordDeletion → Prop
  | .edge | .refused => False
  | .cuts start stop =>
    ReachesWord row (row.displayForSource d.selection.extent).1 backward .after start stop
  | .joins start stop | .deletes start stop => ReachesWord row offset backward .before start stop

/-- A deletion by a word is not one that the editor makes. On a delimiter line there is no text of
    the line ahead, or the word is of no source. Elsewhere the range of the word, extended to the
    owners that it has all the text of, lies in several rows, has a part of an owner, or is
    empty. -/
def RefusesWord (row : ProjectedRow) (offset : Int) (backward : Bool) : Prop :=
  if row.delimiterSource then
    let offset := (row.displayForSource d.selection.extent).1
    let word := wordRange row offset backward
    atRowEdge row offset backward = true ∨ row.sourceForDisplay word.2 ≤ row.sourceForDisplay word.1
  else
    let word := wordRange row offset backward
    let range := d.coverOwners gs
      (row.sourceForDisplay word.1 .after, row.sourceForDisplay word.2 .before)
    d.supportedRange gs range.1 range.2 = false ∨ range.2 ≤ range.1

instance (row : ProjectedRow) (offset : Int) (backward : Bool) :
    Decidable (d.RefusesWord gs row offset backward) := by
  delta RefusesWord
  infer_instance

variable {gs d}

/-- A range that covers an owner covers what it covered. -/
theorem coverOwner_le (range : Int × Int) (o : Owner) :
    (coverOwner range o).1 ≤ range.1 ∧ range.2 ≤ (coverOwner range o).2 := by
  rw [coverOwner]
  split
  · exact ⟨min_le_left _ _, le_max_left _ _⟩
  · exact ⟨le_rfl, le_rfl⟩

/-- A range that covers owners covers what it covered. -/
theorem foldl_coverOwner_le (owners : List Owner) (range : Int × Int) :
    (owners.foldl coverOwner range).1 ≤ range.1 ∧ range.2 ≤ (owners.foldl coverOwner range).2 := by
  induction owners generalizing range with
  | nil => exact ⟨le_rfl, le_rfl⟩
  | cons o owners ih =>
    obtain ⟨hstart, hstop⟩ := coverOwner_le range o
    obtain ⟨hstart', hstop'⟩ := ih (coverOwner range o)
    exact ⟨hstart'.trans hstart, hstop.trans hstop'⟩

/-- Covering owners only extends a range. -/
theorem coverTurns_le (fuel : Nat) (range : Int × Int) :
    (d.coverTurns gs fuel range).1 ≤ range.1 ∧ range.2 ≤ (d.coverTurns gs fuel range).2 := by
  induction fuel generalizing range with
  | zero => exact ⟨le_rfl, le_rfl⟩
  | succ fuel ih =>
    rw [coverTurns]
    split
    · exact ⟨le_rfl, le_rfl⟩
    · obtain ⟨hstart, hstop⟩ := ih (List.foldl coverOwner range _)
      obtain ⟨hstart', hstop'⟩ := foldl_coverOwner_le _ range
      exact ⟨hstart.trans hstart', hstop'.trans hstop⟩

/-- A range that covers the owners at its ends covers what it covered. -/
theorem coverOwners_le (range : Int × Int) :
    (d.coverOwners gs range).1 ≤ range.1 ∧ range.2 ≤ (d.coverOwners gs range).2 := by
  rw [coverOwners]
  split
  · exact ⟨le_rfl, le_rfl⟩
  · exact coverTurns_le _ range

/-- A deletion joins what is in front of it, if anything. -/
theorem joinStart_le (row : ProjectedRow) (start stop : Int) :
    d.joinStart row start stop ≤ start := by
  rw [joinStart]
  cases h : (d.hardBreaksOf row).find? fun r => decide (r.1 ≤ start ∧ start ≤ r.2 ∧ r.2 ≤ stop) with
  | none => exact le_rfl
  | some r =>
    have hfound := List.find?_some h
    exact (of_decide_eq_true hfound).1

/-- A deletion by a word that has text of the caret's row ahead is refused, or takes the word. -/
theorem wordDeletion_cases {backward : Bool} {row : ProjectedRow}
    (hrow : d.projection.rows[(d.displayOf gs d.selection.extent).row]? = some row)
    (hahead : atRowEdge row (d.displayOf gs d.selection.extent).offset backward = false) :
    ∃ w, d.wordDeletion gs backward = some w ∧
      (d.RefusesWord gs row (d.displayOf gs d.selection.extent).offset backward → w = .refused) ∧
      (¬d.RefusesWord gs row (d.displayOf gs d.selection.extent).offset backward →
        d.TakesWord row (d.displayOf gs d.selection.extent).offset backward w) := by
  refine ⟨_, by rw [wordDeletion, hrow]; rfl, ?_⟩
  dsimp only
  rw [hahead, if_neg Bool.false_ne_true, RefusesWord]
  by_cases hdelimiter : row.delimiterSource = true
  · -- A line of delimiters is cut where it shows the caret.
    rw [if_pos hdelimiter, if_pos hdelimiter, deleteInDelimiterRow]
    dsimp only
    refine ⟨fun hrefuses => if_pos ?_, fun htakes => ?_⟩
    · rwa [Bool.or_eq_true, decide_eq_true_eq]
    · rw [if_neg (by rwa [Bool.or_eq_true, decide_eq_true_eq])]
      exact ⟨not_le.1 fun hle => htakes (Or.inr hle), le_rfl, le_rfl⟩
  rw [if_neg hdelimiter, if_neg hdelimiter]
  obtain ⟨hstart, hstop⟩ := @coverOwners_le gs d
    (row.sourceForDisplay
        (wordRange row (d.displayOf gs d.selection.extent).offset backward).1 .after,
      row.sourceForDisplay
        (wordRange row (d.displayOf gs d.selection.extent).offset backward).2 .before)
  dsimp only
  refine ⟨fun hrefuses => if_pos ?_, fun htakes => ?_⟩
  · rwa [Bool.or_eq_true, Bool.not_eq_true', decide_eq_true_eq]
  · rw [if_neg (by rwa [Bool.or_eq_true, Bool.not_eq_true', decide_eq_true_eq])]
    have hlt := not_le.1 fun hle => htakes (Or.inr hle)
    split
    · exact ⟨(joinStart_le row _ _).trans_lt hlt, (joinStart_le row _ _).trans hstart, hstop⟩
    · exact ⟨hlt, hstart, hstop⟩

end

/-! ## Movements -/

section

variable (gs : Graphemes) (d : Document)

/-- One position is past the other. -/
def Past (forward : Bool) (pos pos' : DisplayPosition) : Prop :=
  if forward then ¬pos'.NoLater pos else ¬pos.NoLater pos'

instance (forward : Bool) (pos pos' : DisplayPosition) : Decidable (Past forward pos pos') := by
  delta Past DisplayPosition.NoLater
  infer_instance

/-- The edge of the word at a display offset. -/
def wordEdge (forward : Bool) (row : ProjectedRow) (offset : Int) : Int :=
  if forward then row.text.wordEnd offset else row.text.wordStart offset

/-- Where the source offset of the word's edge shows, made legal. -/
def edgePosition (forward : Bool) (row : ProjectedRow) (offset : Int) : DisplayPosition :=
  d.displayOf gs (d.legalAt gs forward (row, wordEdge forward row offset))

/-- The closest legal offset to the source offset of the word's edge is not past the caret: one that
    does not show past it is preferred to all that do. -/
def EdgeFallsBack (forward : Bool) (row : ProjectedRow) (pos : DisplayPosition) : Prop :=
  ∃ x, d.projection.isLegal gs x = true ∧ ¬Past forward pos (d.displayOf gs x) ∧
    ∀ y, d.projection.isLegal gs y = true → Past forward pos (d.displayOf gs y) →
      Prefers d.model.lineAt (d.projection.shownFrom (row.sourceForDisplay
        (wordEdge forward row pos.offset) (if forward then .before else .after))) x y

/-- A movement by a word takes the caret to a legal offset further on that shows further on. -/
def MovesByWord (forward : Bool) : Prop :=
  ∀ goalColumn extend, ∃ x, d.projection.isLegal gs x = true ∧
    Further forward d.selection.extent x ∧
    Past forward (d.displayOf gs d.selection.extent) (d.displayOf gs x) ∧
    d.moveCaret gs goalColumn forward .word extend =
      some { d with selection := if extend then ⟨d.selection.extent, x, none⟩ else .collapsed x }

variable {gs d}

/-- The edge of a word is not where the word is looked for. -/
theorem wordEdge_ne {forward : Bool} {row : ProjectedRow} {offset : Int}
    (hoffset : 0 ≤ offset ∧ offset ≤ row.text.length)
    (hahead : atRowEdge row offset (!forward) = false) :
    wordEdge forward row offset ≠ offset := by
  obtain ⟨c, rfl⟩ := Int.eq_ofNat_of_zero_le hoffset.1
  cases forward with
  | true =>
    have hlt : ¬(row.text.length : Int) ≤ c := of_decide_eq_false hahead
    exact (@Text.lt_wordEnd row.text c (by omega)).1.ne'
  | false =>
    have hne : (c : Int) ≠ 0 := ne_of_beq_false hahead
    exact (@Text.wordStart_lt row.text c (by omega) (by omega)).2.ne

/-- A selection between legal offsets stays as it is. -/
theorem legalSelection_eq {p : Projection} {s : Selection} (hbase : p.legalize gs s.base = s.base)
    (hextent : p.legalize gs s.extent = s.extent) (hcell : s.tableCell = none) :
    legalSelection gs p s = s := by
  rw [legalSelection]
  split
  · rfl
  · split
    · rfl
    · rw [hbase, hextent, ← hcell]

/-- What is past is past at the same place. -/
theorem Past.of_samePlace {forward : Bool} {pos pos' pos'' : DisplayPosition}
    (h : Past forward pos pos') (hplace : pos''.SamePlace pos') : Past forward pos pos'' := by
  obtain ⟨hrow, hoffset⟩ := hplace
  rw [Past] at h ⊢
  simp only [DisplayPosition.NoLater, hrow, hoffset] at h ⊢
  exact h

/-- What is past is another place. -/
theorem Past.not_samePlace {forward : Bool} {pos pos' : DisplayPosition}
    (h : Past forward pos pos') : ¬pos'.SamePlace pos := by
  rintro ⟨hrow, hoffset⟩
  cases forward
  · exact h (Or.inr ⟨hrow.symm, hoffset.ge⟩)
  · exact h (Or.inr ⟨hrow, hoffset.le⟩)

section

variable (hd : d.Live gs)

include hd

/-- The edge of a word shows past the caret, its source offset made legal, where it does not fall
    back. -/
theorem past_edgePosition_iff {c : Int} (hc : d.projection.isLegal gs c = true) {forward : Bool}
    {row : ProjectedRow} {pos : DisplayPosition} :
    Past forward pos (d.edgePosition gs forward row pos.offset) ↔
      ¬d.EdgeFallsBack gs forward row pos := by
  have hclosest := Projection.legalize_closest hd.built hd.conforms hc
    (row.sourceForDisplay (wordEdge forward row pos.offset) (if forward then .before else .after))
  rw [edgePosition, legalAt, displayOf_legalize hd, ← displayOf_legalize hd]
  constructor
  · rintro hpast ⟨x, hx, hnot, hprefers⟩
    refine (hprefers _ hclosest.legal hpast).asymm (hclosest.prefers x hx fun heq => hnot ?_)
    rwa [heq]
  · intro hedge
    by_contra hnot
    refine hedge ⟨_, hclosest.legal, hnot, fun y hy hpast => ?_⟩
    exact hclosest.prefers y hy fun heq => hnot (heq ▸ hpast)

omit hd in
/-- An edge that is a caret past the caret does not fall back. -/
theorem not_edgeFallsBack_of_legal {forward : Bool} {row : ProjectedRow} {pos : DisplayPosition}
    {o : Int} (ho : d.projection.shownFrom (row.sourceForDisplay (wordEdge forward row pos.offset)
      (if forward then .before else .after)) = o) (hlegal : d.projection.isLegal gs o = true)
    (hpast : Past forward pos (d.displayOf gs o)) : ¬d.EdgeFallsBack gs forward row pos := by
  rintro ⟨x, -, -, hprefers⟩
  have := hprefers o hlegal hpast
  rw [ho] at this
  exact not_prefers_self _ _ _ this

/-- What shows further on is further on. -/
theorem Past.further (hm : d.model.OrderConforms d.source) {forward : Bool} {x y : Int}
    (h : Past forward (d.displayOf gs x) (d.displayOf gs y)) : Further forward x y := by
  cases forward
  · exact lt_of_not_ge fun hle => h (displayOf_mono hd hm hle)
  · exact lt_of_not_ge fun hle => h (displayOf_mono hd hm hle)

/-- A display offset has an anchor, at the place of its source offset. -/
theorem exists_anchorFor {c : Int} (hc : d.projection.isLegal gs c = true) (row : ProjectedRow)
    (offset : Int) (forward : Bool) : ∃ x, d.anchorFor gs row offset forward = some x ∧
      d.projection.isLegal gs x = true ∧
      (d.displayOf gs x).SamePlace (d.displayOf gs (d.legalAt gs forward (row, offset))) := by
  have hmem := legalize_mem_anchorsAt hd hc
    (row.sourceForDisplay offset (if forward then .before else .after))
  obtain ⟨x, hx⟩ : ∃ x, d.anchorFor gs row offset forward = some x := by
    refine Option.isSome_iff_exists.1 ?_
    cases forward with
    | true => exact List.isSome_head?.2 (List.ne_nil_of_mem hmem)
    | false => exact List.getLast?_isSome.2 (List.ne_nil_of_mem hmem)
  have hanchor : x ∈ d.anchorsAt gs
      (row.sourceForDisplay offset (if forward then .before else .after)) := by
    rw [anchorFor] at hx
    cases forward with
    | true => exact List.mem_of_mem_head? hx
    | false => exact List.mem_of_getLast? hx
  obtain ⟨-, hlegal, hplace⟩ := mem_anchorsAt.1 hanchor
  exact ⟨x, hx, hlegal, hplace⟩

/-- An offset shows in the text of its row. -/
theorem displayOf_offset_mem (hm : d.model.OrderConforms d.source) {x : Int} {row : ProjectedRow}
    (hrow : d.projection.rows[(d.displayOf gs x).row]? = some row) :
    0 ≤ (d.displayOf gs x).offset ∧ (d.displayOf gs x).offset ≤ row.text.length := by
  have hrows : d.projection.rows ≠ [] := fun hnil => by rw [hnil] at hrow; cases hrow
  obtain ⟨row', hrow', hmem⟩ := Projection.onLine_mem (hd.built.ordered hm) hm.table hrows
    (d.projection.legalize gs x)
  obtain rfl := Option.some_inj.1 (hrow.symm.trans hrow')
  exact hmem

/-- A caret that shows in a row is at the position that it shows at. -/
theorem caretPosition_eq (hm : d.model.OrderConforms d.source) (hcaret : d.AtCaret gs)
    (hrows : d.projection.rows ≠ []) :
    d.caretPosition = some (d.displayOf gs d.selection.extent) := by
  obtain ⟨hsel, hlegal⟩ := hcaret
  have hcell : d.selection.tableCell = none := congrArg Selection.tableCell hsel
  rw [caretPosition, hcell, displayOf, legalize_legal hd hlegal]
  cases h : d.projection.displayForSource d.selection.extent none with
  | none => exact absurd (Projection.rows_eq_nil_of_onLine (hd.built.ordered hm) hm.table h) hrows
  | some pos => rfl

end

/-- A movement by a word goes on where the edge of the word shows past the caret. -/
theorem moves_by_word (hd : d.Live gs) (hm : d.model.OrderConforms d.source) (hcaret : d.AtCaret gs)
    {forward : Bool} {row : ProjectedRow}
    (hrow : d.projection.rows[(d.displayOf gs d.selection.extent).row]? = some row)
    (hahead : atRowEdge row (d.displayOf gs d.selection.extent).offset (!forward) = false)
    (hpast : Past forward (d.displayOf gs d.selection.extent)
      (d.edgePosition gs forward row (d.displayOf gs d.selection.extent).offset)) :
    d.MovesByWord gs forward := by
  intro goalColumn extend
  obtain ⟨hsel, hlegal⟩ := hcaret
  have hcell : d.selection.tableCell = none := congrArg Selection.tableCell hsel
  have hcollapsed : d.selection.isCollapsed = true := by rw [hsel]; exact beq_self_eq_true _
  have hrows : d.projection.rows ≠ [] := fun hnil => by rw [hnil] at hrow; cases hrow
  -- The anchor that the movement takes stands at the edge of the word, and so past the caret.
  obtain ⟨x, hanchor, hx, hplace⟩ := exists_anchorFor hd hlegal row
    (wordEdge forward row (d.displayOf gs d.selection.extent).offset) forward
  have hpast := hpast.of_samePlace hplace
  refine ⟨x, hx, hpast.further hd hm, hpast, ?_⟩
  have hselects : d.moveSelection gs goalColumn forward .word extend =
      some (some (if extend then ⟨d.selection.extent, x, none⟩ else .collapsed x)) := by
    -- The caret is not at an edge of its row, so that no missing cell stops it, and its word's edge
    -- is not its own place.
    have hedge : (if forward then (d.displayOf gs d.selection.extent).offset == row.text.length
        else (d.displayOf gs d.selection.extent).offset == 0) = false := by
      cases forward with
      | true =>
        have hlt := of_decide_eq_false hahead
        exact beq_false_of_ne fun heq => hlt heq.ge
      | false => exact hahead
    have hother : ((d.rowAfter row.index forward).filter fun r => true &&
        decide (MoveUnit.word ≠ MoveUnit.line) &&
          (if forward then (d.displayOf gs d.selection.extent).offset == row.text.length
            else (d.displayOf gs d.selection.extent).offset == 0) &&
          d.projection.isMissingCell (some (r.index : Int))) = none := by
      rw [hedge]
      simp only [Bool.and_false, Bool.false_and, Option.filter_eq_none_iff, Bool.false_eq_true,
        not_false_eq_true, implies_true]
    have htarget : d.moveTarget gs goalColumn row (d.displayOf gs d.selection.extent).offset forward
        .word = some (some x) := by
      have hne : wordEdge forward row (d.displayOf gs d.selection.extent).offset ≠
          (d.displayOf gs d.selection.extent).offset :=
        wordEdge_ne (displayOf_offset_mem hd hm hrow) hahead
      rw [moveTarget, ← wordEdge, if_neg hne, hanchor]
      rfl
    -- An extended selection takes its old base, unless it would show nothing; it does not, as the
    -- place is another.
    have hextended : d.extendedTo gs x = ⟨d.selection.extent, x, none⟩ := by
      have hbase : d.selection.base = d.selection.extent := congrArg Selection.base hsel
      rw [extendedTo, hbase]
      refine if_neg fun hmem => hpast.not_samePlace ?_
      have hplace' := (mem_anchorsAt.1 hmem).2.2
      rwa [displayOf_legalize hd] at hplace'
    rw [moveSelection, caretPosition_eq hd hm ⟨hsel, hlegal⟩ hrows]
    simp only [Option.bind_some, hrow, hcell, Option.isSome_none, Bool.false_eq_true, if_false,
      hother, hcollapsed, Bool.not_true, Bool.and_false, Bool.false_and, htarget, Option.map_some,
      hextended]
  rw [moveCaret, hselects]
  simp only [Option.map_some, withSelection, Option.some_inj]
  congr 1
  -- The selection chosen is legal, so that nothing more is done to it.
  have hsame : ∀ y, d.projection.isLegal gs y = true → d.projection.legalize gs y = y :=
    fun y => legalize_legal hd
  cases extend with
  | true => exact legalSelection_eq (hsame _ hlegal) (hsame x hx) rfl
  | false => exact legalSelection_eq (hsame x hx) (hsame x hx) rfl

end

end Document

/-! ## Both modes -/

/-- Movements and deletions by a word make progress. In source mode a movement goes to a boundary
    further on and a deletion asks for the source without at least one whole grapheme, where the
    edge of the word does not fall back on the caret. In a live row, from a caret with text ahead, a
    movement goes to a legal offset further on where the edge does not fall back, and a deletion
    takes a range that reaches over the word but where it has to be refused. -/
theorem word_progress (gs : Graphemes) (forward : Bool) :
    (∀ (s : SourceSnapshot gs) (c : Nat), s.selection = .collapsed c → s.HasAhead forward c →
      ¬s.EdgeFallsBack forward c → ∃ b, s.WordProgress forward c b) ∧
    ∀ d : Document, d.Live gs → d.model.OrderConforms d.source → d.AtCaret gs →
      ∀ row, d.projection.rows[(d.displayOf gs d.selection.extent).row]? = some row →
        Document.atRowEdge row (d.displayOf gs d.selection.extent).offset (!forward) = false →
        (¬d.EdgeFallsBack gs forward row (d.displayOf gs d.selection.extent) →
          d.MovesByWord gs forward) ∧
        ∃ w, d.wordDeletion gs (!forward) = some w ∧
          (d.RefusesWord gs row (d.displayOf gs d.selection.extent).offset (!forward) →
            w = .refused) ∧
          (¬d.RefusesWord gs row (d.displayOf gs d.selection.extent).offset (!forward) →
            d.TakesWord row (d.displayOf gs d.selection.extent).offset (!forward) w) :=
  ⟨fun _ _ hcaret hahead hedge => SourceSnapshot.exists_wordProgress hcaret hahead hedge,
    fun _ hd hm hcaret _ hrow hahead =>
      ⟨fun hedge => Document.moves_by_word hd hm hcaret hrow hahead
          ((Document.past_edgePosition_iff hd hcaret.2).2 hedge),
        Document.wordDeletion_cases hrow hahead⟩⟩

namespace Document

/-- A model of a line with a letter and an emphasized text of two words. -/
def twoWords : RenderModel where
  bytes := []
  words :=
    [0x354B4C46, 5, 6, 6, 1, 2, 1, 3, 0, 0, 0, 0] ++ [0] ++
    [0, 0xFFFFFFFF, 0, 6, 0, 1, 0, 0, 0, 0xFFFFFFFF] ++
    [1, 0, 0, 6, 0, 1, 0, 0, 0, 0xFFFFFFFF] ++
    [0, 6, 0, 0] ++
    [0, 1, 0, 1] ++ [1, 6, 0x10001, 2] ++ [2, 5, 0, 0x10001]

/-- Its document, the caret at the start. -/
def halfWord : Document :=
  ⟨Projection.of .units twoWords (Text.ofString "a*b c*") {} none, .collapsed 0⟩

/-- The document with half a word in an emphasis is live. -/
theorem halfWord_live : halfWord.Live .units := by
  have hschema : twoWords.SchemaConforms (Text.ofString "a*b c*") := {
    table := ⟨by decide, by decide⟩
    leaf := by decide
    parent := by decide
    blockStart := by decide
    contentLine := by decide
    lineOrder := by decide
    afterDefinitions := by decide
    runOrder := by decide
    runRange := by decide }
  exact ⟨Built.anew hschema.toConforms {}, hschema⟩

/-- From before the letter, the first word is shown as the letter and a part of the emphasized text:
    to delete it would strand the emphasis, and is refused. -/
theorem wordDeletion_halfWord : halfWord.Live .units ∧ halfWord.AtCaret .units ∧
    (∃ row, halfWord.projection.rows[(halfWord.displayOf .units 0).row]? = some row ∧
      row.text = Text.ofString "ab c" ∧
      atRowEdge row (halfWord.displayOf .units 0).offset false = false) ∧
    halfWord.wordDeletion .units false = some .refused :=
  ⟨halfWord_live, ⟨rfl, by decide⟩,
    ⟨halfWord.projection.rows.headD default, by decide, by decide,
      by decide⟩, by decide⟩

end Document

namespace Graphemes

/-- A text cut into code units, an Arabic number sign with the one behind it. -/
def signPieces : Text → List Text
  | 0x600 :: u :: t => [0x600, u] :: signPieces t
  | u :: t => [u] :: signPieces t
  | [] => []

/-- The cut into code units and number signs, right for text whose other units are all below U+0300
    and where a sign has a unit behind it that is no line break and no sign. -/
def signs : Graphemes where
  split := signPieces
  flatten_split t := by
    induction t using signPieces.induct with
    | case1 u t ih => rw [signPieces, List.flatten_cons, ih]; rfl
    | case2 u t h ih => rw [signPieces, List.flatten_cons, ih]; · rfl
                        · exact h
    | case3 => rfl
  ne_nil t := by
    induction t using signPieces.induct with
    | case1 u t ih =>
      rw [signPieces]
      exact List.forall_mem_cons.2 ⟨List.cons_ne_nil _ _, ih⟩
    | case2 u t h ih =>
      rw [signPieces]
      · exact List.forall_mem_cons.2 ⟨List.cons_ne_nil _ _, ih⟩
      · exact h
    | case3 => exact fun _ h => absurd h List.not_mem_nil
  low t := by
    induction t using signPieces.induct with
    | case1 u t ih =>
      rw [signPieces]
      refine List.forall_mem_cons.2 ⟨fun i a b ha hb hlow _ => ?_, ih⟩
      obtain _ | i := i
      · obtain rfl := Option.some_inj.1 ha
        exact absurd hlow (by decide)
      · cases hb
    | case2 u t h ih =>
      rw [signPieces]
      · refine List.forall_mem_cons.2 ⟨fun i a b ha hb _ _ => ?_, ih⟩
        cases hb
      · exact h
    | case3 => exact fun _ h => absurd h List.not_mem_nil

end Graphemes

namespace Document

/-- A model of a line with an Arabic number sign, a space and a letter. -/
def signLine : RenderModel where
  bytes := []
  words :=
    [0x354B4C46, 5, 4, 3, 1, 2, 1, 1, 0, 0, 0, 0] ++ [0] ++
    [0, 0xFFFFFFFF, 0, 3, 0, 1, 0, 0, 0, 0xFFFFFFFF] ++
    [1, 0, 0, 3, 0, 1, 0, 0, 0, 0xFFFFFFFF] ++
    [0, 3, 0, 0] ++ [0, 3, 0, 1]

/-- Its document, the caret at the start. -/
def signed : Document :=
  ⟨Projection.of .signs signLine (Text.ofString "\u0600 x") {} none, .collapsed 0⟩

/-- The document with signs is live. -/
theorem signed_live : signed.Live .signs := by
  have hschema : signLine.SchemaConforms (Text.ofString "\u0600 x") := {
    table := ⟨by decide, by decide⟩
    leaf := by decide
    parent := by decide
    blockStart := by decide
    contentLine := by decide
    lineOrder := by decide
    afterDefinitions := by decide
    runOrder := by decide
    runRange := by decide }
  exact ⟨Built.anew hschema.toConforms {}, hschema⟩

/-- The sign is one word and one grapheme with the space behind it: the word's edge is inside the
    grapheme, and is made legal at the caret. -/
theorem moveCaret_signed : signed.Live .signs ∧ signed.AtCaret .signs ∧
    (∃ row, signed.projection.rows[(signed.displayOf .signs 0).row]? = some row ∧
      atRowEdge row (signed.displayOf .signs 0).offset false = false) ∧
    ∀ goalColumn, signed.moveCaret .signs goalColumn true .word false = some signed :=
  ⟨signed_live, ⟨rfl, by decide⟩,
    ⟨signed.projection.rows.headD default, by decide, by decide⟩, fun _ => rfl⟩

end Document

/-- The same source in source mode, the caret at its start. -/
def SourceSnapshot.signed : SourceSnapshot .signs :=
  .of .signs (Text.ofString "\u0600 x") (.collapsed 0)

/-- A deletion by a word that is refused, and movements by a word that leave the caret where it is,
    in a live row and in source mode. -/
theorem not_word_progress :
    (Document.halfWord.Live .units ∧ Document.halfWord.AtCaret .units ∧
      (∃ row, Document.halfWord.projection.rows[(Document.halfWord.displayOf .units 0).row]? =
          some row ∧ row.text = Text.ofString "ab c" ∧
        Document.atRowEdge row (Document.halfWord.displayOf .units 0).offset false = false) ∧
      Document.halfWord.wordDeletion .units false = some .refused) ∧
    (Document.signed.Live .signs ∧ Document.signed.AtCaret .signs ∧
      (∃ row, Document.signed.projection.rows[(Document.signed.displayOf .signs 0).row]? =
          some row ∧
        Document.atRowEdge row (Document.signed.displayOf .signs 0).offset false = false) ∧
      ∀ goalColumn, Document.signed.moveCaret .signs goalColumn true .word false =
        some Document.signed) ∧
    SourceSnapshot.signed.HasAhead true 0 ∧
      (SourceSnapshot.signed.moveSource true .word false).2 = false ∧
      SourceSnapshot.signed.sourceDelete false true = none :=
  ⟨Document.wordDeletion_halfWord, Document.moveCaret_signed, by decide, by decide, by decide⟩

/-- Two words in source mode, and a letter that is all of its line in a live document. -/
theorem word_progress_letters :
    (∃ b, (SourceSnapshot.of .units (Text.ofString "ab c") (.collapsed 0)).WordProgress true 0 b) ∧
      Document.letters.MovesByWord .units true ∧
      ∃ w, Document.letters.wordDeletion .units false = some w ∧
        Document.letters.TakesWord (Document.letters.projection.rows.headD default) 0 false w := by
  obtain ⟨hsource, hlive⟩ := word_progress .units true
  obtain ⟨hmoves, w, hw, -, htakes⟩ := hlive Document.letters Document.letters_live
    Document.twoParagraphs_orderConforms ⟨rfl, by decide⟩
    (Document.letters.projection.rows.headD default) (by decide) (by decide)
  have hedge := @Document.not_edgeFallsBack_of_legal .units Document.letters true
    (Document.letters.projection.rows.headD default) (Document.letters.displayOf .units 0) 1
    (by decide) (by decide) (by decide)
  exact ⟨hsource _ 0 (by decide) (by decide) (by decide), hmoves hedge, w, hw, htakes (by decide)⟩

end Flark
