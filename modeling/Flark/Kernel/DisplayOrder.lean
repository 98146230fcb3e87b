import Flark.Kernel.InlineText
import Flark.Kernel.Legalize
import Flark.Kernel.Placement
import Flark.Kernel.Positions

/-!
# Display order

Display order follows source order: an offset shows no later than the offsets behind it
(`Projection.displayForSource_mono`). Within a row this is how its segments lie; between rows,
that the records of a model lie one behind the other in the source and on its lines
(`RenderModel.OrderConforms`), so that of two rows on one line the earlier one starts first and
ends on that line (`ProjectedRow.Precedes`).

* `displayForSource_mono`: within a row;
* `bestRow_mono`: on a line that several rows share;
* `Document.display_order`: for offsets of a document, and for the text between two of them.
-/

namespace Flark

/-! ## Within a row -/

namespace ProjectedRow

/-- Where the loop of `displayForSource` stops, the end of the text without a segment. -/
def displayEndingAt (stop : Nat) (source : Int) (segments : List Segment) : Int :=
  ((displayIn source segments).map Prod.fst).getD stop

variable {segments : List Segment} {start stop : Nat}

/-- Behind a segment, and at its end where the next one owns it, the segment does not matter. -/
theorem displayEndingAt_next {s : Segment} {x : Int} (hstart : s.sourceStart ≤ x)
    (hx : s.sourceEnd < x ∨ x = s.sourceEnd ∧
      (segments.head?.any fun next => next.sourceStart == x) = true) :
    displayEndingAt stop x (s :: segments) = displayEndingAt stop x segments := by
  rw [displayEndingAt, displayIn, if_neg (not_lt.2 hstart)]
  split
  · rfl
  next htouch =>
  rw [if_neg ?_]
  · rfl
  rcases hx with hlt | heq
  · exact not_le.2 hlt
  · exact absurd heq htouch

/-- An offset that a segment has. -/
theorem displayEndingAt_here {s : Segment} {x : Int} (hstart : s.sourceStart ≤ x)
    (hstop : x ≤ s.sourceEnd)
    (happart : ¬(x = s.sourceEnd ∧ (segments.head?.any fun next => next.sourceStart == x) = true)) :
    displayEndingAt stop x (s :: segments) =
      if s.exact then s.displayStart + (x - s.sourceStart)
      else if x = s.sourceStart then (s.displayStart : Int) else s.displayEnd := by
  rw [displayEndingAt, displayIn_cons hstart hstop happart]
  split_ifs <;> rfl

/-- A place in front of the segments is shown at their start. -/
theorem displayEndingAt_before {s : Segment} {x : Int} (hstart : x < s.sourceStart) :
    displayEndingAt stop x (s :: segments) = s.displayStart := by
  rw [displayEndingAt, displayIn, if_pos hstart]
  rfl

/-- An offset is before a segment, one that the segment has, or one that it leaves to the rest. -/
theorem offset_cases (s : Segment) (segments : List Segment) (x : Int) :
    x < s.sourceStart ∨
      (s.sourceStart ≤ x ∧ x ≤ s.sourceEnd ∧
        ¬(x = s.sourceEnd ∧ (segments.head?.any fun next => next.sourceStart == x) = true)) ∨
      (s.sourceStart ≤ x ∧ (s.sourceEnd < x ∨ x = s.sourceEnd ∧
        (segments.head?.any fun next => next.sourceStart == x) = true)) := by
  by_cases htouch : x = s.sourceEnd ∧ (segments.head?.any fun next => next.sourceStart == x) = true
  · rcases lt_or_ge x s.sourceStart with h | h
    · exact Or.inl h
    · exact Or.inr (Or.inr ⟨h, Or.inr htouch⟩)
  · rcases lt_or_ge x s.sourceStart with h | h
    · exact Or.inl h
    · rcases le_or_gt x s.sourceEnd with h' | h'
      · exact Or.inr (Or.inl ⟨h, h', htouch⟩)
      · exact Or.inr (Or.inr ⟨h, Or.inl h'⟩)

/-- A place is shown in the stretch that the segments tile. -/
theorem displayEndingAt_mem (htiles : Tiles start segments stop)
    (hmeasured : ∀ s ∈ segments, s.Measured) (x : Int) :
    (start : Int) ≤ displayEndingAt stop x segments ∧ displayEndingAt stop x segments ≤ stop := by
  induction segments generalizing start with
  | nil => exact ⟨Int.ofNat_le.2 (le_of_eq htiles), le_rfl⟩
  | cons s segments ih =>
    obtain ⟨hstart, hle, hrest⟩ := htiles
    obtain ⟨hs, hmeasured⟩ := List.forall_mem_cons.1 hmeasured
    obtain ⟨h₁, h₂⟩ := ih hrest hmeasured
    have hstop := hrest.le
    rcases offset_cases s segments x with hx | ⟨hx, hx', hhere⟩ | ⟨hx, hnext⟩
    · rw [displayEndingAt_before hx]
      omega
    · rw [displayEndingAt_here hx hx' hhere]
      split_ifs with hexact
      · have := hs hexact
        omega
      all_goals omega
    · rw [displayEndingAt_next hx hnext]
      omega

/-- Where a row shows an offset moves forward with the offset. -/
theorem displayEndingAt_mono (htiles : Tiles start segments stop)
    (hmeasured : ∀ s ∈ segments, s.Measured) {x y : Int} (hxy : x ≤ y) :
    displayEndingAt stop x segments ≤ displayEndingAt stop y segments := by
  induction segments generalizing start with
  | nil => exact le_rfl
  | cons s segments ih =>
    obtain ⟨hy₁, -⟩ := displayEndingAt_mem htiles hmeasured y
    obtain ⟨hstart, hle, hrest⟩ := htiles
    obtain ⟨hs, hmeasured⟩ := List.forall_mem_cons.1 hmeasured
    obtain ⟨hy₂, -⟩ := displayEndingAt_mem hrest hmeasured y
    rcases offset_cases s segments x with hx | ⟨hx, hx', hhere⟩ | ⟨hx, hnext⟩
    · rw [displayEndingAt_before hx]
      omega
    · -- The segment shows `x` in its range: before what it leaves, and in order with the rest.
      rcases offset_cases s segments y with hy | ⟨hy, hy', hhere'⟩ | ⟨hy, hnext'⟩
      · omega
      · rw [displayEndingAt_here hx hx' hhere, displayEndingAt_here hy hy' hhere']
        split_ifs <;> omega
      · rw [displayEndingAt_here hx hx' hhere, displayEndingAt_next hy hnext']
        split_ifs with hexact
        · have := hs hexact
          omega
        all_goals omega
    · rcases hxy.eq_or_lt with rfl | hlt
      · exact le_rfl
      have hbehind : s.sourceEnd < y := by omega
      rw [displayEndingAt_next hx hnext, displayEndingAt_next (hx.trans hxy) (Or.inl hbehind)]
      exact ih hrest hmeasured

/-- Segments of exact text are as long in the source as in the text. -/
def Measured (row : ProjectedRow) : Prop := ∀ s ∈ row.segments, s.Measured

section

variable {row : ProjectedRow} (htiles : Tiles 0 row.segments row.text.length)
  (hmeasured : row.Measured)

include htiles hmeasured

omit hmeasured in
/-- The display offset of a source offset, on its side in front, by the segments. -/
theorem displayForSource_fst (x : Int) :
    (row.displayForSource x).1 = displayEndingAt row.text.length x row.segments := by
  rw [displayForSource, displayEndingAt]
  cases hlast : row.segments.getLast? with
  | none =>
    rw [List.getLast?_eq_none_iff] at hlast
    rw [hlast] at htiles ⊢
    exact Int.ofNat_inj.2 htiles
  | some last =>
    dsimp only
    cases displayIn x row.segments <;> rfl

/-- A place is shown in the row's text. -/
theorem displayForSource_mem (x : Int) :
    0 ≤ (row.displayForSource x).1 ∧ (row.displayForSource x).1 ≤ row.text.length := by
  rw [displayForSource_fst htiles]
  exact displayEndingAt_mem htiles hmeasured x

/-- Places that follow one another are shown in that order. -/
theorem displayForSource_mono {x y : Int} (hxy : x ≤ y) :
    (row.displayForSource x).1 ≤ (row.displayForSource y).1 := by
  rw [displayForSource_fst htiles, displayForSource_fst htiles]
  exact displayEndingAt_mono htiles hmeasured hxy

end

end ProjectedRow

/-! ## Rows in order -/

namespace ProjectedRow

/-- On the lines of both, a row ends where the other one starts at the latest, and starts no
    later in the source than the other if they share that line. -/
def Precedes (row row' : ProjectedRow) : Prop :=
  ∀ l l', row.OwnsLine l → row'.OwnsLine l' →
    l ≤ l' ∧ (l = l' → row.sourceStart ≤ row'.sourceStart)

/-- The order in which rows are placed: by first line, and by source start on one line. -/
def PlacedBefore (row row' : ProjectedRow) : Prop :=
  row.firstLine < row'.firstLine ∨
    row.firstLine = row'.firstLine ∧ row.sourceStart ≤ row'.sourceStart

/-- Two rows, the first one added before the second, precede each other as they are placed. -/
def Compatible (row row' : ProjectedRow) : Prop :=
  (row.PlacedBefore row' → row.Precedes row') ∧ (¬row.PlacedBefore row' → row'.Precedes row)

variable {row row' : ProjectedRow}

theorem OwnsLine.firstLine {l : Nat} (h : row.OwnsLine l) : row.OwnsLine row.firstLine :=
  ⟨le_rfl, h.1.trans_lt h.2⟩

/-- Rows that do not share a line are in order however they are placed. -/
theorem compatible_of_apart (h : ∀ l, row.OwnsLine l → ¬row'.OwnsLine l) :
    row.Compatible row' := by
  -- The lines of each row have no gap, so they all lie on one side of the other's.
  have hside : ∀ {r r' : ProjectedRow}, (∀ l, r.OwnsLine l → ¬r'.OwnsLine l) →
      r.firstLine ≤ r'.firstLine → r.Precedes r' := by
    intro r r' h hle l l' hl hl'
    have hnot := h r'.firstLine
    have hfirst := hl'.firstLine
    simp only [OwnsLine] at hl hl' hnot hfirst
    omega
  refine ⟨fun hplaced => hside h ?_, fun hplaced => hside (fun l hl hl' => h l hl' hl) ?_⟩
  · exact hplaced.elim le_of_lt fun h => h.1.le
  · simp only [PlacedBefore, not_or, not_lt] at hplaced
    exact hplaced.1

/-- A row added before one that it precedes. -/
theorem Precedes.compatible (h : row.Precedes row') : row.Compatible row' := by
  refine ⟨fun _ => h, fun hplaced l l' hl hl' => absurd ?_ hplaced⟩
  obtain ⟨hle, hstart⟩ := h _ _ hl'.firstLine hl.firstLine
  rcases hle.lt_or_eq with hlt | heq
  · exact Or.inl hlt
  · exact Or.inr ⟨heq, hstart heq⟩

/-- A row added behind one that it precedes, and starts before in the source. -/
theorem Precedes.compatible_of_lt (h : row'.Precedes row) (hlt : row'.sourceStart < row.sourceStart) :
    row.Compatible row' := by
  refine ⟨fun hplaced l l' hl hl' => ?_, fun _ => h⟩
  obtain ⟨hle, -⟩ := h _ _ hl'.firstLine hl.firstLine
  rcases hplaced with hplaced | ⟨-, hplaced⟩
  · exact absurd hplaced (not_lt.2 hle)
  · exact absurd hplaced (not_le.2 hlt)

/-- The row lies in the source from `lo` to `hi`: it starts there, and its lines are lines of
    that stretch. -/
structure Lies (m : RenderModel) (src : Text) (lo hi : Nat) (row : ProjectedRow) : Prop where
  start : (lo : Int) ≤ row.sourceStart ∧ row.sourceStart ≤ hi
  lines : ∀ l, row.OwnsLine l → m.lineOfUtf16 lo ≤ l ∧ lineBound src l ≤ hi ∧ l < m.lineCount

/-- Of two rows that lie one behind the other in the source, one precedes the other. -/
theorem Lies.precedes {m : RenderModel} {src : Text} (hm : m.HasLineTable src)
    {lo hi lo' hi' : Nat} (h : row.Lies m src lo hi) (h' : row'.Lies m src lo' hi') (hle : hi ≤ lo') :
    row.Precedes row' := by
  intro l l' hl hl'
  obtain ⟨-, hbound, hcount⟩ := h.lines l hl
  obtain ⟨hline, -, -⟩ := h'.lines l' hl'
  refine ⟨le_trans ?_ hline, fun _ => h.start.2.trans ((Int.ofNat_le.2 hle).trans h'.start.1)⟩
  -- Line `l` starts before the stretch of the other row does.
  by_contra hlt
  obtain ⟨-, -, hnext⟩ := hm.lineOfUtf16_eq_iff.1 (rfl : m.lineOfUtf16 lo' = _)
  have hbound' : lineBound src (m.lineOfUtf16 lo' + 1) ≤ lineBound src l := lineBound_mono (by omega)
  have := hnext (by omega)
  omega

end ProjectedRow

/-! ## The records of a model in order -/

namespace RenderModel

/-- The blocks that have a row of their own: leaves and thematic breaks. -/
def IsRowBlock (m : RenderModel) (b : Nat) : Prop :=
  isLeaf (m.blockKind b) = true ∨ m.blockKind b = BlockKind.thematicBreak

instance (m : RenderModel) (b : Nat) : Decidable (m.IsRowBlock b) :=
  inferInstanceAs (Decidable (_ ∨ _))

/-- Where the row of a block starts: behind the definitions that a paragraph or a heading takes
    from its start, at its first content record. -/
def rowStart (m : RenderModel) (b : Nat) : Nat :=
  if (m.blockFirstLine b : Int) < (m.leaf b).rowLines.1 then m.contentStart (m.blockContentOffset b)
  else m.blockStart b

/-- The schema's invariants that display order relies on. Blocks are in document order and
    siblings do not overlap, so leaves lie one behind the other; a block starts on its first
    line and reaches its last one; a leaf's records start inside its source range. Definitions
    lie one behind the other, each before the row of a leaf or behind the leaf. The delimiter
    line of a table is no other record's. -/
structure OrderConforms (m : RenderModel) (src : Text) : Prop
    extends m.SchemaConforms src, m.LinesConform src where
  blockRange : ∀ b < m.blockCount, m.blockStart b ≤ m.blockEnd b
  leaves : ∀ b' < m.blockCount, ∀ b < b', m.IsRowBlock b → m.IsRowBlock b' →
    m.blockEnd b ≤ m.blockStart b'
  startLine : ∀ b < m.blockCount, m.IsRowBlock b →
    m.lineOfUtf16 (m.blockStart b) = m.blockFirstLine b
  endLine : ∀ b < m.blockCount, m.IsRowBlock b → 0 < m.blockLineCount b →
    m.blockFirstLine b + m.blockLineCount b ≤ m.lineCount ∧
      lineBound src (m.blockFirstLine b + m.blockLineCount b - 1) ≤ m.blockEnd b
  contentRange : ∀ b < m.blockCount, isLeaf (m.blockKind b) = true → ∀ c ∈ m.contentOf b,
    (m.blockStart b : Int) ≤ c.start ∧ c.start ≤ m.blockEnd b
  definitionRange : ∀ d < m.definitionCount, m.definitionStart d ≤ m.definitionEnd d
  definitions : ∀ d' < m.definitionCount, ∀ d < d', m.definitionEnd d ≤ m.definitionStart d'
  definitionLeaf : ∀ d < m.definitionCount, ∀ b < m.blockCount, m.IsRowBlock b →
    m.definitionEnd d ≤ m.rowStart b ∨ m.blockEnd b < m.definitionStart d
  delimiterLeaf : ∀ t < m.blockCount, m.blockKind t = BlockKind.table → m.blockLineCount t = 2 →
    ∀ b < m.blockCount, m.IsRowBlock b → m.blockFirstLine t + 1 < m.blockFirstLine b ∨
      m.blockFirstLine b + m.blockLineCount b ≤ m.blockFirstLine t + 1
  delimiterDefinition : ∀ t < m.blockCount, m.blockKind t = BlockKind.table →
    m.blockLineCount t = 2 → ∀ d < m.definitionCount,
      ¬m.DefinitionClaims d (m.blockFirstLine t + 1)
  delimiterTable : ∀ t < m.blockCount, ∀ t' < t, m.blockKind t = BlockKind.table →
    m.blockKind t' = BlockKind.table → m.blockLineCount t = 2 → m.blockLineCount t' = 2 →
      m.blockFirstLine t ≠ m.blockFirstLine t'
  inline : ∀ b < m.blockCount, isInline (m.blockKind b) = true → m.InlineConforms src b

end RenderModel

/-! ## The rows of leaves -/

section

variable {gs : Graphemes} {m : RenderModel} {src : Text} {options : ProjectionOptions} {b : Nat}

/-- The extent of a literal leaf starts with its first record, and ends with its last. -/
theorem literalWalk_extent {leaf : LeafRecords} {content : List ContentView}
    {previous : Option ContentView} {st : LiteralState} :
    (0 ≤ st.sourceStart →
      (literalWalk src leaf previous st content).sourceStart = st.sourceStart) ∧
    (literalWalk src leaf previous st content).sourceEnd =
      (content.getLast?.map ContentView.stop).getD st.sourceEnd := by
  induction content generalizing previous st with
  | nil => exact ⟨fun _ => rfl, rfl⟩
  | cons c content ih =>
    obtain ⟨hstart, hstop⟩ := @ih (some c) (literalStep src leaf previous st c)
    refine ⟨fun h => ?_, ?_⟩
    · have hkeep : (literalStep src leaf previous st c).sourceStart = st.sourceStart :=
        if_neg (not_lt.2 h)
      rw [literalWalk, hstart (hkeep ▸ h), hkeep]
    · rw [literalWalk, hstop]
      cases content <;> rfl

/-- The extent of a row of a leaf: that of the block without records, else from the first record
    to a later offset. -/
def LeafExtent (m : RenderModel) (b : Nat) (start stop : Int) : Prop :=
  m.contentOf b = [] ∧ start = m.blockStart b ∧ stop = m.blockEnd b ∨
    ∃ c rest, m.contentOf b = c :: rest ∧ start = c.start ∧ c.start ≤ stop

/-- The first record starts no later than the last one stops. -/
theorem content_first_le (hm : m.SchemaConforms src) (hb : b < m.blockCount)
    (hleaf : RenderModel.isLeaf (m.blockKind b) = true) {c : ContentView} {rest : List ContentView}
    (hcontent : m.contentOf b = c :: rest) :
    0 ≤ c.start ∧ c.start ≤ (rest.getLast?.map ContentView.stop).getD c.stop := by
  have hfirst : c ∈ m.contentOf b := hcontent ▸ List.mem_cons_self
  obtain ⟨-, hlow, hle, -⟩ := hm.contentLine b hb hleaf c hfirst
  refine ⟨(Int.natCast_nonneg _).trans hlow, ?_⟩
  cases hlast : rest.getLast? with
  | none => exact hle
  | some last =>
    have hin : last ∈ rest := List.mem_of_getLast? hlast
    have hmem : last ∈ m.contentOf b := hcontent ▸ List.mem_cons_of_mem _ hin
    have horder := hm.lineOrder b hb hleaf
    rw [hcontent] at horder
    have hbehind := content_stop_le hm hb hleaf hfirst hmem ((List.pairwise_cons.1 horder).1 last hin)
    exact hle.trans (hbehind.trans (hm.contentLine b hb hleaf last hmem).2.2.1)

/-- An inline leaf's row reaches from its content's first line to its last. -/
theorem leafExtent_inline (hm : m.SchemaConforms src) (hb : b < m.blockCount)
    (hleaf : RenderModel.isLeaf (m.blockKind b) = true) :
    LeafExtent m b
      (if (inlineResult gs m src options (m.leaf b)).sourceStart < 0 then (m.leaf b).start
        else (inlineResult gs m src options (m.leaf b)).sourceStart)
      (if (inlineResult gs m src options (m.leaf b)).sourceEnd < 0 then (m.leaf b).stop
        else (inlineResult gs m src options (m.leaf b)).sourceEnd) := by
  have hrecords : (m.leaf b).content = m.contentOf b := rfl
  cases hcontent : m.contentOf b with
  | nil =>
    rw [inlineResult, hrecords, hcontent]
    exact Or.inl ⟨hcontent, rfl, rfl⟩
  | cons c rest =>
    obtain ⟨hzero, hle⟩ := content_first_le hm hb hleaf hcontent
    have hfirst : ∀ x : Int, (if (-1 : Int) < 0 then c.start else x) = c.start := fun _ => rfl
    simp only [inlineResult, hrecords, hcontent, inlineWalk]
    rw [inlineWalk_extent.2, inlineWalk_extent.1 (by exact hzero)]
    simp only [inlineStep, hfirst]
    rw [if_neg (not_lt.2 hzero), if_neg (not_lt.2 (hzero.trans hle))]
    exact Or.inr ⟨c, rest, hcontent, rfl, hle⟩

/-- A literal leaf's row reaches from its content's first line to its last. -/
theorem leafExtent_literal (hm : m.SchemaConforms src) (hb : b < m.blockCount)
    (hleaf : RenderModel.isLeaf (m.blockKind b) = true) :
    LeafExtent m b
      (if (literalResult src (m.leaf b)).sourceStart < 0 then (m.leaf b).start
        else (literalResult src (m.leaf b)).sourceStart)
      (if (literalResult src (m.leaf b)).sourceEnd < 0 then (m.leaf b).stop
        else (literalResult src (m.leaf b)).sourceEnd) := by
  have hrecords : (m.leaf b).content = m.contentOf b := rfl
  cases hcontent : m.contentOf b with
  | nil =>
    rw [literalResult, hrecords, hcontent]
    exact Or.inl ⟨hcontent, rfl, rfl⟩
  | cons c rest =>
    obtain ⟨hzero, hle⟩ := content_first_le hm hb hleaf hcontent
    have hfirst : ∀ x : Int, (if (-1 : Int) < 0 then c.start else x) = c.start := fun _ => rfl
    simp only [literalResult, hrecords, hcontent, literalWalk]
    rw [literalWalk_extent.2, literalWalk_extent.1 (by exact hzero)]
    simp only [literalStep, hfirst]
    rw [if_neg (not_lt.2 hzero), if_neg (not_lt.2 (hzero.trans hle))]
    exact Or.inr ⟨c, rest, hcontent, rfl, hle⟩

/-- A row that starts behind the first line of its leaf starts at the first record. -/
theorem rowStart_cases (b : Nat) :
    (m.rowStart b = m.blockStart b ∧ (m.leaf b).rowLines = ((m.blockFirstLine b : Int), m.blockLineCount b)) ∨
      ∃ c rest, m.contentOf b = c :: rest ∧ (m.rowStart b : Int) = c.start ∧
        (m.blockFirstLine b : Int) < c.line ∧ (m.leaf b).rowLines.1 = c.line := by
  rw [RenderModel.rowStart]
  rcases rowLines_cases (m := m) b with h | ⟨c, rest, hcontent, hlt, hline⟩
  · rw [h, if_neg (lt_irrefl _)]
    exact Or.inl ⟨rfl, rfl⟩
  · rw [hline, if_pos hlt]
    refine Or.inr ⟨c, rest, hcontent, ?_, hlt, rfl⟩
    rw [RenderModel.contentOf] at hcontent
    cases hcount : m.blockContentCount b with
    | zero =>
      rw [hcount] at hcontent
      cases hcontent
    | succ n =>
      rw [hcount, List.range'_succ, List.map_cons] at hcontent
      rw [← (List.cons.inj hcontent).1]
      rfl

theorem rowStart_thematicBreak (hkind : m.blockKind b = BlockKind.thematicBreak) :
    m.rowStart b = m.blockStart b := by
  have hlines : (m.leaf b).rowLines = ((m.blockFirstLine b : Int), m.blockLineCount b) := by
    refine if_pos ?_
    rw [show (m.leaf b).kind = m.blockKind b from rfl, hkind]
    decide
  rw [RenderModel.rowStart, hlines, if_neg (lt_irrefl _)]

/-- The row of a leaf starts with its records or its block, and does not end before. A bare
    prefix starts with its block, which then starts on the row's line. -/
theorem freshRow_extent (hm : m.SchemaConforms src) (hb : b < m.blockCount)
    (hleaf : RenderModel.isLeaf (m.blockKind b) = true) (hrange : m.blockStart b ≤ m.blockEnd b) :
    (m.freshRow src gs options b).sourceStart ≤ (m.freshRow src gs options b).sourceEnd ∧
      ((m.freshRow src gs options b).sourceStart = m.blockStart b ∧
          m.rowStart b = m.blockStart b ∨
        ∃ c rest, m.contentOf b = c :: rest ∧
          (m.freshRow src gs options b).sourceStart = c.start) := by
  have hextent : ∀ {start stop : Int}, LeafExtent m b start stop → start ≤ stop ∧
      (start = m.blockStart b ∧ m.rowStart b = m.blockStart b ∨
        ∃ c rest, m.contentOf b = c :: rest ∧ start = c.start) := by
    rintro start stop (⟨hcontent, rfl, rfl⟩ | ⟨c, rest, hcontent, rfl, hle⟩)
    · refine ⟨Int.ofNat_le.2 hrange, Or.inl ⟨rfl, ?_⟩⟩
      rcases rowStart_cases (m := m) b with h | ⟨c, rest, hcontent', -⟩
      · exact h.1
      · cases hcontent.symm.trans hcontent'
    · exact ⟨hle, Or.inr ⟨c, rest, hcontent, rfl⟩⟩
  rw [RenderModel.freshRow]
  split
  · next hinline =>
    have hinlineExtent := hextent (@leafExtent_inline gs m src options b hm hb hleaf)
    simp only [inlineRow]
    split
    · next hbare =>
      obtain ⟨hkind, -, hempty, -, hattr⟩ := hbare
      have hattr : _ - (m.leaf b).start = ((m.leaf b).attr : Int) := hattr
      refine ⟨?_, Or.inl ⟨rfl, ?_⟩⟩
      · dsimp only [barePrefixRow]
        omega
      rcases rowStart_cases (m := m) b with h | ⟨c, rest, hcontent, -, hlt, -⟩
      · exact h.1
      · -- A heading that begins with definitions has text, and its extent is not empty.
        have hlong := hm.afterDefinitions b hb hkind c (by rw [hcontent]; rfl) hlt
        have hmem : c ∈ m.contentOf b := hcontent ▸ List.mem_cons_self
        obtain ⟨hfirst, hlast⟩ := @inlineResult_extent gs m src options b hm hb hleaf c hmem
        omega
    · exact hinlineExtent
  · exact hextent (leafExtent_literal hm hb hleaf)

variable (hm : m.OrderConforms src)

include hm

/-- A row does not start before its block. -/
theorem blockStart_le_rowStart (hb : b < m.blockCount) (hrow : m.IsRowBlock b) :
    m.blockStart b ≤ m.rowStart b := by
  rcases hrow with hleaf | hkind
  · rcases rowStart_cases (m := m) b with h | ⟨c, rest, hcontent, hstart, -⟩
    · exact h.1.ge
    · have := hm.contentRange b hb hleaf c (hcontent ▸ List.mem_cons_self)
      omega
  · exact (rowStart_thematicBreak hkind).ge

/-- The row of a leaf lies in the source from where it starts to the end of the leaf. -/
theorem lies_freshRow (hb : b < m.blockCount)
    (hleaf : RenderModel.isLeaf (m.blockKind b) = true) :
    (m.freshRow src gs options b).Lies m src (m.rowStart b) (m.blockEnd b) := by
  have hrow : m.IsRowBlock b := Or.inl hleaf
  have hrowStart := rowStart_cases (m := m) b
  refine ⟨?_, fun l hl => ?_⟩
  · obtain ⟨-, ⟨hstart, hsame⟩ | ⟨c, rest, hcontent, hstart⟩⟩ :=
      @freshRow_extent gs m src options b hm.toSchemaConforms hb hleaf (hm.blockRange b hb)
    · rw [hstart, hsame]
      exact ⟨le_rfl, Int.ofNat_le.2 (hm.blockRange b hb)⟩
    · have hrange := hm.contentRange b hb hleaf c (hcontent ▸ List.mem_cons_self)
      rw [hstart]
      refine ⟨?_, hrange.2⟩
      rcases hrowStart with h | ⟨c', rest', hcontent', hstart', -⟩
      · rw [h.1]
        exact hrange.1
      · rw [hcontent] at hcontent'
        rw [hstart', (List.cons.inj hcontent').1]
  · obtain ⟨hfirst, hlast⟩ := ownsLine_freshRow hl
    obtain ⟨hcount, hend⟩ := hm.endLine b hb hrow (by omega)
    refine ⟨?_, (lineBound_mono (by omega)).trans hend, by omega⟩
    rcases hrowStart with h | ⟨c, rest, hcontent, hstart, -, hline⟩
    · rw [h.1, hm.startLine b hb hrow]
      exact hfirst
    · -- The row's first line is that of the record.
      have honLine := content_onLine hm.toSchemaConforms hb hleaf
        (hcontent ▸ List.mem_cons_self : c ∈ m.contentOf b)
      have hc := honLine (by omega) c.start le_rfl (le_max_left _ _)
      rw [RenderModel.lineAt, ← hstart, Int.toNat_natCast] at hc
      have hrowFirst := (@freshRow_lines gs m src options b).1
      have := hl.1
      omega

/-- The row of a thematic break lies on its block. -/
theorem lies_thematicBreakRow (hb : b < m.blockCount)
    (hkind : m.blockKind b = BlockKind.thematicBreak) :
    (m.thematicBreakRow src b).Lies m src (m.rowStart b) (m.blockEnd b) := by
  have hrow : m.IsRowBlock b := Or.inr hkind
  rw [rowStart_thematicBreak hkind]
  refine ⟨⟨le_rfl, Int.ofNat_le.2 (hm.blockRange b hb)⟩, fun l hl => ?_⟩
  have hl : m.blockFirstLine b ≤ l ∧ l < m.blockFirstLine b + m.blockLineCount b := hl
  obtain ⟨hcount, hend⟩ := hm.endLine b hb hrow (by omega)
  exact ⟨(hm.startLine b hb hrow).trans_le hl.1, (lineBound_mono (by omega)).trans hend, by omega⟩

/-- The row of a definition lies on the definition. -/
theorem lies_definitionRow {d : Nat} (hd : d < m.definitionCount) :
    (m.definitionRow src d).Lies m src (m.definitionStart d) (m.definitionEnd d) := by
  have hrange := hm.definitionRange d hd
  refine ⟨⟨le_rfl, Int.ofNat_le.2 hrange⟩, fun l hl => ?_⟩
  obtain ⟨hfirst, hlast⟩ := ownsLine_definitionRow.1 hl
  refine ⟨hfirst, ?_, hlast.trans_lt (hm.table.lineOfUtf16_lt _)⟩
  obtain ⟨-, hbound, -⟩ := hm.table.lineOfUtf16_eq_iff.1
    (rfl : m.lineOfUtf16 (if m.definitionStart d < m.definitionEnd d then m.definitionEnd d - 1
      else m.definitionStart d) = _)
  refine (lineBound_mono hlast).trans (hbound.trans ?_)
  split <;> omega

end

/-! ## All rows -/

section

variable {gs : Graphemes} {m : RenderModel} {src : Text} {options : ProjectionOptions}

/-- A row that block `b` adds: one of its own, or that of a table's delimiter line. -/
inductive Added (m : RenderModel) (src : Text) (b : Nat) (row : ProjectedRow) : Prop
  | block (hb : m.IsRowBlock b) (lies : row.Lies m src (m.rowStart b) (m.blockEnd b))
      (lines : ∀ l, row.OwnsLine l →
        m.blockFirstLine b ≤ l ∧ l < m.blockFirstLine b + m.blockLineCount b)
  | delimiter (hkind : m.blockKind b = BlockKind.table) (hcount : m.blockLineCount b = 2)
      (line : ∀ l, row.OwnsLine l → l = m.blockFirstLine b + 1)

variable (hm : m.OrderConforms src)

include hm

/-- A row that a block adds is its leaf's row or one of its own lines. -/
theorem added_of_mem {b : Nat} (hb : b < m.blockCount) {row : ProjectedRow}
    (hrow : row ∈ addedRows gs m src options b) : Added m src b row := by
  rw [addedRows] at hrow
  split at hrow
  · next hleaf =>
    cases List.mem_singleton.1 hrow
    exact .block (Or.inl hleaf) (lies_freshRow hm hb hleaf) fun _ => ownsLine_freshRow
  · split at hrow
    · next hkind =>
      cases List.mem_singleton.1 hrow
      exact .block (Or.inr hkind) (lies_thematicBreakRow hm hb hkind) fun _ h => h
    · split at hrow
      · next htable =>
        obtain ⟨hfirst, hcount⟩ := delimiterRow_lines (Option.mem_toList.1 hrow)
        refine .delimiter htable.1 htable.2.2.1 fun l hl => ?_
        rw [ProjectedRow.OwnsLine, hfirst, hcount] at hl
        omega
      · cases hrow

/-- The rows of two blocks do not cross. -/
theorem Added.compatible {b b' : Nat} (hb' : b' < m.blockCount) (hlt : b < b')
    {row row' : ProjectedRow} (h : Added m src b row) (h' : Added m src b' row') :
    row.Compatible row' := by
  have hb := hlt.trans hb'
  cases h with
  | block hrow lies lines =>
    cases h' with
    | block hrow' lies' lines' =>
      exact (lies.precedes hm.table lies' ((hm.leaves b' hb' b hlt hrow hrow').trans
        (blockStart_le_rowStart hm hb' hrow'))).compatible
    | delimiter hkind hcount line =>
      refine ProjectedRow.compatible_of_apart fun l hl hl' => ?_
      have hlines := lines l hl
      rw [line l hl'] at hlines
      have := hm.delimiterLeaf b' hb' hkind hcount b hb hrow
      omega
  | delimiter hkind hcount line =>
    cases h' with
    | block hrow' lies' lines' =>
      refine ProjectedRow.compatible_of_apart fun l hl hl' => ?_
      have hlines := lines' l hl'
      rw [line l hl] at hlines
      have := hm.delimiterLeaf b hb hkind hcount b' hb' hrow'
      omega
    | delimiter hkind' hcount' line' =>
      refine ProjectedRow.compatible_of_apart fun l hl hl' => ?_
      have := line l hl
      have := line' l hl'
      have := hm.delimiterTable b' hb' b hlt hkind' hkind hcount' hcount
      omega

/-- The row of a definition and that of a block do not cross. -/
theorem compatible_definition {d b : Nat} (hd : d < m.definitionCount) (hb : b < m.blockCount)
    {row : ProjectedRow} (h : Added m src b row) : (m.definitionRow src d).Compatible row := by
  have hlies := lies_definitionRow hm hd
  cases h with
  | block hrow lies lines =>
    rcases hm.definitionLeaf d hd b hb hrow with hbefore | hbehind
    · exact (hlies.precedes hm.table lies hbefore).compatible
    · refine (lies.precedes hm.table hlies hbehind.le).compatible_of_lt ?_
      exact lies.start.2.trans_lt (Int.ofNat_lt.2 hbehind)
  | delimiter hkind hcount line =>
    refine ProjectedRow.compatible_of_apart fun l hl hl' => ?_
    rw [line l hl'] at hl
    exact hm.delimiterDefinition b hb hkind hcount d hd (ownsLine_definitionRow.1 hl)

omit hm in
/-- The lines of a row of a block are claimed. -/
theorem lineClaimed_of_added {b l : Nat} (hb : b < m.blockCount) {row : ProjectedRow}
    (h : Added m src b row) (hl : row.OwnsLine l) : m.LineClaimed l := by
  refine Or.inr ⟨b, hb, ?_⟩
  cases h with
  | block hrow lies lines => exact ⟨hrow.imp_right Or.inl, lines l hl⟩
  | delimiter hkind hcount line =>
    have hline := line l hl
    exact ⟨Or.inr (Or.inr hkind), by omega, by omega⟩

/-- The rows before the blank ones precede each other as they are placed. -/
theorem pairwise_blockRows :
    (blockRows gs m src options fun _ => none).rows.Pairwise ProjectedRow.Compatible := by
  rw [blockRows_rows]
  refine List.pairwise_append.2 ⟨List.pairwise_map.2 ?_, List.pairwise_flatMap.2 ⟨fun b hb => ?_, ?_⟩,
    fun row hrow row' hrow' => ?_⟩
  · refine List.pairwise_lt_range.imp_of_mem fun {d d'} hd hd' hlt => ?_
    have hd := List.mem_range.1 hd
    have hd' := List.mem_range.1 hd'
    exact ((lies_definitionRow hm hd).precedes hm.table (lies_definitionRow hm hd')
      (hm.definitions d' hd' d hlt)).compatible
  · -- A block adds one row at most.
    rw [addedRows]
    split_ifs
    · exact List.pairwise_singleton _ _
    · exact List.pairwise_singleton _ _
    · cases m.delimiterRow src b (m.blockFirstLine b + 1) with
      | none => exact List.Pairwise.nil
      | some row => exact List.pairwise_singleton _ _
    · exact List.Pairwise.nil
  · refine List.pairwise_lt_range.imp_of_mem fun {b b'} hb hb' hlt row hrow row' hrow' => ?_
    have hb := List.mem_range.1 hb
    have hb' := List.mem_range.1 hb'
    exact (added_of_mem hm hb hrow).compatible hm hb' hlt (added_of_mem hm hb' hrow')
  · obtain ⟨d, hd, rfl⟩ := List.mem_map.1 hrow
    obtain ⟨b, hb, hrow'⟩ := List.mem_flatMap.1 hrow'
    have hb := List.mem_range.1 hb
    exact compatible_definition hm (List.mem_range.1 hd) hb (added_of_mem hm hb hrow')

/-- No two rows that are built cross. -/
theorem pairwise_buildRows :
    (buildRows gs m src options fun _ => none).Pairwise ProjectedRow.Compatible := by
  obtain ⟨unclaimed, hbuild, hunclaimed, hsorted⟩ := @buildRows_eq gs m src options
  rw [hbuild]
  refine List.pairwise_append.2 ⟨pairwise_blockRows hm, List.pairwise_map.2 ?_,
    fun row hrow row' hrow' => ?_⟩
  · refine hsorted.imp fun {l l'} hlt => ProjectedRow.compatible_of_apart fun i hi hi' => ?_
    rw [ownsLine_blankRow] at hi hi'
    omega
  · obtain ⟨l, hl, rfl⟩ := List.mem_map.1 hrow'
    refine ProjectedRow.compatible_of_apart fun i hi hi' => ?_
    -- What a row before the blank ones owns is claimed, and a blank row's line is not.
    rw [ownsLine_blankRow] at hi'
    subst hi'
    refine ((hunclaimed i).1 hl).2 ?_
    rw [blockRows_rows] at hrow
    rcases List.mem_append.1 hrow with hrow | hrow
    · obtain ⟨d, hd, rfl⟩ := List.mem_map.1 hrow
      exact Or.inl ⟨d, List.mem_range.1 hd, ownsLine_definitionRow.1 hi⟩
    · obtain ⟨b, hb, hrow⟩ := List.mem_flatMap.1 hrow
      have hb := List.mem_range.1 hb
      exact lineClaimed_of_added hb (added_of_mem hm hb hrow) hi

omit hm in
/-- Placing rows that precede each other as they are placed. -/
theorem pairwise_precedes_orderRows {lineCount : Nat} {rows : List ProjectedRow}
    (hlines : ∀ r ∈ rows, r.firstLine < lineCount)
    (hrows : rows.Pairwise ProjectedRow.Compatible) :
    (orderRows lineCount rows).Pairwise ProjectedRow.Precedes := by
  have hbucket : ∀ {l : Nat} {r : ProjectedRow},
      r ∈ rows.filter (fun r => min r.firstLine lineCount == l) → r ∈ rows ∧ r.firstLine = l := by
    intro l r hr
    obtain ⟨hr, hl⟩ := List.mem_filter.1 hr
    rw [← beq_iff_eq.1 hl, min_eq_left (hlines r hr).le]
    exact ⟨hr, rfl⟩
  rw [orderRows, List.pairwise_flatMap]
  refine ⟨fun l _ => ?_, List.pairwise_lt_range.imp fun {l l'} hlt r hr r' hr' => ?_⟩
  -- On one line the sort puts them in order, and keeps those that start together as they were.
  · have htotal : Std.Total fun a b : ProjectedRow => a.sourceStart ≤ b.sourceStart :=
      ⟨fun a b => le_total a.sourceStart b.sourceStart⟩
    have htrans : IsTrans ProjectedRow fun a b => a.sourceStart ≤ b.sourceStart :=
      ⟨fun _ _ _ => le_trans⟩
    refine Buckets.pairwise_insertionSort_of _ ?_
    refine (hrows.sublist List.filter_sublist).imp_of_mem fun {r r'} hr hr' hpair => ?_
    have hline : r.firstLine = r'.firstLine := (hbucket hr).2.trans (hbucket hr').2.symm
    refine ⟨fun hle => hpair.1 (Or.inr ⟨hline, hle⟩), fun hnot => hpair.2 ?_⟩
    rintro (h | ⟨-, h⟩)
    · exact absurd h (hline ▸ lt_irrefl _)
    · exact hnot h
  -- Of two lines, the rows of the earlier one are first.
  · obtain ⟨hr, hl⟩ := hbucket ((List.mem_insertionSort _).1 hr)
    obtain ⟨hr', hl'⟩ := hbucket ((List.mem_insertionSort _).1 hr')
    have hfirst : r.firstLine < r'.firstLine := hl.trans_lt (hlt.trans_eq hl'.symm)
    have hsymm : Std.Symm fun r r' : ProjectedRow => r.Compatible r' ∨ r'.Compatible r :=
      ⟨fun _ _ => Or.symm⟩
    have hne : r ≠ r' := fun heq => absurd hfirst (heq ▸ lt_irrefl _)
    have hpairs : rows.Pairwise fun r r' => r.Compatible r' ∨ r'.Compatible r :=
      hrows.imp Or.inl
    rcases hpairs.forall hr hr' hne with h | h
    · exact h.1 (Or.inl hfirst)
    · refine h.2 ?_
      rintro (h | ⟨h, -⟩)
      · exact absurd hfirst h.not_gt
      · exact absurd hfirst (h ▸ lt_irrefl _)

end

/-! ## What each row shows -/

/-- What display order relies on in each row: its segments cover its text, exact ones unit for
    unit, and its extent runs forward. -/
structure ProjectedRow.Ordered (row : ProjectedRow) : Prop where
  tiles : Tiles 0 row.segments row.text.length
  measured : row.Measured
  extent : row.sourceStart ≤ row.sourceEnd

section

variable {gs : Graphemes} {m : RenderModel} {src : Text} {options : ProjectionOptions}

/-- A piece that is added is measured if it is. -/
theorem measured_add {out : Out} (h : ∀ s ∈ out.segments, s.Measured) {piece : Text} {a b : Int}
    {exact : Bool} (hexact : exact = true → (piece.length : Int) = b - a) (styles : Nat) (run : Int)
    (lineBreak : Bool) :
    ∀ s ∈ (out.add piece a b styles exact run lineBreak).segments, s.Measured := by
  intro s hs
  rcases List.mem_append.1 hs with hs | hs
  · exact h s hs
  · cases List.mem_singleton.1 hs
    intro hs'
    have := hexact hs'
    dsimp only
    omega

/-- What a definition shows is measured. -/
theorem measured_definitionWalk (raw : Text) (base : Nat) {rest : Text} {i cursor : Nat} {out : Out}
    (hi : i + rest.length ≤ raw.length) (h : ∀ s ∈ out.segments, s.Measured) :
    ∀ s ∈ (RenderModel.definitionWalk raw base rest i cursor out).segments, s.Measured := by
  have hemit : ∀ {out : Out} (cursor : Nat) {stop : Nat}, stop ≤ raw.length →
      (∀ s ∈ out.segments, s.Measured) →
      ∀ s ∈ (RenderModel.emitDefinition raw base out cursor stop).segments, s.Measured := by
    intro out cursor stop hstop h
    rw [RenderModel.emitDefinition]
    split
    · exact h
    · refine measured_add h (fun _ => ?_) _ _ _
      rw [Text.length_substring (Int.natCast_nonneg _) (Int.ofNat_le.2 hstop)]
      omega
  induction rest generalizing i cursor out with
  | nil => exact hemit _ le_rfl h
  | cons u rest ih =>
    rw [List.length_cons] at hi
    rw [RenderModel.definitionWalk]
    split
    · exact ih (by omega) (measured_add (hemit _ (by omega) h) (absurd · Bool.false_ne_true) _ _ _)
    · exact ih (by omega) h

/-- What a literal leaf shows is measured. -/
theorem measured_literalWalk {leaf : LeafRecords} {content : List ContentView}
    (hcontent : ∀ c ∈ content, 0 ≤ c.start ∧ c.stop ≤ src.length) {previous : Option ContentView}
    {st : LiteralState} (h : ∀ s ∈ st.out.segments, s.Measured) :
    ∀ s ∈ (literalWalk src leaf previous st content).out.segments, s.Measured := by
  induction content generalizing previous st with
  | nil => exact h
  | cons c content ih =>
    obtain ⟨⟨hstart, hstop⟩, hcontent⟩ := List.forall_mem_cons.1 hcontent
    have hbreak : ∀ s ∈ (literalBreak st.out previous c).segments, s.Measured := by
      cases previous with
      | none => exact h
      | some previous => exact measured_add h (absurd · Bool.false_ne_true) _ _ _
    have hvirtual : ∀ s ∈ (emitVirtual (literalBreak st.out previous c) c).segments, s.Measured := by
      rw [emitVirtual]
      split
      · exact measured_add hbreak (absurd · Bool.false_ne_true) _ _ _
      · exact hbreak
    refine ih hcontent ?_
    simp only [literalStep]
    split
    · refine measured_add hvirtual (fun _ => ?_) _ _ _
      rw [Text.length_substring hstart hstop]
      omega
    · exact hvirtual

theorem measured_singleton {start stop : Int} (h : start ≤ stop) :
    ∀ s ∈ [(⟨0, (stop - start).toNat, start, stop, 0, true, -1, false⟩ : Segment)], s.Measured := by
  refine List.forall_mem_singleton.2 fun _ => ?_
  dsimp only
  omega

variable (hm : m.OrderConforms src)

include hm

/-- Content is within the source. -/
theorem content_range {b : Nat} (hb : b < m.blockCount)
    (hleaf : RenderModel.isLeaf (m.blockKind b) = true) :
    ∀ c ∈ m.contentOf b, 0 ≤ c.start ∧ c.stop ≤ src.length := by
  intro c hc
  obtain ⟨hl, hlow, -, hstop⟩ := hm.contentLine b hb hleaf c hc
  refine ⟨(Int.natCast_nonneg _).trans hlow, ?_⟩
  obtain ⟨i, -, rfl⟩ := List.mem_map.1 hc
  exact hstop.trans (lineEndOf_le_length hm.toSchemaConforms (Int.ofNat_lt.1 hl))

/-- What a leaf shows is measured. -/
theorem measured_freshRow {b : Nat} (hb : b < m.blockCount)
    (hleaf : RenderModel.isLeaf (m.blockKind b) = true) :
    (m.freshRow src gs options b).Measured := by
  rw [RenderModel.freshRow]
  split
  · next hinline =>
    exact (inlineRow_faithful hm.toSchemaConforms hb hinline (hm.inline b hb hinline) gs options _
      _).1.measured
  · exact measured_literalWalk (content_range hm hb hleaf) (fun _ h => by cases h)

/-- The row of a delimiter line is measured, and ends behind its start. -/
theorem ordered_delimiterRow {table line : Nat} (hl : line < m.lineCount) {row : ProjectedRow}
    (h : m.delimiterRow src table line = some row) :
    row.Measured ∧ row.sourceStart ≤ row.sourceEnd := by
  have hline : (m.lineStartUtf16 line : Int) ≤ m.lineEnd src line := by
    rw [hm.table.starts line hl]
    exact hm.table.lineBound_le_lineEndOf hl
  have hmeasured : ∀ start : Int, start ≤ m.lineEnd src line →
      ∀ s ∈ (if start < m.lineEnd src line then
        [(⟨0, (m.lineEnd src line - start).toNat, start, m.lineEnd src line, 0, true, -1, false⟩ :
          Segment)] else []), s.Measured := by
    intro start hle
    split
    · exact measured_singleton hle
    · exact nofun
  simp only [RenderModel.delimiterRow] at h
  split at h
  · cases h
    exact ⟨hmeasured _ hline, hline⟩
  · split at h
    · next hprefix =>
      cases h
      exact ⟨hmeasured _ hprefix.2, hprefix.2⟩
    · cases h

omit hm in
/-- The row of a blank line is measured, and ends behind its start. -/
theorem ordered_blankRow (l : Nat) :
    (m.blankRow src l).Measured ∧ (m.blankRow src l).sourceStart ≤ (m.blankRow src l).sourceEnd := by
  simp only [RenderModel.blankRow]
  split
  · next item hitem =>
    -- The marker of a bare item is all of its line.
    have hwidth : m.lineEnd src l - m.blockStart item = 1 := by
      rw [RenderModel.bareItem] at hitem
      split at hitem
      · cases hitem
      · split at hitem
        · dsimp only at hitem
          split at hitem
          · next hbare =>
            cases hitem
            exact hbare.2.2.1
          · cases hitem
        · cases hitem
    have hle : (m.blockStart item : Int) ≤ m.lineEnd src l := by omega
    exact ⟨measured_singleton hle, hle⟩
  · exact ⟨fun _ h => absurd h List.not_mem_nil, le_rfl⟩

/-- The rows built anew. -/
theorem ordered_buildRows : ∀ r ∈ buildRows gs m src options fun _ => none, r.Ordered := by
  have hrows : ∀ r ∈ buildRows gs m src options fun _ => none,
      r.Measured ∧ r.sourceStart ≤ r.sourceEnd := by
    refine forall_buildRows (fun d => ⟨measured_definitionWalk _ _ (by simp) nofun, ?_⟩)
      (fun b hb hleaf => ⟨measured_freshRow hm hb hleaf, ?_⟩)
      (fun b hb _ => ⟨nofun, Int.ofNat_le.2 (hm.blockRange b hb)⟩)
      (fun b _ row hline hrow => ordered_delimiterRow hm hline hrow) fun l _ => ordered_blankRow l
    · exact Int.ofNat_le.2 (Nat.le_add_right _ _)
    · exact (freshRow_extent hm.toSchemaConforms hb hleaf (hm.blockRange b hb)).1
  intro r hr
  obtain ⟨hmeasured, hextent⟩ := hrows r hr
  exact ⟨(shape_buildRows hm.toSchemaConforms options r hr).tiles, hmeasured, hextent⟩

end

/-! ## The rows of a projection -/

/-- What display order relies on in a projection: its rows are in order, each precedes those
    behind it, and the rows of a line are listed in order. -/
structure Projection.Ordered (p : Projection) : Prop where
  rows : ∀ r ∈ p.rows, r.Ordered
  precedes : p.rows.Pairwise ProjectedRow.Precedes
  listed : ∀ l < p.model.lineCount, (p.rowIndexesOnLine l).Pairwise (· < ·) ∧
    ∀ i, i ∈ p.rowIndexesOnLine l ↔ ∃ row, p.rows[i]? = some row ∧ row.OwnsLine l

/-- A row's place and origin do not matter. -/
theorem ProjectedRow.Ordered.congr {row row' : ProjectedRow} (h : row.content = row'.content)
    (hrow : row.Ordered) : row'.Ordered := by
  cases row
  cases row'
  simp only [ProjectedRow.content, ProjectedRow.mk.injEq, true_and] at h
  obtain ⟨-, -, -, -, rfl, rfl, -, rfl, rfl, -⟩ := h
  exact ⟨hrow.tiles, hrow.measured, hrow.extent⟩

section

variable {gs : Graphemes} {p : Projection}

/-- A projection that was built is the one built anew, but for where rows were taken from. -/
theorem Built.anew_eq (h : Built gs p) : p.withoutOrigins =
    (Projection.of gs p.model p.source p.options none).withoutOrigins := by
  cases h with
  | anew => rfl
  | reusing hc options hprevious => exact ofRows_congr (buildRows_reusing hc options hprevious.valid)

/-- The rows of a projection that is built are in order. -/
theorem Built.ordered (h : Built gs p) (hm : p.model.OrderConforms p.source) : p.Ordered := by
  have hsame := h.anew_eq
  have hlines : p.AccountsForLines := by
    refine Projection.AccountsForLines.congr hsame ?_
    exact accountsForLines_anew hm.toLinesConform
  have hrows : p.rows.map ProjectedRow.withoutOrigin = (Projection.of gs p.model p.source p.options
      none).rows.map ProjectedRow.withoutOrigin := congrArg Projection.rows hsame
  refine ⟨h.forall_rows (fun _ _ hcontent hrow => hrow.congr hcontent) (ordered_buildRows hm), ?_,
    fun l hl => ?_⟩
  · have hplaced : (orderRows p.model.lineCount (buildRows gs p.model p.source p.options
        fun _ => none)).Pairwise ProjectedRow.Precedes :=
      pairwise_precedes_orderRows (firstLine_lt hm.toLinesConform) (pairwise_buildRows hm)
    have hanew : ((Projection.of gs p.model p.source p.options none).rows.map
        ProjectedRow.withoutOrigin).Pairwise ProjectedRow.Precedes := by
      refine List.pairwise_map.2 (List.pairwise_iff_getElem.2 fun i j hi hj hij => ?_)
      simp only [Projection.of, Projection.ofRows, List.length_mapIdx] at hi hj
      simp only [Projection.of, Projection.ofRows, List.getElem_mapIdx]
      exact List.pairwise_iff_getElem.1 hplaced i j hi hj hij
    rw [← hrows] at hanew
    have hpairs := List.pairwise_map.1 hanew
    exact hpairs
  · exact hlines.listed l hl

end

/-! ## The row of an offset -/

/-- One position is no later than another: in an earlier row, or no later in the same one. -/
def DisplayPosition.NoLater (pos pos' : DisplayPosition) : Prop :=
  pos.row < pos'.row ∨ pos.row = pos'.row ∧ pos.offset ≤ pos'.offset

namespace Projection

variable {p : Projection}

/-- The best row is the one there was, or one of the candidates. -/
theorem bestRow_mem (p : Projection) (x : Int) (candidates : List Nat) (best : Nat) :
    p.bestRow x candidates best = best ∨ p.bestRow x candidates best ∈ candidates := by
  induction candidates generalizing best with
  | nil => exact Or.inl rfl
  | cons r candidates ih =>
    rw [bestRow]
    split
    · exact (ih best).imp_right (List.mem_cons_of_mem r)
    · split_ifs
      · exact (ih best).imp_right (List.mem_cons_of_mem r)
      · exact Or.inr List.mem_cons_self
      · exact Or.inr (List.mem_cons.2 (ih r))
      · exact (ih best).imp_right (List.mem_cons_of_mem r)

/-- Before all rows of a line none of them is better than the one so far. -/
theorem bestRow_eq_of_lt (hp : p.Ordered) {x : Int} {candidates : List Nat}
    (h : ∀ r ∈ candidates, ∀ row, p.rows[r]? = some row → x < row.sourceStart) (best : Nat) :
    p.bestRow x candidates best = best := by
  induction candidates generalizing best with
  | nil => rfl
  | cons r candidates ih =>
    obtain ⟨hr, h⟩ := List.forall_mem_cons.1 h
    rw [bestRow]
    split
    · exact ih h best
    · next row hrow =>
      have hlt := hr row hrow
      have := (hp.rows row (List.mem_of_getElem? hrow)).extent
      rw [if_neg (show ¬(row.sourceStart ≤ x ∧ x ≤ row.sourceEnd) by omega),
        if_neg (show ¬row.sourceEnd < x by omega), ih h best, ite_self]

/-- Of the rows on a line, the one for a later offset is no earlier. -/
theorem bestRow_mono (hp : p.Ordered) {x y : Int} (hxy : x ≤ y) {candidates : List Nat}
    (hsorted : candidates.Pairwise (· < ·))
    (hstarts : candidates.Pairwise fun r r' => ∀ row row', p.rows[r]? = some row →
      p.rows[r']? = some row' → row.sourceStart ≤ row'.sourceStart)
    {best best' : Nat} (hbest : best ≤ best') (hbest' : ∀ r ∈ candidates, best' ≤ r) :
    p.bestRow x candidates best ≤ p.bestRow y candidates best' := by
  -- By induction on the candidates, with the best ones up to now in order and no later than those
  -- that are left.
  induction candidates generalizing best best' with
  | nil => exact hbest
  | cons r candidates ih =>
    obtain ⟨hbehind, hsorted⟩ := List.pairwise_cons.1 hsorted
    obtain ⟨hstart, hstarts⟩ := List.pairwise_cons.1 hstarts
    obtain ⟨hr, hbest'⟩ := List.forall_mem_cons.1 hbest'
    have hlater : ∀ {z : Int} {b : Nat}, b ≤ r → b ≤ p.bestRow z candidates b := by
      intro z b hb
      rcases bestRow_mem p z candidates b with h | h
      · exact h.ge
      · exact hb.trans (hbehind _ h).le
    rw [bestRow, bestRow]
    cases hrow : p.rows[r]? with
    | none => exact ih hsorted hstarts hbest hbest'
    | some row =>
      dsimp only
      by_cases hmissing : p.isMissingCell (some (r : Int)) = true
      · rw [if_pos hmissing, if_pos hmissing]
        exact ih hsorted hstarts hbest hbest'
      rw [if_neg hmissing, if_neg hmissing]
      have hextent := (hp.rows row (List.mem_of_getElem? hrow)).extent
      rcases lt_or_ge x row.sourceStart with hbefore | hfrom
      · -- The offset is before this row, and so before those behind it.
        have hnone := bestRow_eq_of_lt hp
          (fun r' hr' row' hrow' => hbefore.trans_le (hstart r' hr' row row' hrow hrow')) best
        rw [if_neg (show ¬(row.sourceStart ≤ x ∧ x ≤ row.sourceEnd) by omega),
          if_neg (show ¬row.sourceEnd < x by omega), hnone]
        split_ifs
        · exact hbest.trans hr
        · exact (hbest.trans hr).trans (hlater le_rfl)
        · exact hbest.trans (hlater hr)
      · rcases le_or_gt x row.sourceEnd with hin | hpast
        · rw [if_pos ⟨hfrom, hin⟩]
          split_ifs with h₁ h₂
          · exact le_rfl
          · exact hlater le_rfl
          · omega
        · rw [if_neg (show ¬(row.sourceStart ≤ x ∧ x ≤ row.sourceEnd) by omega), if_pos hpast,
            if_neg (show ¬(row.sourceStart ≤ y ∧ y ≤ row.sourceEnd) by omega),
            if_pos (hpast.trans_le hxy)]
          exact ih hsorted hstarts le_rfl fun r' hr' => (hbehind r' hr').le

/-- The last row above a line is on a line before it, and no row is on a line between. -/
theorem lastRowBefore_eq_some {line r : Nat} (h : p.lastRowBefore line = some r) :
    ∃ l < line, (p.rowIndexesOnLine l).getLast? = some r ∧
      ∀ l', l < l' → l' < line → p.rowIndexesOnLine l' = [] := by
  induction line with
  | zero => cases h
  | succ line ih =>
    rw [lastRowBefore] at h
    cases hlast : (p.rowIndexesOnLine line).getLast? with
    | some last =>
      rw [hlast, Option.some_or] at h
      cases h
      exact ⟨line, line.lt_succ_self, hlast, fun l' h₁ h₂ => by omega⟩
    | none =>
      rw [hlast, Option.none_or] at h
      obtain ⟨l, hl, hlast', hbetween⟩ := ih h
      refine ⟨l, hl.trans line.lt_succ_self, hlast', fun l' h₁ h₂ => ?_⟩
      rcases Nat.lt_succ_iff_lt_or_eq.1 h₂ with h₂ | rfl
      · exact hbetween l' h₁ h₂
      · exact List.getLast?_eq_none_iff.1 hlast

/-- Where no row is found before a line, the lines before it have none. -/
theorem lastRowBefore_eq_none {line : Nat} (h : p.lastRowBefore line = none) :
    ∀ l < line, p.rowIndexesOnLine l = [] := by
  induction line with
  | zero => exact fun l hl => absurd hl (Nat.not_lt_zero l)
  | succ line ih =>
    rw [lastRowBefore, Option.or_eq_none_iff, List.getLast?_eq_none_iff] at h
    intro l hl
    rcases Nat.lt_succ_iff_lt_or_eq.1 hl with hl | rfl
    · exact ih h.2 l hl
    · exact h.1

section

variable (hp : p.Ordered)

include hp

/-- Rows on two lines are in the order of the lines, and those on one line in source order. -/
theorem row_le_of_line_lt {l l' r r' : Nat} (hl : l < p.model.lineCount)
    (hl' : l' < p.model.lineCount) (hlt : l < l') (hr : r ∈ p.rowIndexesOnLine l)
    (hr' : r' ∈ p.rowIndexesOnLine l') : r ≤ r' := by
  obtain ⟨row, hrow, hown⟩ := ((hp.listed l hl).2 r).1 hr
  obtain ⟨row', hrow', hown'⟩ := ((hp.listed l' hl').2 r').1 hr'
  by_contra hnot
  obtain ⟨hi, rfl⟩ := List.getElem?_eq_some_iff.1 hrow
  obtain ⟨hi', rfl⟩ := List.getElem?_eq_some_iff.1 hrow'
  have hpair := List.pairwise_iff_getElem.1 hp.precedes r' r hi' hi (not_le.1 hnot)
  exact absurd (hpair l' l hown' hown).1 (not_le.2 hlt)

/-- The rows of a line start in their order. -/
theorem pairwise_starts {l : Nat} (hl : l < p.model.lineCount) :
    (p.rowIndexesOnLine l).Pairwise fun r r' => ∀ row row', p.rows[r]? = some row →
      p.rows[r']? = some row' → row.sourceStart ≤ row'.sourceStart := by
  refine (hp.listed l hl).1.imp_of_mem fun {r r'} hr hr' hlt row row' hrow hrow' => ?_
  obtain ⟨row₁, hrow₁, hown⟩ := ((hp.listed l hl).2 r).1 hr
  obtain ⟨row₂, hrow₂, hown'⟩ := ((hp.listed l hl).2 r').1 hr'
  obtain rfl := Option.some.inj (hrow.symm.trans hrow₁)
  obtain rfl := Option.some.inj (hrow'.symm.trans hrow₂)
  obtain ⟨hi, rfl⟩ := List.getElem?_eq_some_iff.1 hrow
  obtain ⟨hi', rfl⟩ := List.getElem?_eq_some_iff.1 hrow'
  exact (List.pairwise_iff_getElem.1 hp.precedes r r' hi hi' hlt l l hown hown').2 rfl

end

/-- Where an offset shows: in the best row of its line, or, where its line shows none, at the end
    of the last row of the nearest line `l` above. -/
structure ShowsAt (p : Projection) (x : Int) (l : Nat) (pos : DisplayPosition) (row : ProjectedRow) :
    Prop where
  line : l ≤ p.model.lineOfUtf16 x.toNat
  between : ∀ l', l < l' → l' ≤ p.model.lineOfUtf16 x.toNat → p.rowIndexesOnLine l' = []
  shown : p.rows[pos.row]? = some row
  mem : pos.row ∈ p.rowIndexesOnLine l
  offset : l = p.model.lineOfUtf16 x.toNat ∧
      pos.row = p.bestRow x (p.rowIndexesOnLine l) ((p.rowIndexesOnLine l).headD 0) ∧
      pos.offset = (row.displayForSource x).1 ∨
    l < p.model.lineOfUtf16 x.toNat ∧ (p.rowIndexesOnLine l).getLast? = some pos.row ∧
      pos.offset = row.text.length

section

variable (hp : p.Ordered) (hm : p.model.HasLineTable p.source)

include hp hm

/-- An offset shows somewhere, or no row is on its line or above and it shows at the start. -/
theorem showsAt_or_start {x : Int} {pos : DisplayPosition}
    (h : displayForSource.onLine p x = some pos) :
    (∃ l row, p.ShowsAt x l pos row) ∨
      (∀ l ≤ p.model.lineOfUtf16 x.toNat, p.rowIndexesOnLine l = []) ∧ pos.row = 0 ∧
        pos.offset = 0 := by
  have hline : (p.model.lineAt x).toNat = p.model.lineOfUtf16 x.toNat := Int.toNat_natCast _
  have hlt := hm.lineOfUtf16_lt x.toNat
  rw [displayForSource.onLine, hline] at h
  dsimp only at h
  split at h
  -- No row is on the line: the last row of the line above that has one, if there is any.
  · next hnone =>
    split at h
    · next r hr =>
      obtain ⟨l, hl, hlast, hbetween⟩ := lastRowBefore_eq_some hr
      have hmem := List.mem_of_getLast? hlast
      obtain ⟨row, hrow, -⟩ := ((hp.listed l (hl.trans hlt)).2 r).1 hmem
      cases h
      refine Or.inl ⟨l, row, hl.le, fun l' h₁ h₂ => ?_, hrow, hmem, Or.inr ⟨hl, hlast, ?_⟩⟩
      · rcases h₂.lt_or_eq with h₂ | rfl
        · exact hbetween l' h₁ h₂
        · exact hnone
      · rw [hrow]
        rfl
    · next hbefore =>
      split at h
      · cases h
      · cases h
        refine Or.inr ⟨fun l hl => ?_, rfl, rfl⟩
        rcases hl.lt_or_eq with hl | rfl
        · exact lastRowBefore_eq_none hbefore l hl
        · exact hnone
  -- Else the best of the line's rows.
  · next first rest hcandidates =>
    obtain ⟨row, hrow, rfl⟩ := Option.map_eq_some_iff.1 h
    refine Or.inl ⟨_, row, le_rfl, fun l' h₁ h₂ => absurd h₁ (not_lt.2 h₂), hrow, ?_,
      Or.inl ⟨rfl, by rw [hcandidates]; rfl, rfl⟩⟩
    rw [hcandidates]
    rcases bestRow_mem p x (first :: rest) first with hbest | hbest
    · exact List.mem_cons.2 (Or.inl hbest)
    · exact hbest

omit hm in
/-- The offset shown lies in the row's text. -/
theorem ShowsAt.offset_mem {x : Int} {l : Nat} {pos : DisplayPosition} {row : ProjectedRow}
    (h : p.ShowsAt x l pos row) : 0 ≤ pos.offset ∧ pos.offset ≤ row.text.length := by
  have hrow := hp.rows row (List.mem_of_getElem? h.shown)
  rcases h.offset with ⟨-, -, hoffset⟩ | ⟨-, -, hoffset⟩
  · rw [hoffset]
    exact ProjectedRow.displayForSource_mem hrow.tiles hrow.measured x
  · rw [hoffset]
    exact ⟨Int.natCast_nonneg _, le_rfl⟩

/-- Of two places in order, the first is not shown behind the second: on one line by its rows, on
    two by the rows between them. -/
theorem ShowsAt.noLater {x y : Int} (hxy : x ≤ y) {l l' : Nat} {pos pos' : DisplayPosition}
    {row row' : ProjectedRow} (h : p.ShowsAt x l pos row) (h' : p.ShowsAt y l' pos' row') :
    pos.NoLater pos' := by
  have hlines : p.model.lineOfUtf16 x.toNat ≤ p.model.lineOfUtf16 y.toNat :=
    hm.lineOfUtf16_mono (Int.toNat_le_toNat hxy)
  have hlt := h'.line.trans_lt (hm.lineOfUtf16_lt y.toNat)
  have hne : ∀ {i : Nat}, i ∈ p.rowIndexesOnLine l → ¬p.rowIndexesOnLine l = [] :=
    fun hi hnil => by rw [hnil] at hi; cases hi
  -- In the same row, either both are shown by its segments or the later one at its end.
  have hsame : pos.row = pos'.row → l = p.model.lineOfUtf16 x.toNat → pos.offset ≤ pos'.offset := by
    intro heq hl
    have hrow := hp.rows row (List.mem_of_getElem? h.shown)
    have hrow' := h'.shown
    rw [← heq, h.shown] at hrow'
    obtain rfl := Option.some.inj hrow'
    rcases h.offset with ⟨-, -, hoffset⟩ | ⟨hlt, -⟩
    · rw [hoffset]
      rcases h'.offset with ⟨-, -, hoffset'⟩ | ⟨-, -, hoffset'⟩
      · rw [hoffset']
        exact ProjectedRow.displayForSource_mono hrow.tiles hrow.measured hxy
      · rw [hoffset']
        exact (ProjectedRow.displayForSource_mem hrow.tiles hrow.measured x).2
    · omega
  have hle : l ≤ l' := by
    by_contra hnot
    exact hne h.mem (h'.between l (not_le.1 hnot) (h.line.trans hlines))
  rcases hle.lt_or_eq with hll | rfl
  · have hrows := row_le_of_line_lt hp (hll.trans hlt) hlt hll h.mem h'.mem
    rcases hrows.lt_or_eq with hrows | heq
    · exact Or.inl hrows
    -- A row on both lines is on those between, so the earlier offset's line is the first.
    refine Or.inr ⟨heq, hsame heq ?_⟩
    by_contra hnot
    have hbelow : l < p.model.lineOfUtf16 x.toNat := lt_of_le_of_ne h.line hnot
    have hown := ((hp.listed l (hll.trans hlt)).2 pos.row).1 h.mem
    have hown' := ((hp.listed l' hlt).2 pos'.row).1 h'.mem
    obtain ⟨row₁, hrow₁, hown⟩ := hown
    obtain ⟨row₂, hrow₂, hown'⟩ := hown'
    rw [← heq, hrow₁] at hrow₂
    obtain rfl := Option.some.inj hrow₂
    have hnext : row₁.OwnsLine (l + 1) := by
      simp only [ProjectedRow.OwnsLine] at hown hown' ⊢
      omega
    have hmem := ((hp.listed (l + 1) (by omega)).2 pos.row).2 ⟨row₁, hrow₁, hnext⟩
    rw [h.between (l + 1) l.lt_succ_self hbelow] at hmem
    cases hmem
  -- On one line, the best row for the later offset is no earlier, and the last row is the last.
  have hlast : ∀ {r : Nat}, (p.rowIndexesOnLine l).getLast? = some r →
      ∀ i ∈ p.rowIndexesOnLine l, i ≤ r := by
    intro r hr i hi
    obtain ⟨init, heq⟩ := List.getLast?_eq_some_iff.1 hr
    have hsorted := (hp.listed l hlt).1
    rw [heq] at hi hsorted
    rcases List.mem_append.1 hi with hi | hi
    · exact ((List.pairwise_append.1 hsorted).2.2 i hi r List.mem_cons_self).le
    · exact (List.mem_singleton.1 hi).le
  have horder : ∀ {i : Nat}, i ∈ p.rowIndexesOnLine l → (p.rowIndexesOnLine l).headD 0 ≤ i := by
    intro i hi
    have hsorted := (hp.listed l hlt).1
    cases hlist : p.rowIndexesOnLine l with
    | nil => exact absurd hlist (hne hi)
    | cons first rest =>
      rw [hlist] at hi hsorted
      rcases List.mem_cons.1 hi with rfl | hi
      · exact le_rfl
      · exact ((List.pairwise_cons.1 hsorted).1 i hi).le
  rcases h.offset with ⟨hline, hbest, -⟩ | ⟨hline, hend, hoffset⟩
  · have hrows : pos.row ≤ pos'.row := by
      rcases h'.offset with ⟨-, hbest', -⟩ | ⟨-, hend', -⟩
      · rw [hbest, hbest']
        exact bestRow_mono hp hxy (hp.listed l hlt).1 (pairwise_starts hp hlt) le_rfl
          fun r hr => horder hr
      · exact hlast hend' _ h.mem
    rcases hrows.lt_or_eq with hrows | heq
    · exact Or.inl hrows
    · exact Or.inr ⟨heq, hsame heq hline⟩
  · rcases h'.offset with ⟨hline', -⟩ | ⟨-, hend', hoffset'⟩
    · exact absurd (hline.trans_le hlines) (by omega)
    · -- Neither shows on its own line: both are at the end of one row.
      have heq : pos.row = pos'.row := Option.some.inj (hend.symm.trans hend')
      have hrow' := h'.shown
      rw [← heq, h.shown] at hrow'
      obtain rfl := Option.some.inj hrow'
      exact Or.inr ⟨heq, (hoffset.trans hoffset'.symm).le⟩

/-- A projection without a row shows no offset. -/
theorem rows_eq_nil_of_onLine {x : Int} (h : displayForSource.onLine p x = none) : p.rows = [] := by
  have hline : (p.model.lineAt x).toNat = p.model.lineOfUtf16 x.toNat := Int.toNat_natCast _
  have hlt := hm.lineOfUtf16_lt x.toNat
  rw [displayForSource.onLine, hline] at h
  dsimp only at h
  split at h
  · split at h
    · cases h
    · split at h
      · next hempty => exact List.isEmpty_iff.1 hempty
      · cases h
  · next first rest hcandidates =>
    rw [Option.map_eq_none_iff] at h
    have hmem : p.bestRow x (first :: rest) first ∈ p.rowIndexesOnLine (p.model.lineOfUtf16 x.toNat) := by
      rw [hcandidates]
      exact (bestRow_mem p x (first :: rest) first).elim (fun h => List.mem_cons.2 (Or.inl h)) id
    obtain ⟨row, hrow, -⟩ := ((hp.listed _ hlt).2 _).1 hmem
    rw [h] at hrow
    cases hrow

/-- The position that `displayOf` gives: that of the offset, or the start where nothing shows. -/
theorem showsAt_or_start_getD (x : Int) :
    (∃ l row, p.ShowsAt x l ((displayForSource.onLine p x).getD ⟨0, 0, false⟩) row) ∨
      (∀ l ≤ p.model.lineOfUtf16 x.toNat, p.rowIndexesOnLine l = []) ∧
        ((displayForSource.onLine p x).getD ⟨0, 0, false⟩).row = 0 ∧
        ((displayForSource.onLine p x).getD ⟨0, 0, false⟩).offset = 0 := by
  cases h : displayForSource.onLine p x with
  | some pos => exact showsAt_or_start hp hm h
  | none =>
    refine Or.inr ⟨fun l hl => List.eq_nil_iff_forall_not_mem.2 fun i hi => ?_, rfl, rfl⟩
    obtain ⟨row, hrow, -⟩ := ((hp.listed l (hl.trans_lt (hm.lineOfUtf16_lt x.toNat))).2 i).1 hi
    rw [rows_eq_nil_of_onLine hp hm h] at hrow
    cases hrow

/-- A later offset shows at no earlier position. -/
theorem onLine_mono {x y : Int} (hxy : x ≤ y) :
    ((displayForSource.onLine p x).getD ⟨0, 0, false⟩).NoLater
      ((displayForSource.onLine p y).getD ⟨0, 0, false⟩) := by
  rcases showsAt_or_start_getD hp hm x with ⟨l, row, h⟩ | ⟨-, hrow, hoffset⟩
  · rcases showsAt_or_start_getD hp hm y with ⟨l', row', h'⟩ | ⟨hnone, -, -⟩
    · exact h.noLater hp hm hxy h'
    · have hmem := h.mem
      rw [hnone l (h.line.trans (hm.lineOfUtf16_mono (Int.toNat_le_toNat hxy)))] at hmem
      cases hmem
  · have hnonneg : 0 ≤ ((displayForSource.onLine p y).getD ⟨0, 0, false⟩).offset := by
      rcases showsAt_or_start_getD hp hm y with ⟨l', row', h'⟩ | ⟨-, -, hoffset'⟩
      · exact (h'.offset_mem hp).1
      · exact hoffset'.ge
    rw [DisplayPosition.NoLater, hrow, hoffset]
    rcases Nat.eq_zero_or_pos ((displayForSource.onLine p y).getD ⟨0, 0, false⟩).row with hzero | hpos
    · exact Or.inr ⟨hzero.symm, hnonneg⟩
    · exact Or.inl hpos

/-- Where there are rows, a position is in the text of one. -/
theorem onLine_mem (hrows : p.rows ≠ []) (x : Int) :
    ∃ row, p.rows[((displayForSource.onLine p x).getD ⟨0, 0, false⟩).row]? = some row ∧
      0 ≤ ((displayForSource.onLine p x).getD ⟨0, 0, false⟩).offset ∧
      ((displayForSource.onLine p x).getD ⟨0, 0, false⟩).offset ≤ row.text.length := by
  rcases showsAt_or_start_getD hp hm x with ⟨l, row, h⟩ | ⟨-, hrow, hoffset⟩
  · exact ⟨row, h.shown, h.offset_mem hp⟩
  · obtain ⟨row, rest, heq⟩ := List.exists_cons_of_ne_nil hrows
    rw [hrow, hoffset, heq]
    exact ⟨row, rfl, le_rfl, Int.natCast_nonneg _⟩

end

end Projection

/-! ## The visible text -/

namespace Document

variable (gs : Graphemes) (d : Document)

/-- The range of a row's text that is visible from the first position to the last. -/
def visibleRange (first last : DisplayPosition) (i : Nat) (row : ProjectedRow) : Int × Int :=
  (if i = first.row then first.offset else 0,
    if i = last.row then last.offset else row.text.length)

/-- `visibleText`; `none` is the throw of a missing row or of a `substring` out of range. -/
def visibleText (start stop : Int) : Option Text :=
  let first := d.displayOf gs start
  let last := d.displayOf gs stop
  ((List.range' first.row (last.row + 1 - first.row)).mapM fun i =>
    d.projection.rows[i]?.bind fun row =>
      let range := visibleRange first last i row
      if 0 ≤ range.1 ∧ range.1 ≤ range.2 ∧ range.2 ≤ row.text.length then
        some (row.text.substring range.1 range.2)
      else none).map (List.intercalate [0x0A])

variable {gs d}

section

variable (hd : d.Live gs) (hm : d.model.OrderConforms d.source)

include hd hm

/-- Places in order are shown in order. -/
theorem displayOf_mono {x y : Int} (hxy : x ≤ y) :
    (d.displayOf gs x).NoLater (d.displayOf gs y) :=
  Projection.onLine_mono (hd.built.ordered hm) hm.table
    (Projection.legalize_mono hd.built hd.conforms hxy)

/-- Between two positions the range of each row is in its text. -/
theorem visibleRange_mem {x y : Int} (hxy : x ≤ y) {i : Nat} {row : ProjectedRow}
    (hrow : d.projection.rows[i]? = some row) :
    0 ≤ (visibleRange (d.displayOf gs x) (d.displayOf gs y) i row).1 ∧
      (visibleRange (d.displayOf gs x) (d.displayOf gs y) i row).1 ≤
        (visibleRange (d.displayOf gs x) (d.displayOf gs y) i row).2 ∧
      (visibleRange (d.displayOf gs x) (d.displayOf gs y) i row).2 ≤ row.text.length := by
  have hp := hd.built.ordered hm
  have hrows : d.projection.rows ≠ [] := fun hnil => by rw [hnil] at hrow; cases hrow
  have hmem : ∀ z : Int, i = (d.displayOf gs z).row →
      0 ≤ (d.displayOf gs z).offset ∧ (d.displayOf gs z).offset ≤ row.text.length := by
    intro z hi
    obtain ⟨row', hrow', hoffset⟩ := Projection.onLine_mem hp hm.table hrows
      (d.projection.legalize gs z)
    rw [hi] at hrow
    obtain rfl := Option.some.inj (hrow.symm.trans hrow')
    exact hoffset
  simp only [visibleRange]
  split_ifs with hfirst hlast hlast
  · rcases displayOf_mono hd hm hxy with hlt | ⟨-, hle⟩
    · omega
    · exact ⟨(hmem x hfirst).1, hle, (hmem y hlast).2⟩
  · exact ⟨(hmem x hfirst).1, (hmem x hfirst).2, le_rfl⟩
  · exact ⟨le_rfl, (hmem y hlast).1, (hmem y hlast).2⟩
  · exact ⟨le_rfl, Int.natCast_nonneg _, le_rfl⟩

/-- Display order follows source order, so the text from one offset to a later one is that of
    rows in order, each with a range of its text that is not reversed. -/
theorem display_order :
    (∀ x y : Int, x ≤ y → (d.displayOf gs x).NoLater (d.displayOf gs y)) ∧
    (∀ x y : Int, x ≤ y → ∀ pos ∈ d.projection.displayForSource x none,
      ∀ pos' ∈ d.projection.displayForSource y none, pos.NoLater pos') ∧
    ∀ start stop : Int, start ≤ stop →
      (d.displayOf gs start).row ≤ (d.displayOf gs stop).row ∧
      (∀ (i : Nat) (row : ProjectedRow), d.projection.rows[i]? = some row →
        0 ≤ (visibleRange (d.displayOf gs start) (d.displayOf gs stop) i row).1 ∧
        (visibleRange (d.displayOf gs start) (d.displayOf gs stop) i row).1 ≤
          (visibleRange (d.displayOf gs start) (d.displayOf gs stop) i row).2 ∧
        (visibleRange (d.displayOf gs start) (d.displayOf gs stop) i row).2 ≤ row.text.length) ∧
      (d.projection.rows ≠ [] → (d.visibleText gs start stop).isSome = true) := by
  have hp := hd.built.ordered hm
  refine ⟨fun x y => displayOf_mono hd hm, fun x y hxy pos hpos pos' hpos' => ?_,
    fun start stop hle => ⟨?_, fun i row => visibleRange_mem hd hm hle, fun hrows => ?_⟩⟩
  · have hmono := Projection.onLine_mono hp hm.table hxy
    rw [Projection.displayForSource] at hpos hpos'
    rwa [Option.mem_def.1 hpos, Option.mem_def.1 hpos'] at hmono
  · rcases displayOf_mono hd hm hle with hlt | ⟨heq, -⟩
    · exact hlt.le
    · exact heq.le
  · -- Each row up to the last one is there, and its range is in its text.
    obtain ⟨last, hlast, -⟩ := Projection.onLine_mem hp hm.table hrows
      (d.projection.legalize gs stop)
    have hlength : (d.displayOf gs stop).row < d.projection.rows.length :=
      (List.getElem?_eq_some_iff.1 hlast).1
    rw [visibleText, Option.isSome_map]
    dsimp only
    have hsome : ∀ is : List Nat, (∀ i ∈ is, i < d.projection.rows.length) →
        (is.mapM fun i => d.projection.rows[i]?.bind fun row =>
          if 0 ≤ (visibleRange (d.displayOf gs start) (d.displayOf gs stop) i row).1 ∧
            (visibleRange (d.displayOf gs start) (d.displayOf gs stop) i row).1 ≤
              (visibleRange (d.displayOf gs start) (d.displayOf gs stop) i row).2 ∧
            (visibleRange (d.displayOf gs start) (d.displayOf gs stop) i row).2 ≤ row.text.length then
            some (row.text.substring
              (visibleRange (d.displayOf gs start) (d.displayOf gs stop) i row).1
              (visibleRange (d.displayOf gs start) (d.displayOf gs stop) i row).2)
          else none).isSome = true := by
      intro is his
      induction is with
      | nil => rfl
      | cons i is ih =>
        obtain ⟨hi, his⟩ := List.forall_mem_cons.1 his
        obtain ⟨texts, htexts⟩ := Option.isSome_iff_exists.1 (ih his)
        rw [List.mapM_cons, htexts, List.getElem?_eq_getElem hi, Option.bind_some,
          if_pos (visibleRange_mem hd hm hle (List.getElem?_eq_getElem hi))]
        rfl
    refine hsome _ fun i hi => ?_
    obtain ⟨k, hk, rfl⟩ := List.mem_range'.1 hi
    omega

end

/-- The model of two paragraphs is in order. -/
theorem twoParagraphs_orderConforms :
    (twoParagraphs 5).OrderConforms (Text.ofString "a\n\nbc") :=
  have htable : ∀ b < (twoParagraphs 5).blockCount,
      (twoParagraphs 5).blockKind b ≠ BlockKind.table := by decide
  { twoParagraphs_schemaConforms with
    firstLine := by decide
    blockRange := by decide
    leaves := by decide
    startLine := by decide
    endLine := by decide
    contentRange := by decide
    definitionRange := by decide
    definitions := by decide
    definitionLeaf := by decide
    delimiterLeaf := fun t ht h => absurd h (htable t ht)
    delimiterDefinition := fun t ht h => absurd h (htable t ht)
    delimiterTable := fun t ht _ _ h => absurd h (htable t ht)
    inline := fun b hb _ => by
      have hcases : ∀ b < (twoParagraphs 5).blockCount, b = 0 ∨ b = 1 ∨ b = 2 := by decide
      rcases hcases b hb with rfl | rfl | rfl <;>
        exact ⟨by decide, by decide, by decide, by decide,
          by decide, by decide⟩ }

/-- From the first letter to the next to last, over the blank line between them. -/
theorem display_order_letters :
    letters.visibleText .units 0 4 = some (Text.ofString "a\n\nb") ∧
      (letters.displayOf .units 0).NoLater (letters.displayOf .units 4) ∧
      (letters.displayOf .units 0).row ≤ (letters.displayOf .units 4).row := by
  obtain ⟨hmono, -, htext⟩ := display_order letters_live twoParagraphs_orderConforms
  exact ⟨by decide, hmono 0 4 (by decide), (htext 0 4 (by decide)).1⟩

end Document

end Flark
