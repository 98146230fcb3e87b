import Flark.Kernel.DisplayOrder

/-!
# Resources

The links and images of a document with their resolved values (`kernel/resource.dart`), and
the info strings of its fences, as a host reads them.

* `Document.codeApart`: no code row of a live document is an image or stands in a table.
-/

namespace Flark

/-- `InlineResource`. A value that the model cannot give, whose reading would throw, is
    `none`. -/
structure InlineResource where
  run : Nat
  block : Nat
  isImage : Bool
  start : Int
  stop : Int
  contentStart : Int
  contentEnd : Int
  destination : Option Text
  title : Option Text
  /-- Visible text, without Markdown. -/
  text : Option Text
  deriving DecidableEq

namespace Document

variable (gs : Graphemes) (d : Document)

/-- `InlineResource.fromRun`. -/
def resourceOfRun (run : Nat) : InlineResource where
  run := run
  block := d.model.runBlock run
  isImage := d.model.runKind run == RunKind.image
  start := d.model.runStart run
  stop := d.model.runEnd run
  contentStart := d.model.runContentStart run
  contentEnd := d.model.runContentEnd run
  destination := d.model.linkDestination run
  title := d.model.linkTitle run
  text := d.visibleText gs (d.model.runContentStart run) (d.model.runContentEnd run)

/-- The images only, which spare a layout the links. -/
def images : List InlineResource :=
  ((List.range d.model.runCount).filter fun run => d.model.runKind run == RunKind.image).map
    (d.resourceOfRun gs)

/-- The info string of the fence that a row belongs to. -/
def codeInfo (row : ProjectedRow) : Option Text :=
  if row.fenced then some (d.source.substring row.codeInfoStart row.codeInfoEnd) else none

end Document

/-! ## Code rows -/

namespace RenderModel

/-- The schema's invariants that keep images and tables apart from code. An image is a run of an
    inline leaf, on the leaf's lines, and is not empty; a code block has lines, reaches no
    further, and shares none with an inline leaf; a table cell has a row. -/
structure ResourcesConform (m : RenderModel) (src : Text) : Prop where
  imageLeaf : ∀ r < m.runCount, m.runKind r = RunKind.image →
    m.runBlock r < m.blockCount ∧ isInline (m.blockKind (m.runBlock r)) = true
  imageLines : ∀ r < m.runCount, m.runKind r = RunKind.image →
    m.linesStart src (m.runBlock r) ≤ m.runStart r ∧ m.runStart r < m.runEnd r ∧
      m.runEnd r ≤ m.linesEnd src (m.runBlock r)
  codeLines : ∀ b < m.blockCount, m.blockKind b = BlockKind.codeBlock →
    m.blockLineCount b ≠ 0 ∧ m.blockEnd b ≤ m.linesEnd src b
  codeApart : ∀ b < m.blockCount, m.blockKind b = BlockKind.codeBlock → ∀ b' < m.blockCount,
    isInline (m.blockKind b') = true →
      m.blockFirstLine b + m.blockLineCount b ≤ m.blockFirstLine b' ∨
        m.blockFirstLine b' + m.blockLineCount b' ≤ m.blockFirstLine b
  cellRow : ∀ b < m.blockCount, m.blockKind b = BlockKind.tableCell → m.blockParent b ≠ noParent

end RenderModel

/-- A code row has the extent of a code block; a cell has a table, which a code row has not. -/
structure ProjectedRow.CodeExtent (m : RenderModel) (src : Text) (row : ProjectedRow) : Prop where
  code : row.kind = .codeBlock → row.tableBlock = -1 ∧ ∃ b < m.blockCount,
    m.blockKind b = BlockKind.codeBlock ∧ (m.linesStart src b : Int) ≤ row.sourceStart ∧
      row.sourceEnd ≤ m.linesEnd src b
  cell : row.kind = .tableCell → 0 ≤ row.tableBlock

theorem ProjectedRow.CodeExtent.congr {m : RenderModel} {src : Text} {row row' : ProjectedRow}
    (h : row.content = row'.content) (hrow : row.CodeExtent m src) : row'.CodeExtent m src := by
  have hfields : row.kind = row'.kind ∧ row.tableBlock = row'.tableBlock ∧
      row.sourceStart = row'.sourceStart ∧ row.sourceEnd = row'.sourceEnd :=
    ⟨congrArg (·.kind) h, congrArg (·.tableBlock) h, congrArg (·.sourceStart) h,
      congrArg (·.sourceEnd) h⟩
  obtain ⟨hkind, htable, hstart, hend⟩ := hfields
  obtain ⟨hcode, hcell⟩ := hrow
  rw [hkind, htable, hstart, hend] at hcode
  rw [hkind, htable] at hcell
  exact ⟨hcode, hcell⟩

section

variable {gs : Graphemes} {m : RenderModel} {src : Text} {options : ProjectionOptions} {b : Nat}

theorem kind_inlineRow_ne (leaf : LeafRecords) (block : Nat) (shells : List Shell)
    (cell : CellFields) :
    (inlineRow gs m src options block leaf shells cell).kind ≠ .codeBlock := by
  simp only [inlineRow]
  split
  · exact fun h => by cases h
  · dsimp only
    split
    · exact fun h => by cases h
    · split <;> exact fun h => by cases h

/-- The extent of a code block's row is in the block's lines. -/
theorem literalRow_extent (hm : m.SchemaConforms src) (hr : m.ResourcesConform src)
    (hb : b < m.blockCount) (hkind : m.blockKind b = BlockKind.codeBlock) (shells : List Shell) :
    (m.linesStart src b : Int) ≤ (literalRow m src b (m.leaf b) shells).sourceStart ∧
      (literalRow m src b (m.leaf b) shells).sourceEnd ≤ m.linesEnd src b := by
  have hleaf : RenderModel.isLeaf (m.blockKind b) = true := by
    rw [hkind]
    decide
  obtain ⟨hlines, hend⟩ := hr.codeLines b hb hkind
  have hwithin := (hm.leaf b hb hleaf hlines).content
  have hrecords : (m.leaf b).content = m.contentOf b := rfl
  simp only [literalRow]
  cases hcontent : m.contentOf b with
  | nil =>
    rw [literalResult, hrecords, hcontent]
    exact ⟨Int.ofNat_le.2 (hm.blockStart b hb), Int.ofNat_le.2 hend⟩
  | cons c rest =>
    obtain ⟨hzero, -⟩ := content_first_le hm hb hleaf hcontent
    have hfirst : ∀ x : Int, (if (-1 : Int) < 0 then c.start else x) = c.start := fun _ => rfl
    have hstart : (literalResult src (m.leaf b)).sourceStart = c.start := by
      simp only [literalResult, hrecords, hcontent, literalWalk]
      rw [literalWalk_extent.1 (by exact hzero)]
      rfl
    have hstop : ∃ last ∈ m.contentOf b,
        (literalResult src (m.leaf b)).sourceEnd = last.stop := by
      rw [literalResult, hrecords, literalWalk_extent.2]
      cases hlast : (m.contentOf b).getLast? with
      | none =>
        rw [List.getLast?_eq_none_iff.1 hlast] at hcontent
        cases hcontent
      | some last => exact ⟨last, List.mem_of_getLast? hlast, rfl⟩
    obtain ⟨last, hlast, hstop⟩ := hstop
    have hfirstIn := hwithin c (hcontent ▸ List.mem_cons_self)
    have hlastIn := hwithin last hlast
    have hlo := hlastIn.lo_le
    have hle := hlastIn.start_le
    rw [hstart, hstop, if_neg (not_lt.2 hzero), if_neg (by omega)]
    exact ⟨hfirstIn.lo_le, hlastIn.le_hi⟩

/-- The row of a table cell names its table. -/
theorem tableBlock_inlineRow (hr : m.ResourcesConform src) (hb : b < m.blockCount)
    (shells : List Shell)
    (h : (inlineRow gs m src options b (m.leaf b) shells (m.leafCell b)).kind = .tableCell) :
    0 ≤ (inlineRow gs m src options b (m.leaf b) shells (m.leafCell b)).tableBlock := by
  simp only [inlineRow] at h ⊢
  split at h
  · cases h
  · next hbare =>
    rw [if_neg hbare]
    have hkind : m.blockKind b = BlockKind.tableCell := by
      by_contra hne
      have hne' : ¬(m.leaf b).kind = BlockKind.tableCell := hne
      dsimp only at h
      rw [if_neg hne'] at h
      split at h <;> cases h
    dsimp only
    rw [RenderModel.leafCell, if_pos hkind, RenderModel.cellFields]
    dsimp only
    rw [if_neg (hr.cellRow b hb hkind)]
    exact Int.natCast_nonneg _

theorem codeExtent_buildRows (hm : m.SchemaConforms src) (hr : m.ResourcesConform src) :
    ∀ r ∈ buildRows gs m src options fun _ => none, r.CodeExtent m src := by
  refine forall_buildRows (fun d => ⟨(fun h => by cases h), (fun h => by cases h)⟩) (fun b hb _ => ?_)
    (fun b _ _ => ⟨(fun h => by cases h), (fun h => by cases h)⟩) (fun b _ row _ hrow => ?_) fun l _ => ?_
  · rw [RenderModel.freshRow]
    split
    · exact ⟨fun h => absurd h (kind_inlineRow_ne _ _ _ _), tableBlock_inlineRow hr hb _⟩
    · refine ⟨fun h => ⟨rfl, b, hb, ?_⟩, fun h => ?_⟩
      · have hkind : m.blockKind b = BlockKind.codeBlock := by
          by_contra hne
          have hne' : ¬(m.leaf b).kind = BlockKind.codeBlock := hne
          simp only [literalRow, if_neg hne'] at h
          cases h
        exact ⟨hkind, literalRow_extent hm hr hb hkind _⟩
      · simp only [literalRow] at h
        split at h <;> cases h
  · -- The delimiter line of a table is a cell of it.
    simp only [RenderModel.delimiterRow] at hrow
    split at hrow
    · cases hrow
      exact ⟨(fun h => by cases h), fun _ => Int.natCast_nonneg _⟩
    · split at hrow
      · cases hrow
        exact ⟨(fun h => by cases h), fun _ => Int.natCast_nonneg _⟩
      · cases hrow
  · simp only [RenderModel.blankRow]
    split <;> exact ⟨(fun h => by cases h), (fun h => by cases h)⟩

end

/-- The code rows of a projection are as those of the one built anew. -/
theorem Built.codeExtent {gs : Graphemes} {p : Projection} (h : Built gs p)
    (hm : p.model.SchemaConforms p.source) (hr : p.model.ResourcesConform p.source) :
    ∀ row ∈ p.rows, row.CodeExtent p.model p.source :=
  h.forall_rows (fun _ _ hcontent hrow => hrow.congr hcontent) (codeExtent_buildRows hm hr)

/-- Code rows apart from images and tables. -/
structure CodeApart (rows : List ProjectedRow) (images : List InlineResource) : Prop where
  image : ∀ row ∈ rows, row.kind = .codeBlock → ∀ image ∈ images,
    ¬(image.start = row.sourceStart ∧ image.stop = row.sourceEnd)
  table : ∀ row ∈ rows, row.kind = .codeBlock → ∀ cell ∈ rows, cell.kind = .tableCell →
    row.tableBlock ≠ cell.tableBlock

theorem CodeApart.mono {rows rows' : List ProjectedRow} {images images' : List InlineResource}
    (h : CodeApart rows images) (hrows : rows' ⊆ rows) (himages : images' ⊆ images) :
    CodeApart rows' images' where
  image row hrow hkind image himage := h.image row (hrows hrow) hkind image (himages himage)
  table row hrow hkind cell hcell := h.table row (hrows hrow) hkind cell (hrows hcell)

theorem Document.codeApart {gs : Graphemes} {d : Document} (hd : d.Live gs)
    (hr : d.model.ResourcesConform d.source) : CodeApart d.projection.rows (d.images gs) := by
  have hextent := hd.built.codeExtent hd.conforms hr
  refine ⟨fun row hrow hkind image himage => ?_, fun row hrow hkind cell hcell hkind' => ?_⟩
  · rintro ⟨hstart, hstop⟩
    obtain ⟨run, hrun, rfl⟩ := List.mem_map.1 himage
    obtain ⟨hcount, hrunKind⟩ := List.mem_filter.1 hrun
    have hcount := List.mem_range.1 hcount
    have hrunKind := eq_of_beq hrunKind
    obtain ⟨hb', hinline⟩ := hr.imageLeaf run hcount hrunKind
    obtain ⟨hlo, hlt, hhi⟩ := hr.imageLines run hcount hrunKind
    obtain ⟨-, b, hb, hcode, hfirst, hlast⟩ := (hextent row hrow).code hkind
    change (d.model.runStart run : Int) = row.sourceStart at hstart
    change (d.model.runEnd run : Int) = row.sourceEnd at hstop
    change (d.model.linesStart d.source b : Int) ≤ row.sourceStart at hfirst
    change row.sourceEnd ≤ d.model.linesEnd d.source b at hlast
    -- The lines of the image's leaf are all before the code's lines or all behind them.
    rcases hr.codeApart b hb hcode _ hb' hinline with hbefore | hbehind
    · have : d.model.linesEnd d.source b ≤ d.model.linesStart d.source (d.model.runBlock run) :=
        lineBound_mono hbefore
      omega
    · have : d.model.linesEnd d.source (d.model.runBlock run) ≤ d.model.linesStart d.source b :=
        lineBound_mono hbehind
      omega
  · have htable := ((hextent row hrow).code hkind).1
    have hcellTable := (hextent cell hcell).cell hkind'
    omega

end Flark
