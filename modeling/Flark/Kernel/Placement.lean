import Flark.Kernel.Caret
import Flark.Kernel.Shape
import Flark.Lib.Buckets

/-!
# Placing the rows

The last part of `_Builder.build`: rows were added per kind, so they are bucketed by first
line, sorted where a line holds several out of order, numbered, and listed under the lines
they own (`placeRows`, `Projection.build`).

* `build_eq_of`: these loops give the projection that `Projection.of` describes;
* `Projection.build_accountsForLines`: every source line is accounted for by it.
-/

namespace Flark

open Buckets

/-- The line is in the line range of the row. -/
def ProjectedRow.OwnsLine (row : ProjectedRow) (l : Nat) : Prop :=
  row.firstLine ≤ l ∧ l < row.firstLine + row.lineCount

instance (row : ProjectedRow) (l : Nat) : Decidable (row.OwnsLine l) :=
  inferInstanceAs (Decidable (_ ∧ _))

/-- `_index`: the place of the row. -/
def ProjectedRow.numbered (row : ProjectedRow) (i : Nat) : ProjectedRow := { row with index := i }

@[simp] theorem ProjectedRow.ownsLine_numbered {row : ProjectedRow} {i l : Nat} :
    (row.numbered i).OwnsLine l ↔ row.OwnsLine l := Iff.rfl

/-! ## The loops -/

/-- The rows placed so far, and the indexes listed under each line. -/
structure Placement where
  ordered : List ProjectedRow
  rowsByLine : List (List Nat)

/-- One turn of the loop over the rows of a bucket. -/
def placeRow (lineCount : Nat) (st : Placement) (row : ProjectedRow) : Placement :=
  let index := st.ordered.length
  { ordered := st.ordered ++ [row.numbered index]
    rowsByLine := pushRange index
      (min (row.firstLine + row.lineCount) lineCount - row.firstLine) row.firstLine st.rowsByLine }

/-- One turn of the loop over the buckets. -/
def placeBucket (lineCount : Nat) (st : Placement) (bucket : List ProjectedRow) : Placement :=
  (sortUnlessAscending (fun a b : ProjectedRow => a.sourceStart ≤ b.sourceStart) bucket).foldl
    (placeRow lineCount) st

def placeRows (lineCount : Nat) (rows : List ProjectedRow) : Placement :=
  (distribute (fun r => min r.firstLine lineCount) (lineCount + 1) rows).foldl
    (placeBucket lineCount) ⟨[], List.replicate lineCount []⟩

/-- `_Builder.build`. -/
def Projection.build (gs : Graphemes) (m : RenderModel) (src : Text) (options : ProjectionOptions)
    (previous : Option Projection) : Projection :=
  let reused : Nat → Option ProjectedRow := fun b =>
    match previous with
    | none => none
    | some previous =>
      if previous.options = options then (Reuse.mk previous m src).reusedRow b else none
  let placed := placeRows m.lineCount (buildRows gs m src options reused)
  { model := m
    source := src
    rows := placed.ordered
    rowsByLine := placed.rowsByLine
    options := options }

/-! ## What the loops compute -/

/-- The rows numbered in order, and listed under the lines they own. -/
def placementOf (lineCount : Nat) (rows : List ProjectedRow) : Placement :=
  let ordered := rows.mapIdx fun i r => r.numbered i
  ⟨ordered, (List.range lineCount).map (rowsOn ordered)⟩

/-- The last row is on the lines it owns, behind the others. -/
theorem rowsOn_append (rows : List ProjectedRow) (row : ProjectedRow) (l : Nat) :
    rowsOn (rows ++ [row]) l =
      rowsOn rows l ++ if row.OwnsLine l then [rows.length] else [] := by
  rw [rowsOn, rowsOn, List.length_append, List.length_singleton, List.range_succ,
    List.filter_append, List.filter_singleton, List.getElem?_concat_length, Option.any_some]
  congr 1
  · refine List.filter_congr fun i hi => ?_
    rw [List.getElem?_append_left (List.mem_range.1 hi)]
  · have hown : (decide (row.firstLine ≤ l) && decide (l < row.firstLine + row.lineCount)) =
        decide (row.OwnsLine l) := (Bool.decide_and _ _).symm
    rw [hown, Bool.cond_decide]

/-- Placing a row places it behind the others on each of its lines. -/
theorem placeRow_placementOf (lineCount : Nat) (rows : List ProjectedRow) (row : ProjectedRow) :
    placeRow lineCount (placementOf lineCount rows) row = placementOf lineCount (rows ++ [row]) := by
  rw [placeRow, placementOf, placementOf, List.mapIdx_concat]
  dsimp only
  rw [List.length_mapIdx]
  congr 1
  refine List.ext_getElem? fun l => ?_
  rw [getElem?_pushRange, List.getElem?_map, List.getElem?_map, Option.map_map]
  rcases Nat.lt_or_ge l lineCount with hl | hl
  · rw [List.getElem?_range hl, Option.map_some, Option.map_some, Function.comp_apply,
      rowsOn_append, List.length_mapIdx]
    by_cases hown : row.OwnsLine l
    · have := hown.1
      have := hown.2
      rw [if_pos (by omega), if_pos (ProjectedRow.ownsLine_numbered.2 hown)]
    · rw [if_neg (fun h => hown ⟨h.1, by omega⟩),
        if_neg (mt ProjectedRow.ownsLine_numbered.1 hown), List.append_nil]
  · rw [List.getElem?_eq_none (by rwa [List.length_range])]
    rfl

/-- Rows placed one after the other are placed in their order. -/
theorem foldl_placeRow (lineCount : Nat) (rows added : List ProjectedRow) :
    added.foldl (placeRow lineCount) (placementOf lineCount rows) =
      placementOf lineCount (rows ++ added) := by
  induction added generalizing rows with
  | nil => rw [List.append_nil]; rfl
  | cons row added ih =>
    rw [List.foldl_cons, placeRow_placementOf, ih, List.append_assoc]
    rfl

/-- Buckets placed one after the other are placed, each sorted by where its rows start. -/
theorem foldl_placeBucket (lineCount : Nat) (rows : List ProjectedRow)
    (buckets : List (List ProjectedRow)) :
    buckets.foldl (placeBucket lineCount) (placementOf lineCount rows) =
      placementOf lineCount (rows ++ buckets.flatMap fun bucket =>
        bucket.insertionSort fun a b => a.sourceStart ≤ b.sourceStart) := by
  have htrans : IsTrans ProjectedRow fun a b => a.sourceStart ≤ b.sourceStart :=
    ⟨fun _ _ _ => le_trans⟩
  induction buckets generalizing rows with
  | nil => rw [List.flatMap_nil, List.append_nil]; rfl
  | cons bucket buckets ih =>
    rw [List.foldl_cons, placeBucket, sortUnlessAscending_eq, foldl_placeRow, ih,
      List.flatMap_cons, List.append_assoc]

/-- The loops order the rows, number them and list them by line. -/
theorem placeRows_eq (lineCount : Nat) (rows : List ProjectedRow) :
    placeRows lineCount rows = placementOf lineCount (orderRows lineCount rows) := by
  have hempty : (⟨[], List.replicate lineCount []⟩ : Placement) = placementOf lineCount [] := by
    have hrows : rowsOn [] = fun _ => [] := rfl
    rw [placementOf, List.mapIdx_nil, hrows, List.map_const', List.length_range]
  rw [placeRows, hempty, foldl_placeBucket, distribute_eq, List.flatMap_map, List.nil_append,
    orderRows]

/-- The projection that the loops build is the one that the order of rows gives. -/
theorem Projection.build_eq_of (gs : Graphemes) (m : RenderModel) (src : Text)
    (options : ProjectionOptions) (previous : Option Projection) :
    Projection.build gs m src options previous = Projection.of gs m src options previous := by
  rw [Projection.build, Projection.of, placeRows_eq]
  rfl

/-! ## Lines that are claimed -/

namespace RenderModel

variable (m : RenderModel)

/-- The line is one of a definition's. -/
def DefinitionClaims (d l : Nat) : Prop :=
  m.lineOfUtf16 (m.definitionStart d) ≤ l ∧
    l ≤ m.lineOfUtf16 (if m.definitionStart d < m.definitionEnd d then m.definitionEnd d - 1
      else m.definitionStart d)

/-- The line is one of a block's, and the block is a leaf (a thematic break is one) or a
    table. -/
def BlockClaims (b l : Nat) : Prop :=
  (isLeaf (m.blockKind b) = true ∨ m.blockKind b = BlockKind.thematicBreak ∨
      m.blockKind b = BlockKind.table) ∧
    m.blockFirstLine b ≤ l ∧ l < m.blockFirstLine b + m.blockLineCount b

def LineClaimed (l : Nat) : Prop :=
  (∃ d < m.definitionCount, m.DefinitionClaims d l) ∨ ∃ b < m.blockCount, m.BlockClaims b l

/-- The schema's invariants that the order of rows relies on: the first line of a block is a
    line of the source. -/
structure LinesConform (src : Text) : Prop extends m.Conforms src where
  firstLine : ∀ b < m.blockCount, m.blockFirstLine b < m.lineCount

end RenderModel

namespace Building

variable {st : Building}

/-- A row that is added claims its lines. -/
theorem claims_addRow {row : ProjectedRow} {l : Nat} :
    (st.addRow row).claims l = true ↔ st.claims l = true ∨ row.OwnsLine l := by
  rw [claims, addRow, List.any_cons, Bool.or_eq_true, Bool.and_eq_true, decide_eq_true_eq,
    decide_eq_true_eq, or_comm]
  rfl

/-- Lines that are claimed are claimed. -/
theorem claims_claim {first n l : Nat} :
    (st.claim first n).claims l = true ↔ st.claims l = true ∨ (first ≤ l ∧ l < first + n) := by
  rw [claims, claim, List.any_cons, Bool.or_eq_true, Bool.and_eq_true, decide_eq_true_eq,
    decide_eq_true_eq, or_comm]
  rfl

end Building

section

variable {gs : Graphemes} {m : RenderModel} {src : Text} {options : ProjectionOptions}

/-- The row of a definition owns the lines that the definition claims. -/
theorem ownsLine_definitionRow {d l : Nat} :
    (m.definitionRow src d).OwnsLine l ↔ m.DefinitionClaims d l := by
  rw [RenderModel.DefinitionClaims, ProjectedRow.OwnsLine, RenderModel.definitionRow]
  dsimp only
  omega

/-- A row begins on its leaf's first line, or further down in the leaf. -/
theorem rowLines_first (leaf : LeafRecords) : leaf.rowLines.1 = leaf.firstLine ∨
    leaf.firstLine < leaf.rowLines.1 ∧ leaf.rowLines.1 < leaf.firstLine + leaf.lineCount := by
  rw [LeafRecords.rowLines]
  split
  · exact Or.inl rfl
  · split
    · exact Or.inl rfl
    · split
      · next h => exact Or.inr h
      · exact Or.inl rfl

/-- The row of a leaf is on the leaf's lines. -/
theorem freshRow_lines (b : Nat) :
    ((m.freshRow src gs options b).firstLine : Int) = (m.leaf b).rowLines.1 ∧
      (m.freshRow src gs options b).lineCount = (m.leaf b).rowLines.2 := by
  have hnonneg : 0 ≤ (m.leaf b).rowLines.1 :=
    (Int.natCast_nonneg (m.blockFirstLine b)).trans (rowLines_within _).1
  rw [RenderModel.freshRow]
  split
  · simp only [inlineRow]
    split
    · next hbare => exact ⟨Int.toNat_of_nonneg hnonneg, hbare.2.1.symm⟩
    · exact ⟨Int.toNat_of_nonneg hnonneg, rfl⟩
  · next hkind =>
    have hkind : (m.leaf b).kind ≠ BlockKind.paragraph ∧ (m.leaf b).kind ≠ BlockKind.heading := by
      refine ⟨fun h => hkind ?_, fun h => hkind ?_⟩ <;>
      · rw [show m.blockKind b = (m.leaf b).kind from rfl, h]
        rfl
    rw [LeafRecords.rowLines, if_pos hkind]
    exact ⟨Int.toNat_of_nonneg (Int.natCast_nonneg (m.blockFirstLine b)), rfl⟩

/-- A leaf's row owns lines of the leaf only. -/
theorem ownsLine_freshRow {b l : Nat} (h : (m.freshRow src gs options b).OwnsLine l) :
    m.blockFirstLine b ≤ l ∧ l < m.blockFirstLine b + m.blockLineCount b := by
  obtain ⟨hfirst, hcount⟩ := @freshRow_lines gs m src options b
  obtain ⟨hle, hsum⟩ := rowLines_within (m.leaf b)
  have hline : (m.leaf b).firstLine = m.blockFirstLine b := rfl
  have hlines : (m.leaf b).lineCount = m.blockLineCount b := rfl
  rw [ProjectedRow.OwnsLine, hcount] at h
  omega

/-- The row of a table cell owns all lines of the cell. -/
theorem ownsLine_cell {b l : Nat} (hkind : m.blockKind b = BlockKind.tableCell) :
    (m.freshRow src gs options b).OwnsLine l ↔
      m.blockFirstLine b ≤ l ∧ l < m.blockFirstLine b + m.blockLineCount b := by
  obtain ⟨hfirst, hcount⟩ := @freshRow_lines gs m src options b
  have hlines : (m.leaf b).rowLines = ((m.blockFirstLine b : Int), m.blockLineCount b) := by
    rw [LeafRecords.rowLines, if_pos]
    · rfl
    · rw [show (m.leaf b).kind = m.blockKind b from rfl, hkind]
      decide
  rw [hlines] at hfirst hcount
  rw [ProjectedRow.OwnsLine, hcount, Int.ofNat_inj.1 hfirst]

/-- The row of a delimiter line is on that line. -/
theorem delimiterRow_lines {table line : Nat} {row : ProjectedRow}
    (h : m.delimiterRow src table line = some row) : row.firstLine = line ∧ row.lineCount = 1 := by
  simp only [RenderModel.delimiterRow] at h
  split at h
  · cases h
    exact ⟨rfl, rfl⟩
  · split at h
    · cases h
      exact ⟨rfl, rfl⟩
    · cases h

/-- A turn of the loop over the blocks claims the lines of the block, if it is a leaf or a
    table. -/
theorem claims_blockStep {st : Building} {b l : Nat} :
    (blockStep gs m src options (fun _ => none) st b).claims l = true ↔
      st.claims l = true ∨ m.BlockClaims b l := by
  rw [RenderModel.BlockClaims]
  by_cases hleaf : RenderModel.isLeaf (m.blockKind b) = true
  · simp only [blockStep, hleaf, Option.getD_none, if_true, true_and, true_or]
    by_cases hcell : m.blockKind b = BlockKind.tableCell
    · rw [if_neg (not_not.2 hcell), Building.claims_addRow, ownsLine_cell hcell]
    · -- The leaf hides what its row does not own.
      rw [if_pos hcell, Building.claims_claim, Building.claims_addRow, or_assoc,
        or_iff_right_of_imp ownsLine_freshRow]
  · simp only [blockStep, hleaf, Bool.false_eq_true, if_false, false_and, false_or]
    by_cases hbreak : m.blockKind b = BlockKind.thematicBreak
    · rw [if_pos hbreak, Building.claims_addRow, and_iff_right (Or.inl hbreak)]
      rfl
    · rw [if_neg hbreak]
      by_cases htable : m.blockKind b = BlockKind.table
      · rw [if_pos htable, and_iff_right (Or.inr htable)]
        split
        · next hline =>
          cases hrow : m.delimiterRow src b (m.blockFirstLine b + 1) with
          | none => exact Building.claims_claim
          | some row =>
            -- The delimiter line is one of the two lines of the table.
            obtain ⟨hfirst, hcount⟩ := delimiterRow_lines hrow
            rw [Building.claims_addRow, Building.claims_claim, ProjectedRow.OwnsLine, hfirst, hcount,
              hline.2.1, or_assoc]
            exact or_congr_right (by omega)
        · exact Building.claims_claim
      · rw [if_neg htable]
        refine ⟨Or.inl, fun h => h.resolve_right fun h => ?_⟩
        exact h.1.elim hbreak htable

/-- Steps that each claim some lines claim together what any of them does. -/
theorem claims_foldl {f : Building → Nat → Building} {P : Nat → Prop} {l : Nat}
    (hf : ∀ st b, (f st b).claims l = true ↔ st.claims l = true ∨ P b) (n : Nat) (st : Building) :
    ((List.range n).foldl f st).claims l = true ↔ st.claims l = true ∨ ∃ b < n, P b := by
  induction n with
  | zero => simp
  | succ n ih =>
    rw [List.range_succ, List.foldl_append, List.foldl_cons, List.foldl_nil, hf, ih, or_assoc]
    refine or_congr_right ⟨?_, ?_⟩
    · rintro (⟨b, hb, h⟩ | h)
      · exact ⟨b, hb.trans n.lt_succ_self, h⟩
      · exact ⟨n, n.lt_succ_self, h⟩
    · rintro ⟨b, hb, h⟩
      rcases Nat.lt_succ_iff_lt_or_eq.1 hb with hb | rfl
      · exact Or.inl ⟨b, hb, h⟩
      · exact Or.inr h

/-- Before the blank rows, what is claimed is what a definition, a leaf or a table claims. -/
theorem claims_blockRows {l : Nat} :
    (blockRows gs m src options fun _ => none).claims l = true ↔ m.LineClaimed l := by
  have hdefinitions := claims_foldl (f := fun st d => st.addRow (m.definitionRow src d))
    (P := fun d => m.DefinitionClaims d l)
    (fun st d => by rw [Building.claims_addRow, ownsLine_definitionRow]) m.definitionCount ⟨[], []⟩
  have hblocks := fun st => claims_foldl (f := blockStep gs m src options fun _ => none)
    (P := fun b => m.BlockClaims b l) (fun st b => claims_blockStep) m.blockCount st
  rw [blockRows, hblocks, hdefinitions, RenderModel.LineClaimed]
  exact or_congr_left (or_iff_right Bool.false_ne_true)

/-- The rows that a block adds. -/
def addedRows (gs : Graphemes) (m : RenderModel) (src : Text) (options : ProjectionOptions)
    (b : Nat) : List ProjectedRow :=
  if RenderModel.isLeaf (m.blockKind b) then [m.freshRow src gs options b]
  else if m.blockKind b = BlockKind.thematicBreak then [m.thematicBreakRow src b]
  else if m.blockKind b = BlockKind.table ∧ options.editableDelimiterRows ∧
      m.blockLineCount b = 2 ∧ m.blockFirstLine b + 1 < m.lineCount then
    (m.delimiterRow src b (m.blockFirstLine b + 1)).toList
  else []

/-- The step of a block adds its rows. -/
theorem blockStep_rows (st : Building) (b : Nat) :
    (blockStep gs m src options (fun _ => none) st b).rows =
      st.rows ++ addedRows gs m src options b := by
  -- Hiding the lines of a leaf adds no row.
  have hlines : ∀ a : Building, (if RenderModel.isLeaf (m.blockKind b) = true ∧
      m.blockKind b ≠ BlockKind.tableCell then a.claim (m.blockFirstLine b) (m.blockLineCount b)
      else a).rows = a.rows := by
    intro a
    split <;> rfl
  rw [blockStep, hlines, addedRows]
  split
  · rfl
  · split
    · rfl
    · split
      · next htable =>
        split
        · next hoptions =>
          rw [if_pos ⟨htable, hoptions⟩]
          cases m.delimiterRow src b (m.blockFirstLine b + 1) with
          | none => exact (List.append_nil _).symm
          | some row => rfl
        · next hoptions =>
          rw [if_neg fun h => hoptions h.2]
          exact (List.append_nil _).symm
      · next htable =>
        rw [if_neg fun h => htable h.1]
        exact (List.append_nil _).symm

/-- A loop that adds rows at each turn. -/
theorem foldl_rows {f : Building → Nat → Building} {added : Nat → List ProjectedRow}
    (hf : ∀ st i, (f st i).rows = st.rows ++ added i) (st : Building) (n : Nat) :
    ((List.range n).foldl f st).rows = st.rows ++ (List.range n).flatMap added := by
  induction n with
  | zero => exact (List.append_nil _).symm
  | succ n ih =>
    rw [List.range_succ, List.foldl_append, List.foldl_cons, List.foldl_nil, hf, ih,
      List.flatMap_append, List.append_assoc, List.flatMap_singleton]

/-- Before the blank rows: those of the definitions, then those of the blocks. -/
theorem blockRows_rows : (blockRows gs m src options fun _ => none).rows =
    (List.range m.definitionCount).map (m.definitionRow src) ++
      (List.range m.blockCount).flatMap (addedRows gs m src options) := by
  rw [blockRows, foldl_rows blockStep_rows, foldl_rows (fun st d => rfl), List.nil_append,
    List.map_eq_flatMap]

/-- Every definition has its row. -/
theorem definitionRow_mem {d : Nat} (hd : d < m.definitionCount) :
    m.definitionRow src d ∈ (blockRows gs m src options fun _ => none).rows := by
  rw [blockRows_rows]
  exact List.mem_append_left _ (List.mem_map_of_mem (List.mem_range.2 hd))

/-! ## Blank rows -/

/-- The row of a blank line is on that line. -/
theorem blankRow_lines (l : Nat) :
    (m.blankRow src l).firstLine = l ∧ (m.blankRow src l).lineCount = 1 := by
  simp only [RenderModel.blankRow]
  split <;> exact ⟨rfl, rfl⟩

theorem ownsLine_blankRow {l l' : Nat} : (m.blankRow src l).OwnsLine l' ↔ l' = l := by
  obtain ⟨hfirst, hcount⟩ := @blankRow_lines m src l
  rw [ProjectedRow.OwnsLine, hfirst, hcount]
  omega

/-- The loop over the lines adds the rows of the lines left, in order. -/
theorem foldl_blankStep (st : Building) (n : Nat) :
    ((List.range n).foldl (blankStep m src) st).rows =
        st.rows ++ ((List.range n).filter fun l => !st.claims l).map (m.blankRow src) ∧
      ∀ l, ((List.range n).foldl (blankStep m src) st).claims l = true ↔
        st.claims l = true ∨ l < n := by
  induction n with
  | zero => simp
  | succ n ih =>
    obtain ⟨hrows, hclaims⟩ := ih
    rw [List.range_succ, List.foldl_append, List.foldl_cons, List.foldl_nil, blankStep,
      List.filter_append, List.map_append]
    -- The rows of earlier lines claim those lines only, so line `n` is as it was.
    have hline := hclaims n
    rw [or_iff_left (Nat.lt_irrefl n)] at hline
    by_cases hn : st.claims n = true
    · rw [if_pos (hline.2 hn), hrows]
      refine ⟨by simp [hn], fun l => ?_⟩
      rw [hclaims, Nat.lt_succ_iff_lt_or_eq, ← or_assoc]
      refine ⟨Or.inl, fun h => h.elim id ?_⟩
      rintro rfl
      exact Or.inl hn
    · rw [if_neg (mt hline.1 hn)]
      refine ⟨by simp [Building.addRow, hrows, hn], fun l => ?_⟩
      rw [Building.claims_addRow, hclaims, ownsLine_blankRow, or_assoc, ← Nat.lt_succ_iff_lt_or_eq]

/-- The rows built anew: those of definitions and blocks, then one for every line that none of
    them claims. -/
theorem buildRows_eq : ∃ unclaimed : List Nat,
    buildRows gs m src options (fun _ => none) =
        (blockRows gs m src options fun _ => none).rows ++ unclaimed.map (m.blankRow src) ∧
      (∀ l, l ∈ unclaimed ↔ l < m.lineCount ∧ ¬m.LineClaimed l) ∧ unclaimed.Pairwise (· < ·) := by
  refine ⟨_, (foldl_blankStep (blockRows gs m src options fun _ => none) m.lineCount).1,
    fun l => ?_, List.Pairwise.filter _ List.pairwise_lt_range⟩
  rw [List.mem_filter, List.mem_range, Bool.not_eq_true', ← Bool.not_eq_true, claims_blockRows]

/-- A row as only the lines left have: blank, or the bare marker of an item. -/
def BlankLike (m : RenderModel) (row : ProjectedRow) : Prop :=
  row.kind = .blank ∨ ∃ item : Nat, row.block = item ∧ m.blockKind item = BlockKind.item

theorem blankLike_blankRow (l : Nat) : BlankLike m (m.blankRow src l) := by
  simp only [RenderModel.blankRow]
  split
  · next item hitem => exact Or.inr ⟨item, rfl, bareItem_kind hitem⟩
  · exact Or.inl rfl

/-- The row of a block that is no item is not like a blank line's. -/
theorem not_blankLike_of_block {row : ProjectedRow} {b : Nat} (hkind : row.kind ≠ .blank)
    (hblock : row.block = b) (hb : m.blockKind b ≠ BlockKind.item) : ¬BlankLike m row := by
  rintro (h | ⟨item, hitem, h⟩)
  · exact hkind h
  · obtain rfl : b = item := Int.ofNat_inj.1 (hblock.symm.trans hitem)
    exact hb h

/-- A row of no block that is not blank is not like a blank line's. -/
theorem not_blankLike_of_neg {row : ProjectedRow} (hkind : row.kind ≠ .blank)
    (hblock : row.block = -1) : ¬BlankLike m row := by
  rintro (h | ⟨item, hitem, -⟩)
  · exact hkind h
  · omega

/-- The row of a leaf is not blank. -/
theorem freshRow_kind (b : Nat) : (m.freshRow src gs options b).kind ≠ .blank := by
  rw [RenderModel.freshRow]
  split
  · simp only [inlineRow]
    split
    · exact fun h => by cases h
    · dsimp only
      split
      · exact fun h => by cases h
      · split <;> exact fun h => by cases h
  · simp only [literalRow]
    split <;> exact fun h => by cases h

/-- The row of a delimiter line is not blank. -/
theorem delimiterRow_kind {table line : Nat} {row : ProjectedRow}
    (h : m.delimiterRow src table line = some row) : row.kind ≠ .blank := by
  simp only [RenderModel.delimiterRow] at h
  split at h
  · cases h
    exact fun h => by cases h
  · split at h
    · cases h
      exact fun h => by cases h
    · cases h

/-- No row of a block is like a blank line's. -/
theorem not_blankLike_blockRows :
    ∀ r ∈ (blockRows gs m src options fun _ => none).rows, ¬BlankLike m r := by
  refine forall_blockRows (fun d => not_blankLike_of_neg (by nofun) rfl) (fun b _ hleaf => ?_)
    (fun b _ hkind => not_blankLike_of_block (by nofun) rfl ?_) fun b _ row _ hrow =>
      not_blankLike_of_neg (delimiterRow_kind hrow) (delimiterRow_block hrow)
  · refine not_blankLike_of_block (freshRow_kind b) (freshRow_block b) fun hitem => ?_
    rw [hitem] at hleaf
    cases hleaf
  · rw [hkind]
    decide

end

/-! ## Every line accounted for -/

namespace Projection

/-- `rowsOnLine`. -/
def rowsOnLine (p : Projection) (line : Nat) : List Nat := p.rowIndexesOnLine line

/-- Every source line is accounted for: a row owns it, or a leaf or a table does that claims
    it. Rows are in line order and know their place, the rows of a line are listed in order,
    and exactly the lines that nothing claims have a blank row. -/
structure AccountsForLines (p : Projection) : Prop where
  shown : ∀ l < p.model.lineCount, (∃ row ∈ p.rows, row.OwnsLine l) ∨
    ∃ b < p.model.blockCount, p.model.BlockClaims b l
  ordered : p.rows.Pairwise fun r r' => r.firstLine < r'.firstLine ∨
    r.firstLine = r'.firstLine ∧ r.sourceStart ≤ r'.sourceStart
  index : ∀ (i : Nat) (row : ProjectedRow), p.rows[i]? = some row → row.index = i
  lines : p.rowsByLine.length = p.model.lineCount
  listed : ∀ l < p.model.lineCount, (p.rowsOnLine l).Pairwise (· < ·) ∧
    ∀ i, i ∈ p.rowsOnLine l ↔ ∃ row, p.rows[i]? = some row ∧ row.OwnsLine l
  blank : ∀ l < p.model.lineCount,
    (∃ row ∈ p.rows, row.content = (p.model.blankRow p.source l).content) ↔ ¬p.model.LineClaimed l

/-- Where rows were taken from does not matter. -/
theorem AccountsForLines.congr {p q : Projection} (h : p.withoutOrigins = q.withoutOrigins)
    (hq : q.AccountsForLines) : p.AccountsForLines := by
  have hmodel : p.model = q.model := by
    have := congrArg Projection.model h
    exact this
  have hsource : p.source = q.source := by
    have := congrArg Projection.source h
    exact this
  have hlines : p.rowsByLine = q.rowsByLine := by
    have := congrArg Projection.rowsByLine h
    exact this
  have hrows : p.rows.map ProjectedRow.withoutOrigin = q.rows.map ProjectedRow.withoutOrigin :=
    congrArg Projection.rows h
  have hon : ∀ l, p.rowsOnLine l = q.rowsOnLine l := fun l => by
    rw [rowsOnLine, rowsOnLine, rowIndexesOnLine, rowIndexesOnLine, hlines]
  -- What holds of some row but does not see its origin.
  have hexists : ∀ P : ProjectedRow → Prop, (∀ r, P r ↔ P r.withoutOrigin) →
      ((∃ row ∈ p.rows, P row) ↔ ∃ row ∈ q.rows, P row) := by
    intro P hP
    have hmap : ∀ rows : List ProjectedRow,
        (∃ row ∈ rows, P row) ↔ ∃ row ∈ rows.map ProjectedRow.withoutOrigin, P row := by
      intro rows
      simp only [List.mem_map, exists_exists_and_eq_and, ← hP]
    rw [hmap, hrows, ← hmap]
  have hat : ∀ (i : Nat) (P : ProjectedRow → Prop), (∀ r, P r ↔ P r.withoutOrigin) →
      ((∃ row, p.rows[i]? = some row ∧ P row) ↔ ∃ row, q.rows[i]? = some row ∧ P row) := by
    intro i P hP
    have hmap : ∀ rows : List ProjectedRow, (∃ row, rows[i]? = some row ∧ P row) ↔
        ∃ row, (rows.map ProjectedRow.withoutOrigin)[i]? = some row ∧ P row := by
      intro rows
      simp only [List.getElem?_map, Option.map_eq_some_iff, exists_exists_and_eq_and, ← hP]
    rw [hmap, hrows, ← hmap]
  refine
    { shown := fun l hl => ?_
      ordered := ?_
      index := fun i row hrow => ?_
      lines := by rw [hlines, hmodel, hq.lines]
      listed := fun l hl => ?_
      blank := fun l hl => ?_ }
  · rw [hmodel] at hl ⊢
    exact (hq.shown l hl).imp_left (hexists (·.OwnsLine l) fun _ => Iff.rfl).2
  · have hpairs : (q.rows.map ProjectedRow.withoutOrigin).Pairwise fun r r' =>
        r.firstLine < r'.firstLine ∨ r.firstLine = r'.firstLine ∧ r.sourceStart ≤ r'.sourceStart :=
      List.pairwise_map.2 hq.ordered
    rw [← hrows] at hpairs
    exact List.pairwise_map.1 hpairs
  · obtain ⟨row', hrow', hi⟩ := (hat i (·.index = row.index) fun _ => Iff.rfl).1 ⟨row, hrow, rfl⟩
    rw [← hi]
    exact hq.index i row' hrow'
  · rw [hmodel] at hl
    rw [hon]
    refine ⟨(hq.listed l hl).1, fun i => ((hq.listed l hl).2 i).trans ?_⟩
    exact (hat i (·.OwnsLine l) fun _ => Iff.rfl).symm
  · rw [hmodel] at hl ⊢
    rw [hsource]
    exact (hexists (·.content = _) fun _ => Iff.rfl).trans (hq.blank l hl)

end Projection

section

variable {gs : Graphemes} {m : RenderModel} {src : Text} {options : ProjectionOptions}

/-- Ordering keeps the rows. -/
theorem mem_orderRows {lineCount : Nat} {rows : List ProjectedRow} {row : ProjectedRow} :
    row ∈ orderRows lineCount rows ↔ row ∈ rows := by
  rw [orderRows, List.mem_flatMap]
  constructor
  · rintro ⟨l, -, hrow⟩
    exact List.mem_of_mem_filter ((List.mem_insertionSort _).1 hrow)
  · intro hrow
    refine ⟨min row.firstLine lineCount, List.mem_range.2 (by omega), ?_⟩
    exact (List.mem_insertionSort _).2 (List.mem_filter.2 ⟨hrow, beq_self_eq_true _⟩)

/-- The rows are ordered by first line, and by source start on one line. -/
theorem pairwise_orderRows {lineCount : Nat} {rows : List ProjectedRow}
    (h : ∀ r ∈ rows, r.firstLine < lineCount) :
    (orderRows lineCount rows).Pairwise fun r r' => r.firstLine < r'.firstLine ∨
      r.firstLine = r'.firstLine ∧ r.sourceStart ≤ r'.sourceStart := by
  have hbucket : ∀ {l : Nat} {r : ProjectedRow},
      r ∈ (rows.filter fun r => min r.firstLine lineCount == l).insertionSort
        (fun a b => a.sourceStart ≤ b.sourceStart) → r.firstLine = l := by
    intro l r hr
    obtain ⟨hr, hl⟩ := List.mem_filter.1 ((List.mem_insertionSort _).1 hr)
    rw [← beq_iff_eq.1 hl, min_eq_left (h r hr).le]
  rw [orderRows, List.pairwise_flatMap]
  refine ⟨fun l _ => ?_, List.pairwise_lt_range.imp fun hlt r hr r' hr' => ?_⟩
  · have htotal : Std.Total fun a b : ProjectedRow => a.sourceStart ≤ b.sourceStart :=
      ⟨fun a b => le_total a.sourceStart b.sourceStart⟩
    have htrans : IsTrans ProjectedRow fun a b => a.sourceStart ≤ b.sourceStart :=
      ⟨fun _ _ _ => le_trans⟩
    refine List.Pairwise.imp_of_mem (fun hr hr' hle => Or.inr ⟨?_, hle⟩)
      (List.pairwise_insertionSort _ _)
    rw [hbucket hr, hbucket hr']
  · rw [hbucket hr, hbucket hr']
    exact Or.inl hlt

/-- The rows of a line are those that own it. -/
theorem mem_rowsOn {rows : List ProjectedRow} {l i : Nat} :
    i ∈ rowsOn rows l ↔ ∃ row, rows[i]? = some row ∧ row.OwnsLine l := by
  rw [rowsOn, List.mem_filter, List.mem_range, Option.any_eq_true]
  constructor
  · rintro ⟨-, row, hrow, hown⟩
    exact ⟨row, hrow, by simpa [ProjectedRow.OwnsLine] using hown⟩
  · rintro ⟨row, hrow, hown⟩
    exact ⟨(List.getElem?_eq_some_iff.1 hrow).1, row, hrow,
      by simpa [ProjectedRow.OwnsLine] using hown⟩

/-- Every row built anew starts on a line of the source. -/
theorem firstLine_lt (hm : m.LinesConform src) :
    ∀ r ∈ buildRows gs m src options fun _ => none, r.firstLine < m.lineCount := by
  refine forall_buildRows (fun d => hm.table.lineOfUtf16_lt _) (fun b hb hleaf => ?_)
    (fun b hb _ => hm.firstLine b hb) (fun b _ row hline hrow => ?_) fun l hl => ?_
  · obtain ⟨hfirst, -⟩ := @freshRow_lines gs m src options b
    have hline : (m.leaf b).firstLine = m.blockFirstLine b := rfl
    have hlines : (m.leaf b).lineCount = m.blockLineCount b := rfl
    have hblock := hm.firstLine b hb
    rw [Option.getD_none]
    rcases rowLines_first (m.leaf b) with hsame | ⟨hlt, hlt'⟩
    · omega
    · -- The row starts on a later line of the leaf, whose lines are in the source.
      have := (hm.leaf b hb hleaf (by omega)).lines
      omega
  · rw [(delimiterRow_lines hrow).1]
    exact hline
  · rw [(blankRow_lines l).1]
    exact hl

/-- The rows built anew, placed. -/
theorem accountsForLines_anew (hm : m.LinesConform src) :
    (Projection.ofRows m src options (buildRows gs m src options fun _ => none)).AccountsForLines := by
  obtain ⟨unclaimed, hbuild, hunclaimed, -⟩ :=
    @buildRows_eq gs m src options
  have hrows : (Projection.ofRows m src options (buildRows gs m src options fun _ => none)).rows =
      (orderRows m.lineCount (buildRows gs m src options fun _ => none)).mapIdx fun i r =>
        r.numbered i := rfl
  -- A row shows what a row that was built shows, and each of those has its row.
  have hmem : ∀ row ∈ buildRows gs m src options fun _ => none, ∃ r ∈ (Projection.ofRows m src options
      (buildRows gs m src options fun _ => none)).rows, r.content = row.content := by
    intro row hrow
    obtain ⟨i, hi, hrow⟩ := List.getElem_of_mem (mem_orderRows.2 hrow)
    refine ⟨_, List.mem_mapIdx.2 ⟨i, hi, rfl⟩, ?_⟩
    rw [hrow]
    rfl
  have hblank : ∀ l < m.lineCount, ¬m.LineClaimed l →
      m.blankRow src l ∈ buildRows gs m src options fun _ => none := by
    intro l hl hclaimed
    rw [hbuild]
    exact List.mem_append_right _ (List.mem_map_of_mem ((hunclaimed l).2 ⟨hl, hclaimed⟩))
  have hshown : ∀ row ∈ buildRows gs m src options fun _ => none, ∀ l, row.OwnsLine l →
      ∃ r ∈ (Projection.ofRows m src options (buildRows gs m src options fun _ => none)).rows,
        r.OwnsLine l := by
    intro row hrow l hown
    obtain ⟨r, hr, hcontent⟩ := hmem row hrow
    refine ⟨r, hr, ?_⟩
    rwa [ProjectedRow.OwnsLine, firstLine_of_content hcontent, lineCount_of_content hcontent]
  refine
    { shown := fun l hl => ?_
      ordered := ?_
      index := fun i row hrow => ?_
      lines := by rw [Projection.ofRows, List.length_map, List.length_range]
      listed := fun l hl => ?_
      blank := fun l hl => ⟨?_, fun h => hmem _ (hblank l hl h)⟩ }
  · by_cases hclaimed : m.LineClaimed l
    · rcases hclaimed with ⟨d, hd, hclaims⟩ | hclaims
      · refine Or.inl (hshown (m.definitionRow src d) ?_ l (ownsLine_definitionRow.2 hclaims))
        rw [hbuild]
        exact List.mem_append_left _ (definitionRow_mem hd)
      · exact Or.inr hclaims
    · exact Or.inl (hshown _ (hblank l hl hclaimed) l (ownsLine_blankRow.2 rfl))
  · -- Numbering the rows leaves their order.
    have hpairs := pairwise_orderRows (@firstLine_lt gs m src options hm)
    rw [hrows]
    refine List.pairwise_iff_getElem.2 fun i j hi hj hij => ?_
    rw [List.length_mapIdx] at hi hj
    rw [List.getElem_mapIdx, List.getElem_mapIdx]
    exact List.pairwise_iff_getElem.1 hpairs i j hi hj hij
  · rw [hrows, List.getElem?_mapIdx] at hrow
    obtain ⟨row', -, rfl⟩ := Option.map_eq_some_iff.1 hrow
    rfl
  · have hl : l < m.lineCount := hl
    have hline : ∀ rows, (Projection.ofRows m src options rows).rowsOnLine l =
        rowsOn (Projection.ofRows m src options rows).rows l := by
      intro rows
      rw [Projection.rowsOnLine, Projection.rowIndexesOnLine, List.getD_eq_getElem?_getD,
        Projection.ofRows, List.getElem?_map, List.getElem?_range hl]
      rfl
    rw [hline]
    exact ⟨List.Pairwise.filter _ List.pairwise_lt_range, fun i => mem_rowsOn⟩
  · rintro ⟨row, hrow, hcontent⟩
    obtain ⟨built, hbuilt, hcontent'⟩ := mem_ofRows hrow
    have hlike : BlankLike m built := by
      have hsame := hcontent'.trans hcontent
      have hkind := congrArg ProjectedRow.kind hsame
      have hblock := congrArg ProjectedRow.block hsame
      simp only [ProjectedRow.content] at hkind hblock
      rw [BlankLike, hkind, hblock]
      exact blankLike_blankRow l
    rw [hbuild] at hbuilt
    rcases List.mem_append.1 hbuilt with hbuilt | hbuilt
    · exact absurd hlike (not_blankLike_blockRows built hbuilt)
    · -- A blank row shows which line it is for.
      obtain ⟨l', hl', rfl⟩ := List.mem_map.1 hbuilt
      have hfirst := firstLine_of_content (hcontent'.trans hcontent)
      rw [(blankRow_lines l').1, (blankRow_lines l).1] at hfirst
      rw [← hfirst]
      exact ((hunclaimed l').1 hl').2

/-- Every source line is accounted for by the projection that `_Builder.build` makes of a
    conforming model, with or without an earlier projection. -/
theorem Projection.build_accountsForLines (hm : m.LinesConform src) (options : ProjectionOptions)
    {previous : Option Projection} (hprevious : ∀ p ∈ previous, Built gs p) :
    (Projection.build gs m src options previous).AccountsForLines := by
  rw [Projection.build_eq_of]
  have hanew : (Projection.of gs m src options none).AccountsForLines := accountsForLines_anew hm
  cases previous with
  | none => exact hanew
  | some p => exact hanew.congr (Projection.of_previous hm.toConforms options (hprevious p rfl))

/-- The projection after a letter is typed, with the one before it. -/
theorem Projection.build_accountsForLines_typed :
    (Projection.build .units (twoParagraphs 5) (Text.ofString "a\n\nbc") {}
      (some (Projection.of .units (twoParagraphs 4) (Text.ofString "a\n\nb") {} none))).AccountsForLines :=
  Projection.build_accountsForLines
    { twoParagraphs_conforms.2 with firstLine := by decide }  {}
    fun p hp => by
      obtain rfl := Option.mem_some.1 hp
      exact Built.anew twoParagraphs_conforms.1 {}

end

end Flark
