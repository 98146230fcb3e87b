import Flark.Kernel.Anchors
import Flark.Kernel.CaretWalk

/-!
# Presses

Where a press puts the caret (`pointerAnchorAt` of `kernel/document.dart` and `_place` of
`kernel/editor.dart`). The display offset is taken to a source offset, and the anchors are those
of the legal offset that one goes to, which can show elsewhere: where hidden syntax is joined to
the text behind it in one character of the source, the source offset of a display offset is no
caret, and a caret on the other side of that text can be the closer one.

* `Document.PressLands`: what a press is for;
* `Document.NothingBetween`: two offsets of the source without displayed text between them;
* `Document.press_lands_iff`: when a press does it, and what a press on an unwritten cell does.
-/

namespace Flark

namespace ProjectedRow

/-- Whether a press takes its context from the right: from the side of the word beside white space
    or an end of the row, else from that of the half hit. -/
def pressedFromRight (row : ProjectedRow) (offset : Int) (leadingHalf : Bool) : Bool :=
  let at' := max 0 (min offset row.text.length)
  let beforeSpace := at' == 0 || Text.isSpace (row.text.codeUnitAt (at' - 1))
  let afterSpace := at' == row.text.length || Text.isSpace (row.text.codeUnitAt at')
  if beforeSpace != afterSpace then beforeSpace else leadingHalf

/-- The source offset of a press. -/
def pressedAt (row : ProjectedRow) (offset : Int) (leadingHalf : Bool) : Int :=
  row.sourceForDisplay (max 0 (min offset row.text.length))
    (if row.pressedFromRight offset leadingHalf then .after else .before)

end ProjectedRow

namespace Document

variable (gs : Graphemes) (d : Document)

/-- Where an offset of the source shows, be it legal or not. -/
def positionOf (x : Int) : DisplayPosition :=
  (d.projection.displayForSource x none).getD ⟨0, 0, false⟩

/-- No displayed text lies between two offsets: all from the one to the other show at one place. -/
def NothingBetween (x y : Int) : Prop :=
  ∀ z, min x y ≤ z → z ≤ max x y → (d.positionOf z).SamePlace (d.positionOf x)

/-- The source offset of a press shows where the press is. -/
def PressReturns (i : Nat) (row : ProjectedRow) (offset : Int) (leadingHalf : Bool) : Prop :=
  (d.positionOf (row.pressedAt offset leadingHalf)).SamePlace ⟨i, offset, false⟩

/-- A legal offset shows at a display offset of a row. -/
def ShownAt (i : Nat) (offset x : Int) : Prop := (d.displayOf gs x).SamePlace ⟨i, offset, false⟩

/-- A press puts the caret on a legal offset that shows where the press is. -/
def PressLands (i : Nat) (offset : Int) (leadingHalf : Bool) : Prop :=
  ∃ c, d.pointerAnchorAt gs i offset leadingHalf = some c ∧ d.projection.isLegal gs c = true ∧
    d.ShownAt gs i offset c

variable {gs d}

/-- The anchor of a press is the first or the last of those of its source offset. -/
theorem pointerAnchorAt_eq {i : Nat} {row : ProjectedRow} (hrow : d.projection.rows[i]? = some row)
    (offset : Int) (leadingHalf : Bool) : d.pointerAnchorAt gs i offset leadingHalf =
      if row.pressedFromRight offset leadingHalf then
        (d.anchorsAt gs (row.pressedAt offset leadingHalf)).getLast?
      else (d.anchorsAt gs (row.pressedAt offset leadingHalf)).head? := by
  rw [pointerAnchorAt, hrow]
  rfl

section

variable (hd : d.Live gs)

include hd

/-- Where there is a caret at all, a press goes to one that shows where the closest caret does. -/
theorem pointerAnchorAt_spec {x : Int} (hx : d.projection.isLegal gs x = true) {i : Nat}
    {row : ProjectedRow} (hrow : d.projection.rows[i]? = some row) (offset : Int)
    (leadingHalf : Bool) : ∃ c, d.pointerAnchorAt gs i offset leadingHalf = some c ∧
      d.projection.isLegal gs c = true ∧ (d.displayOf gs c).SamePlace (d.displayOf gs
        (d.projection.legalize gs (row.pressedAt offset leadingHalf))) := by
  have hne := List.ne_nil_of_mem (legalize_mem_anchorsAt hd hx (row.pressedAt offset leadingHalf))
  rw [pointerAnchorAt_eq hrow]
  split
  · rw [List.getLast?_eq_some_getLast hne]
    obtain ⟨-, hlegal, hplace⟩ := mem_anchorsAt.1 (List.getLast_mem hne)
    exact ⟨_, rfl, hlegal, hplace⟩
  · rw [List.head?_eq_some_head hne]
    obtain ⟨-, hlegal, hplace⟩ := mem_anchorsAt.1 (List.head_mem hne)
    exact ⟨_, rfl, hlegal, hplace⟩

/-- A press lands where the legal offset of its source offset shows there. -/
theorem pressLands_iff {x : Int} (hx : d.projection.isLegal gs x = true) {i : Nat}
    {row : ProjectedRow} (hrow : d.projection.rows[i]? = some row) (offset : Int)
    (leadingHalf : Bool) : d.PressLands gs i offset leadingHalf ↔
      (d.positionOf (d.projection.legalize gs (row.pressedAt offset leadingHalf))).SamePlace
        ⟨i, offset, false⟩ := by
  obtain ⟨c, hc, hlegal, hplace⟩ := pointerAnchorAt_spec hd hx hrow offset leadingHalf
  rw [displayOf_legalize hd, displayOf, ← positionOf] at hplace
  constructor
  · rintro ⟨c', hc', -, hshown⟩
    obtain rfl := Option.some.inj (hc.symm.trans hc')
    exact hplace.symm.trans hshown
  · exact fun hshown => ⟨c, hc, hlegal, hplace.trans hshown⟩

/-- Displayed text lies between two offsets where they show at two places. -/
theorem nothingBetween_iff (hm : d.model.OrderConforms d.source) {x y : Int} :
    d.NothingBetween x y ↔ (d.positionOf y).SamePlace (d.positionOf x) := by
  have hmono : ∀ {u v : Int}, u ≤ v → (d.positionOf u).NoLater (d.positionOf v) :=
    Projection.onLine_mono (hd.built.ordered hm) hm.table
  refine ⟨fun h => h y (min_le_right x y) (le_max_right x y), fun h z hmin hmax => ?_⟩
  rcases le_total x y with hle | hle
  · rw [min_eq_left hle] at hmin
    rw [max_eq_right hle] at hmax
    exact h.symm.between (hmono hmin) (hmono hmax)
  · rw [min_eq_right hle] at hmin
    rw [max_eq_left hle] at hmax
    exact (h.between (hmono hmin) (hmono hmax)).trans h

/-- A press on an unwritten cell asks for the cell, and the document keeps that selection. -/
theorem placeSelection_missing {i : Nat} {row : ProjectedRow}
    (hrow : d.projection.rows[i]? = some row)
    (hmissing : d.projection.isMissingCell (some i) = true) (offset : Int) (leadingHalf : Bool) :
    d.placeSelection gs i offset leadingHalf false = some (some (.cell row.sourceStart i)) ∧
      (d.withSelection gs (.cell row.sourceStart i)).selection = .cell row.sourceStart i := by
  have hlt : i < d.projection.rows.length := (List.getElem?_eq_some_iff.1 hrow).1
  constructor
  · have hempty : ¬d.projection.rows.isEmpty = true := by
      rw [List.isEmpty_iff]
      exact List.ne_nil_of_length_pos (by omega)
    rw [placeSelection, if_neg hempty]
    dsimp only
    rw [show (max 0 (min (i : Int) (d.projection.rows.length - 1))).toNat = i by omega, hrow,
      Option.bind_some, hd.built.index hrow, hmissing]
    rfl
  · rw [withSelection, legalSelection]
    dsimp only
    rw [if_neg (by simp [Selection.cell, Selection.isCollapsed]), if_pos]
    simp [Selection.cell, Selection.isCollapsed, hmissing, hrow]

end

/-- When a press puts the caret where it was made. Its source offset shows there, and then the
    press lands exactly where no displayed text lies between that offset and the legal one it goes
    to; a press whose source offset is legal lands exactly where that offset shows at the press. A
    press on an unwritten cell selects the cell. -/
theorem press_lands_iff (gs : Graphemes) (d : Document) (hd : d.Live gs)
    (hm : d.model.OrderConforms d.source) (i : Nat) (row : ProjectedRow)
    (hrow : d.projection.rows[i]? = some row) (offset : Int) (leadingHalf : Bool) :
    (d.projection.isMissingCell (some i) = false →
      (∃ x, d.projection.isLegal gs x = true ∧ d.ShownAt gs i offset x) →
      (d.PressReturns i row offset leadingHalf →
        (d.PressLands gs i offset leadingHalf ↔
          d.NothingBetween (row.pressedAt offset leadingHalf)
            (d.projection.legalize gs (row.pressedAt offset leadingHalf)))) ∧
      (d.projection.isLegal gs (row.pressedAt offset leadingHalf) = true →
        (d.PressLands gs i offset leadingHalf ↔ d.PressReturns i row offset leadingHalf))) ∧
    (d.projection.isMissingCell (some i) = true →
      d.placeSelection gs i offset leadingHalf false = some (some (.cell row.sourceStart i)) ∧
        (d.withSelection gs (.cell row.sourceStart i)).selection = .cell row.sourceStart i) := by
  refine ⟨fun _ ⟨x, hx, _⟩ => ⟨fun hreturns => ?_, fun hlegal => ?_⟩,
    fun hmissing => placeSelection_missing hd hrow hmissing offset leadingHalf⟩
  · rw [pressLands_iff hd hx hrow, nothingBetween_iff hd hm]
    exact ⟨fun h => h.trans hreturns.symm, fun h => h.trans hreturns⟩
  · rw [pressLands_iff hd hx hrow, legalize_legal hd hlegal, PressReturns]

/-- A press behind the first letter. -/
theorem press_lands_iff_letters : ∃ row, letters.projection.rows[0]? = some row ∧
    letters.PressReturns 0 row 1 true ∧
    (letters.PressLands .units 0 1 true ↔ letters.NothingBetween (row.pressedAt 1 true)
      (letters.projection.legalize .units (row.pressedAt 1 true))) ∧
    (letters.PressLands .units 0 1 true ↔ letters.PressReturns 0 row 1 true) := by
  have hreturns : letters.PressReturns 0 (letters.projection.rows.headD default) 1 true :=
    ⟨by decide, by decide⟩
  have hrow : letters.projection.rows[0]? = some (letters.projection.rows.headD default) := by
    decide
  obtain ⟨hbetween, hlegal⟩ := (press_lands_iff .units letters letters_live
    twoParagraphs_orderConforms 0 _ hrow 1 true).1 (by decide) ⟨1, by decide, by decide, by decide⟩
  exact ⟨_, hrow, hreturns, hbetween hreturns, hlegal (by decide)⟩

end Document

/-! ## A mark joined to a delimiter -/

namespace Graphemes
/-- A text cut into code units, an acute with the one before it. -/
def markPieces : Text → List Text
  | u :: 0x301 :: t => [u, 0x301] :: markPieces t
  | u :: t => [u] :: markPieces t
  | [] => []

/-- The cut into code units and acutes, right for text without another combining unit. -/
def marks : Graphemes where
  split := markPieces
  flatten_split t := by
    induction t using markPieces.induct with
    | case1 u t ih => rw [markPieces, List.flatten_cons, ih]; rfl
    | case2 u t h ih => rw [markPieces, List.flatten_cons, ih]; · rfl
                        · exact h
    | case3 => rfl
  ne_nil t := by
    induction t using markPieces.induct with
    | case1 u t ih =>
      rw [markPieces]
      exact List.forall_mem_cons.2 ⟨List.cons_ne_nil _ _, ih⟩
    | case2 u t h ih =>
      rw [markPieces]
      · exact List.forall_mem_cons.2 ⟨List.cons_ne_nil _ _, ih⟩
      · exact h
    | case3 => exact fun _ h => absurd h List.not_mem_nil
  low t := by
    induction t using markPieces.induct with
    | case1 u t ih =>
      rw [markPieces]
      refine List.forall_mem_cons.2 ⟨fun i a b ha hb _ hlow => ?_, ih⟩
      obtain _ | i := i
      · obtain rfl := Option.some_inj.1 hb
        exact absurd hlow (by decide)
      · cases hb
    | case2 u t h ih =>
      rw [markPieces]
      · refine List.forall_mem_cons.2 ⟨fun i a b ha hb _ _ => ?_, ih⟩
        cases hb
      · exact h
    | case3 => exact fun _ h => absurd h List.not_mem_nil
end Graphemes

namespace Document

/-- A model of a paragraph of a strongly emphasized acute. -/
def strongMark : RenderModel where
  bytes := []
  words :=
    [0x354B4C46, 5, 6, 5, 1, 2, 1, 2, 0, 0, 0, 0] ++ [0] ++
    [0, 0xFFFFFFFF, 0, 5, 0, 1, 0, 0, 0, 0xFFFFFFFF] ++
    [1, 0, 0, 5, 0, 1, 0, 0, 0, 0xFFFFFFFF] ++
    [0, 5, 0, 0] ++
    [0, 5, 0x20002, 3] ++ [2, 3, 0, 0x10001]

/-- The document of it, the caret before it. -/
def accented : Document :=
  ⟨Projection.of .marks strongMark (Text.ofString "**\u0301**") {} none, .collapsed 0⟩

theorem strongMark_schemaConforms : strongMark.SchemaConforms (Text.ofString "**\u0301**") where
  table := ⟨by decide, by decide⟩
  leaf := by decide
  parent := by decide
  blockStart := by decide
  contentLine := by decide
  lineOrder := by decide
  afterDefinitions := by decide
  runOrder := by decide
  runRange := by decide

theorem strongMark_orderConforms : strongMark.OrderConforms (Text.ofString "**\u0301**") :=
  have htable : ∀ b < strongMark.blockCount, strongMark.blockKind b ≠ BlockKind.table := by decide
  { strongMark_schemaConforms with
    firstLine := by decide
    blockRange := by decide
    leaves := by decide
    startLine := by decide
    endLine := by decide
    contentRange := by decide
    definitionRange := by decide
    definitions := by decide
    definitionLeaf := by decide
    delimiterLeaf := fun t ht h => absurd h (htable t ht)
    delimiterDefinition := fun t ht h => absurd h (htable t ht)
    delimiterTable := fun t ht _ _ h => absurd h (htable t ht)
    inline := fun b hb _ => by
      have hcases : ∀ b < strongMark.blockCount, b = 0 ∨ b = 1 := by decide
      rcases hcases b hb with rfl | rfl <;>
        exact ⟨by decide, by decide, by decide, by decide, by decide, by decide⟩ }

theorem accented_live : accented.Live .marks :=
  ⟨Built.anew strongMark_schemaConforms.toConforms {}, strongMark_schemaConforms⟩

/-- The acute is joined to the delimiter before it, so the caret closest to it is the one behind:
    a press before the acute puts the caret there. -/
theorem not_pressLands_accented : accented.Live .marks ∧
    accented.model.OrderConforms accented.source ∧
    accented.projection.isMissingCell (some 0) = false ∧
    (∃ x, accented.projection.isLegal .marks x = true ∧ accented.ShownAt .marks 0 0 x) ∧
    ∀ leadingHalf, ¬accented.PressLands .marks 0 0 leadingHalf := by
  refine ⟨accented_live, strongMark_orderConforms, by decide,
    ⟨0, by decide, by decide, by decide⟩, fun leadingHalf => ?_⟩
  have hanchor : accented.pointerAnchorAt .marks 0 0 leadingHalf = some 5 := by
    cases leadingHalf <;> decide
  have hoffset : (accented.displayOf .marks 5).offset = 1 := by decide
  rintro ⟨c, hc, -, -, hshown⟩
  obtain rfl := Option.some.inj (hanchor.symm.trans hc)
  rw [hoffset] at hshown
  exact absurd hshown (by decide)

end Document

end Flark
