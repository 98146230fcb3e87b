import Flark.Cells.CellLayout
import Flark.Lib.Tiling
import Mathlib.Data.Int.ConditionallyCompleteOrder

/-!
# Wrapping

How the lines that `_addText` makes of a text follow each other. The walk over the graphemes
keeps offsets, columns and the ends of lines in step: what it has written so far tiles the text
that it has passed (`Pen.Laid`).

* `CellSettings.penStep_laid`: a turn of the loop;
* `CellSettings.textLines_laid`: the lines of a text, whatever the width;
* `CellSettings.addText_wraps`: the glyphs and the line breaks are the graphemes of the text,
  and every line leaves a cell for the caret.
-/

namespace Flark

/-- The column behind a glyph. -/
def CellGlyph.endCol {CellStyle : Type} (g : CellGlyph CellStyle) : Int := g.col + g.width

def CellGlyph.moveLeft {CellStyle : Type} (n : Int) (g : CellGlyph CellStyle) :
    CellGlyph CellStyle :=
  { g with col := g.col - n }

namespace CellFragment

variable {CellStyle : Type}

/-- The graphemes between two lines of `_addText`. -/
def lineBreaks : List Text := [[0x0A], [0x0D, 0x0A]]

/-- The ranges of the glyphs of lines, and those of the breaks between them; the line before them
    stops at `before`. -/
def rangesFrom : (before : Nat) → List (CellFragment CellStyle) → List (Nat × Nat)
  | _, [] => []
  | before, line :: lines =>
    (if before < line.start then [(before, line.start)] else []) ++
      line.glyphs.map (fun g => (g.start, g.stop)) ++ rangesFrom line.stop lines

/-- A line goes on after another one: behind a line break, or where the other is full. -/
def Follows (painted : Text) (line next : CellFragment CellStyle) : Prop :=
  painted.substring line.stop next.start ∈ lineBreaks ∨
    line.stop = next.start ∧ line.glyphs ≠ [] ∧ next.glyphs ≠ []

/-- A line of the text itself: no padding row of code, and no rule of a heading. -/
def ofText (line : CellFragment CellStyle) : Bool := line.codeEdgeTop.isNone && !line.headingRule

/-- Glyphs lie side by side behind the prefix, in the columns and in the text up to `stop`. -/
structure Even (stop : Nat) (line : CellFragment CellStyle) : Prop where
  columns : Tiling.Tiles CellGlyph.col CellGlyph.endCol (line.left + line.linePrefix.length)
    line.glyphs line.endColumn
  offsets : Tiling.Tiles CellGlyph.start CellGlyph.stop line.start line.glyphs stop

/-- Lines that lie over a text one behind the other, their glyphs and the breaks between them being
    the graphemes of what is painted of it. -/
structure LaysOut (painted : Text) (graphemes : List Text) (length : Nat)
    (lines : List (CellFragment CellStyle)) : Prop where
  even : ∀ line ∈ lines, line.Even (min line.stop painted.length)
  follows : lines.IsChain (Follows painted)
  ranges : rangesFrom 0 lines = Graphemes.spansFrom 0 graphemes
  first : lines.head?.map start = some 0
  last : lines.getLast?.map stop = some length

variable {before : Nat} {lines : List (CellFragment CellStyle)} {line : CellFragment CellStyle}

theorem rangesFrom_concat : rangesFrom before (lines ++ [line]) =
    rangesFrom before lines ++
      ((if (lines.map CellFragment.stop).getLastD before < line.start then
          [((lines.map CellFragment.stop).getLastD before, line.start)] else []) ++
        line.glyphs.map (fun g => (g.start, g.stop))) := by
  induction lines generalizing before with
  | nil => simp only [List.nil_append, rangesFrom, List.append_nil, List.map_nil, List.getLastD_nil]
  | cons first lines ih =>
    rw [List.cons_append, rangesFrom, ih, rangesFrom, List.map_cons, List.getLastD_cons]
    simp only [List.append_assoc]

/-- Behind the glyphs of a line, or the prefix of a line that has none. -/
theorem endColumn_of_concat {glyphs : List (CellGlyph CellStyle)} {g : CellGlyph CellStyle}
    (h : line.glyphs = glyphs ++ [g]) : line.endColumn = g.endCol := by
  rw [endColumn, h, List.getLast?_concat]
  rfl

/-- A line at the left margin: where it stands in the columns, and what is beside its text, are
    left out. -/
def atMargin (line : CellFragment CellStyle) : CellFragment CellStyle :=
  { (of none line.start line.linePrefix 0 : CellFragment CellStyle) with
    glyphs := line.glyphs.map (CellGlyph.moveLeft line.left)
    stop := line.stop }

theorem endColumn_of_nil (h : line.glyphs = []) :
    line.endColumn = line.left + line.linePrefix.length := by
  rw [endColumn, h]
  rfl

theorem endColumn_atMargin (line : CellFragment CellStyle) :
    (atMargin line).endColumn = line.endColumn - line.left := by
  rcases List.eq_nil_or_concat line.glyphs with h | ⟨glyphs, g, h⟩
  · rw [endColumn_of_nil h, endColumn_of_nil (by rw [atMargin, h, List.map_nil])]
    show (0 : Int) + line.linePrefix.length = _
    omega
  · rw [List.concat_eq_append] at h
    have hmap : (atMargin line).glyphs = glyphs.map (CellGlyph.moveLeft line.left) ++
        [CellGlyph.moveLeft line.left g] := by
      rw [atMargin, h, List.map_append, List.map_singleton]
    rw [endColumn_of_concat h, endColumn_of_concat hmap]
    show g.col - line.left + g.width = g.col + g.width - line.left
    omega

theorem even_iff_atMargin {stop : Nat} : (atMargin line).Even stop ↔ line.Even stop := by
  have hend : (atMargin line).endColumn = line.endColumn - line.left := endColumn_atMargin line
  have hcolumns : Tiling.Tiles CellGlyph.col CellGlyph.endCol
      ((atMargin line).left + (atMargin line).linePrefix.length) (atMargin line).glyphs
        (atMargin line).endColumn ↔
      Tiling.Tiles CellGlyph.col CellGlyph.endCol (line.left + line.linePrefix.length) line.glyphs
        line.endColumn := by
    rw [hend, show (atMargin line).left + (atMargin line).linePrefix.length =
      line.left + line.linePrefix.length - line.left by
        show (0 : Int) + line.linePrefix.length = _
        omega]
    exact Tiling.tiles_map (f := fun x => x - line.left) (g := CellGlyph.moveLeft line.left)
      (fun x y => by omega) (fun x y h => by dsimp only at h; omega) (fun _ => rfl) fun g => by
        show g.col - line.left + g.width = g.col + g.width - line.left
        omega
  have hoffsets :
      Tiling.Tiles CellGlyph.start CellGlyph.stop line.start (atMargin line).glyphs stop ↔
      Tiling.Tiles CellGlyph.start CellGlyph.stop line.start line.glyphs stop :=
    Tiling.tiles_map (f := id) (g := CellGlyph.moveLeft line.left) (fun _ _ => Iff.rfl)
      Function.injective_id (fun _ => rfl) fun _ => rfl
  exact ⟨fun h => ⟨hcolumns.1 h.columns, hoffsets.1 h.offsets⟩,
    fun h => ⟨hcolumns.2 h.columns, hoffsets.2 h.offsets⟩⟩

theorem rangesFrom_atMargin : rangesFrom before (lines.map atMargin) = rangesFrom before lines := by
  induction lines generalizing before with
  | nil => rfl
  | cons first lines ih =>
    rw [List.map_cons, rangesFrom, rangesFrom, ih, atMargin, List.map_map]
    rfl

theorem follows_atMargin {painted : Text} {next : CellFragment CellStyle} :
    (atMargin line).Follows painted (atMargin next) ↔ line.Follows painted next := by
  simp only [Follows, atMargin, ne_eq, List.map_eq_nil_iff, of]

/-- What lines lie over does not depend on where they stand in the columns. -/
theorem laysOut_atMargin {painted : Text} {graphemes : List Text} {length : Nat} :
    LaysOut painted graphemes length (lines.map atMargin) ↔
      LaysOut painted graphemes length lines := by
  have hfirst : (lines.map atMargin).head?.map start = lines.head?.map start := by
    rw [List.head?_map, Option.map_map]
    rfl
  have hlast : (lines.map atMargin).getLast?.map stop = lines.getLast?.map stop := by
    rw [List.getLast?_map, Option.map_map]
    rfl
  have heven : (∀ line ∈ lines.map atMargin, line.Even (min line.stop painted.length)) ↔
      ∀ line ∈ lines, line.Even (min line.stop painted.length) := by
    rw [List.forall_mem_map]
    exact forall₂_congr fun line _ => even_iff_atMargin
  have hfollows :
      (lines.map atMargin).IsChain (Follows painted) ↔ lines.IsChain (Follows painted) := by
    rw [List.isChain_map]
    simp only [follows_atMargin]
  exact ⟨fun h => ⟨heven.1 h.even, hfollows.1 h.follows, rangesFrom_atMargin.symm.trans h.ranges,
      hfirst ▸ h.first, hlast ▸ h.last⟩,
    fun h => ⟨heven.2 h.even, hfollows.2 h.follows, rangesFrom_atMargin.trans h.ranges,
      hfirst ▸ h.first, hlast ▸ h.last⟩⟩

end CellFragment

namespace CellSettings

variable {CellStyle CellWidthPolicy : Type} {c : CellSettings CellStyle CellWidthPolicy}
  {k : RowInk CellStyle} {painted : Text} {done : List Text}
  {lines : List (CellFragment CellStyle)} {line next : CellFragment CellStyle}

/-- A line as the walk makes it: only where it starts and stops, its prefix and its glyphs differ
    from those of the others. -/
structure RowInk.Draws (k : RowInk CellStyle) (line : CellFragment CellStyle) : Prop where
  eq_of : line = { (CellFragment.of k.row line.start line.linePrefix k.sourceStart :
    CellFragment CellStyle) with glyphs := line.glyphs, stop := line.stop }
  length_linePrefix : line.linePrefix.length = k.linePrefix.length

/-- A line leaves a cell for the caret, where the width has one beside the prefix. -/
def RowInk.HasRoom (k : RowInk CellStyle) (line : CellFragment CellStyle) : Prop :=
  k.linePrefix.length + 2 ≤ k.cols → line.endColumn ≤ k.cols - 1

/-- The lines that the walk has written of a painted text when it has passed some graphemes. -/
structure Drawn (k : RowInk CellStyle) (painted : Text) (done : List Text)
    (lines : List (CellFragment CellStyle)) : Prop where
  draws : ∀ line ∈ lines, k.Draws line
  room : ∀ line ∈ lines, k.HasRoom line
  even : ∀ line ∈ lines, line.Even line.stop
  within : ∀ line ∈ lines, line.stop ≤ done.flatten.length
  follows : lines.IsChain (CellFragment.Follows painted)
  ranges : CellFragment.rangesFrom 0 lines = Graphemes.spansFrom 0 done
  first : lines.head?.map CellFragment.start = some 0
  last : ∀ line ∈ lines.getLast?, line.stop = done.flatten.length

theorem length_flatten_concat (g : Text) :
    (done ++ [g]).flatten.length = done.flatten.length + g.length := by
  rw [List.flatten_append, List.length_append, List.flatten_singleton]

theorem spansFrom_concat (g : Text) (start : Nat) :
    Graphemes.spansFrom start (done ++ [g]) = Graphemes.spansFrom start done ++
      [(start + done.flatten.length, start + done.flatten.length + g.length)] := by
  induction done generalizing start with
  | nil => rfl
  | cons first done ih =>
    rw [List.cons_append, Graphemes.spansFrom, ih, Graphemes.spansFrom, List.flatten_cons,
      List.length_append, List.cons_append, ← Nat.add_assoc]

/-- The graphemes of a text tile it. -/
theorem tiles_spansFrom {graphemes : List Text} (hne : ∀ g ∈ graphemes, g ≠ []) (start : Nat) :
    Tiling.Tiles Prod.fst Prod.snd start (Graphemes.spansFrom start graphemes)
      (start + graphemes.flatten.length) := by
  induction graphemes generalizing start with
  | nil => rfl
  | cons g graphemes ih =>
    refine ⟨rfl, Nat.lt_add_of_pos_right (List.length_pos_of_ne_nil (hne g List.mem_cons_self)), ?_⟩
    have hrest := ih (fun g' hg' => hne g' (List.mem_cons_of_mem g hg')) (start + g.length)
    rwa [Nat.add_assoc, ← List.length_append, ← List.flatten_cons] at hrest

/-- Another line, of the grapheme that the walk passes. -/
theorem Drawn.concat {g : Text} (h : Drawn k painted done (lines ++ [line])) (hdraws : k.Draws next)
    (hroom : k.HasRoom next) (heven : next.Even next.stop)
    (hstop : next.stop = line.stop + g.length)
    (hfollows : line.Follows painted next)
    (hrange : (if line.stop < next.start then [(line.stop, next.start)] else []) ++
      next.glyphs.map (fun g => (g.start, g.stop)) = [(line.stop, line.stop + g.length)]) :
    Drawn k painted (done ++ [g]) (lines ++ [line] ++ [next]) := by
  have hlast : line.stop = done.flatten.length := h.last line (by rw [List.getLast?_concat]; rfl)
  have hmem {P : CellFragment CellStyle → Prop} (hlines : ∀ l ∈ lines ++ [line], P l)
      (hnext : P next) : ∀ l ∈ lines ++ [line] ++ [next], P l := fun l hl =>
    (List.mem_append.1 hl).elim (hlines l) fun hl => List.mem_singleton.1 hl ▸ hnext
  refine ⟨hmem h.draws hdraws, hmem h.room hroom, hmem h.even heven, hmem (fun l hl => ?_) ?_, ?_,
    ?_, ?_, ?_⟩
  · rw [length_flatten_concat]
    exact (h.within l hl).trans (Nat.le_add_right _ _)
  · rw [length_flatten_concat, hstop, hlast]
  · refine List.isChain_append.2 ⟨h.follows, List.isChain_singleton next, fun l hl l' hl' => ?_⟩
    rw [List.getLast?_concat] at hl
    rw [← Option.some_inj.1 hl, ← Option.some_inj.1 hl']
    exact hfollows
  · rw [CellFragment.rangesFrom_concat, h.ranges, List.map_append, List.map_singleton,
      List.getLastD_concat, hrange, spansFrom_concat, Nat.zero_add, hlast]
  · rw [List.head?_append, Option.map_or, h.first]
    rfl
  · intro l hl
    rw [List.getLast?_concat] at hl
    rw [← Option.some_inj.1 hl, length_flatten_concat, hstop, hlast]

/-- Another glyph on the last line. -/
theorem Drawn.glyph {g : CellGlyph CellStyle} {grapheme : Text}
    (h : Drawn k painted done (lines ++ [line])) (hcol : g.col = line.endColumn)
    (hwidth : 0 < g.width) (hroom : k.linePrefix.length + 2 ≤ k.cols → g.endCol ≤ k.cols - 1)
    (hstart : g.start = line.stop) (hstop : g.stop = line.stop + grapheme.length)
    (hgrapheme : grapheme ≠ []) :
    Drawn k painted (done ++ [grapheme])
      (lines ++ [{ line with glyphs := line.glyphs ++ [g], stop := g.stop }]) := by
  have hline : line ∈ lines ++ [line] := List.mem_append_right lines (List.mem_singleton_self line)
  have hlast : line.stop = done.flatten.length := h.last line (by rw [List.getLast?_concat]; rfl)
  have hpos := List.length_pos_of_ne_nil hgrapheme
  have hmem {P : CellFragment CellStyle → Prop} (hlines : ∀ l ∈ lines ++ [line], P l)
      (hnew : P { line with glyphs := line.glyphs ++ [g], stop := g.stop }) :
      ∀ l ∈ lines ++ [{ line with glyphs := line.glyphs ++ [g], stop := g.stop }], P l :=
    fun l hl => (List.mem_append.1 hl).elim (fun hl => hlines l (List.mem_append_left _ hl))
      fun hl => List.mem_singleton.1 hl ▸ hnew
  have hchain := List.isChain_append.1 h.follows
  -- Only the last line is another one: its glyphs and its end.
  refine ⟨hmem h.draws ⟨?_, (h.draws line hline).length_linePrefix⟩, hmem h.room fun hcols => ?_,
    hmem h.even ⟨?_, ?_⟩, hmem (fun l hl => ?_) ?_, ?_, ?_, ?_, ?_⟩
  · conv_lhs => rw [(h.draws line hline).eq_of]
  · rw [CellFragment.endColumn_of_concat rfl]
    exact hroom hcols
  · have hcolumns := (h.even line hline).columns
    rw [← hcol] at hcolumns
    have hend : g.col < g.endCol := by
      rw [CellGlyph.endCol]
      omega
    rw [CellFragment.endColumn_of_concat rfl]
    exact hcolumns.concat hend
  · have hoffsets := (h.even line hline).offsets
    rw [← hstart] at hoffsets
    exact hoffsets.concat (by omega)
  · rw [length_flatten_concat]
    exact (h.within l hl).trans (Nat.le_add_right _ _)
  · rw [length_flatten_concat]
    dsimp only
    omega
  · refine List.isChain_append.2 ⟨hchain.1, List.isChain_singleton _, fun l hl l' hl' => ?_⟩
    rw [← Option.some_inj.1 hl']
    refine (hchain.2.2 l hl line rfl).imp_right fun hfollows => ⟨hfollows.1, hfollows.2.1, ?_⟩
    exact List.append_ne_nil_of_right_ne_nil _ (List.cons_ne_nil _ _)
  · have hranges := h.ranges
    rw [CellFragment.rangesFrom_concat] at hranges ⊢
    rw [spansFrom_concat, ← hranges]
    simp only [List.map_append, List.map_singleton, List.append_assoc, hstart, hstop, hlast,
      Nat.zero_add]
  · have hfirst := h.first
    rw [List.head?_append, Option.map_or] at hfirst ⊢
    exact hfirst
  · intro l hl
    rw [List.getLast?_concat] at hl
    rw [← Option.some_inj.1 hl, length_flatten_concat, ← hlast]
    exact hstop

/-! ## The walk -/

/-- A policy that gives what stands for a mark without a cell at least one. -/
def Substitutes (c : CellSettings CellStyle CellWidthPolicy) : Prop :=
  ∀ g : Text, c.widthOfText (c.fleury.sanitizeForDisplay g) = 0 →
    0 < c.widthOfText (Text.ofString "◌" ++ c.fleury.sanitizeForDisplay g)

/-- Every glyph has a cell, and fits on a line of its own. -/
theorem glyphFor_width (hc : c.Substitutes) (k : RowInk CellStyle) (col : Int) (grapheme : Text) :
    0 < (c.glyphFor k col grapheme).2 ∧
      (c.glyphFor k col grapheme).2 ≤ max (k.cols - k.linePrefix.length - 1) 1 := by
  have hmod := Int.emod_nonneg (col - k.linePrefix.length) (show (4 : Int) ≠ 0 by omega)
  have hmod' := Int.emod_lt_of_pos (col - k.linePrefix.length) (show (0 : Int) < 4 by omega)
  have hsubstitutes := hc grapheme
  unfold glyphFor
  dsimp only
  split_ifs <;> dsimp only at * <;> omega

/-- Where the walk is. -/
structure Pen.Laid (k : RowInk CellStyle) (painted : Text) (done : List Text)
    (pen : Pen CellStyle) : Prop where
  drawn : Drawn k painted done (pen.lines ++ [pen.line])
  col : pen.col = pen.line.endColumn
  offset : pen.offset = done.flatten.length
  stop : pen.line.stop = pen.offset

theorem lines_wrap {pen : Pen CellStyle} (h : pen.line.stop = pen.offset) (start : Nat) :
    (pen.wrap k start).lines = pen.lines ++ [pen.line] := by
  rw [Pen.wrap, ← h]

/-- A turn of the loop. -/
theorem penStep_laid (hc : c.Substitutes) (hk : k.continued.length = k.linePrefix.length)
    {pen : Pen CellStyle} {g rest : Text} (h : pen.Laid k painted done)
    (hpainted : painted = done.flatten ++ (g ++ rest)) (hg : g ≠ []) :
    (c.penStep k pen g).Laid k painted (done ++ [g]) := by
  have hpos := List.length_pos_of_ne_nil hg
  have hdraws (start : Nat) (glyphs : List (CellGlyph CellStyle)) (stop : Nat) :
      k.Draws { CellFragment.of k.row start k.continued k.sourceStart with
        glyphs := glyphs, stop := stop } := ⟨rfl, hk⟩
  unfold penStep
  -- A break ends the line. Any other grapheme goes on it where it fits, or is the first of it; else
  -- it begins the next line.
  split_ifs with hbreak
  · refine ⟨?_, ?_, ?_, rfl⟩
    · rw [lines_wrap h.stop]
      refine h.drawn.concat (hdraws _ [] _) (fun hcols => ?_) ⟨rfl, rfl⟩ (by rw [h.stop]; rfl)
        (.inl ?_) ?_
      · show (0 : Int) + k.continued.length ≤ k.cols - 1
        omega
      · have hpart : painted.substring pen.line.stop (pen.offset + g.length : Nat) = g := by
          rw [h.stop, h.offset, hpainted, Text.substring, Int.toNat_natCast, List.drop_left,
            show (((done.flatten.length + g.length : Nat) : Int) - done.flatten.length).toNat =
              g.length by omega, List.take_left]
        show painted.substring pen.line.stop (pen.offset + g.length : Nat) ∈ CellFragment.lineBreaks
        rw [hpart, CellFragment.lineBreaks, List.mem_cons, List.mem_singleton]
        exact hbreak
      · rw [h.stop]
        exact (List.append_nil _).trans (if_pos (Nat.lt_add_of_pos_right hpos))
    · show (k.linePrefix.length : Int) = 0 + k.continued.length
      rw [hk, Int.zero_add]
    · rw [length_flatten_concat]
      exact congrArg (· + g.length) h.offset
  · obtain ⟨hwidth, hfits⟩ := c.glyphFor_width hc k pen.col g
    dsimp only
    split_ifs with hwrap
    · have hcol : (pen.wrap k pen.offset).col = 0 + k.continued.length := by
        rw [hk, Int.zero_add]
        rfl
      refine ⟨?_, ?_, ?_, rfl⟩
      · rw [lines_wrap h.stop]
        refine h.drawn.concat (hdraws _ _ _) (fun hcols => ?_) ⟨⟨?_, ?_, ?_⟩, rfl, ?_, rfl⟩ ?_
          (.inr ⟨h.stop, hwrap.2, List.cons_ne_nil _ _⟩) ?_
        · show (k.linePrefix.length : Int) + (c.glyphFor k pen.col g).2 ≤ k.cols - 1
          omega
        · exact hcol
        · exact hcol.symm.trans_lt (lt_add_of_pos_right _ hwidth)
        · rfl
        · exact Nat.lt_add_of_pos_right hpos
        · rw [h.stop]
        · rw [h.stop]
          exact congrArg (· ++ [(pen.offset, pen.offset + g.length)]) (if_neg (Nat.lt_irrefl _))
      · rfl
      · rw [length_flatten_concat]
        exact congrArg (· + g.length) h.offset
    · refine ⟨?_, ?_, ?_, rfl⟩
      · refine h.drawn.glyph h.col hwidth (fun hcols => ?_) h.stop.symm (by rw [h.stop]) hg
        show pen.col + (c.glyphFor k pen.col g).2 ≤ k.cols - 1
        by_cases hnil : pen.line.glyphs = []
        · have hline : k.Draws pen.line :=
            h.drawn.draws _ (List.mem_append_right _ (List.mem_singleton_self _))
          have hleft : pen.line.left = 0 := by
            rw [hline.eq_of]
            rfl
          have hcol : pen.col = k.linePrefix.length := by
            rw [h.col, CellFragment.endColumn_of_nil hnil, hleft, hline.length_linePrefix,
              Int.zero_add]
          omega
        · exact not_lt.1 fun hlt => hwrap ⟨hlt, hnil⟩
      · rw [CellFragment.endColumn_of_concat rfl]
        rfl
      · rw [length_flatten_concat]
        exact congrArg (· + g.length) h.offset

theorem foldl_penStep_laid (hc : c.Substitutes) (hk : k.continued.length = k.linePrefix.length)
    {pen : Pen CellStyle} {graphemes : List Text} (h : pen.Laid k painted done)
    (hpainted : painted = done.flatten ++ graphemes.flatten) (hne : ∀ g ∈ graphemes, g ≠ []) :
    (graphemes.foldl (c.penStep k) pen).Laid k painted (done ++ graphemes) := by
  induction graphemes generalizing done pen with
  | nil => rwa [List.append_nil]
  | cons g graphemes ih =>
    have hstep := penStep_laid hc hk h hpainted (hne g List.mem_cons_self)
    have hrest := ih hstep (by
      rw [hpainted, List.flatten_append, List.flatten_singleton, List.append_assoc,
        List.flatten_cons]) fun g' hg' => hne g' (List.mem_cons_of_mem g hg')
    rwa [List.append_assoc] at hrest

/-! ## The lines of a text -/

theorem textLines_laid (hc : c.Substitutes) (hk : k.continued.length = k.linePrefix.length)
    (hlength : k.painted.length ≤ k.length) :
    CellFragment.LaysOut k.painted (c.graphemes.split k.painted) k.length (c.textLines k) ∧
      ∀ line ∈ c.textLines k, k.Draws line ∧ k.HasRoom line := by
  have hstart : Pen.Laid k k.painted [] (⟨[], .of k.row 0 k.linePrefix k.sourceStart, 0,
      k.linePrefix.length, k.styles⟩ : Pen CellStyle) := by
    refine ⟨⟨?_, ?_, ?_, ?_, List.isChain_singleton _, rfl, rfl, ?_⟩, ?_, rfl, rfl⟩
    · exact fun l hl => List.mem_singleton.1 hl ▸ ⟨rfl, rfl⟩
    · refine fun l hl => List.mem_singleton.1 hl ▸ fun hcols => ?_
      show (0 : Int) + k.linePrefix.length ≤ k.cols - 1
      omega
    · exact fun l hl => List.mem_singleton.1 hl ▸ ⟨rfl, rfl⟩
    · exact fun l hl => List.mem_singleton.1 hl ▸ Nat.le_refl 0
    · exact fun l hl => Option.some_inj.1 hl ▸ rfl
    · exact (Int.zero_add _).symm
  -- The loop starts with an empty line, and ends with the last line closed at the text's end.
  have hlaid := foldl_penStep_laid hc hk hstart (by
    rw [List.flatten_nil, List.nil_append, c.graphemes.flatten_split])
    (c.graphemes.ne_nil k.painted)
  rw [List.nil_append] at hlaid
  unfold textLines
  generalize (c.graphemes.split k.painted).foldl (c.penStep k) _ = pen at hlaid ⊢
  obtain ⟨⟨hdraws, hroom, heven, hwithin, hfollows, hranges, hfirst, -⟩, -, hoffset, hstop⟩ := hlaid
  rw [c.graphemes.flatten_split] at hwithin hoffset
  have hline : pen.line ∈ pen.lines ++ [pen.line] :=
    List.mem_append_right _ (List.mem_singleton_self _)
  have hmem {P : CellFragment CellStyle → Prop} (hlines : ∀ l ∈ pen.lines ++ [pen.line], P l)
      (hlast : P { pen.line with stop := k.length }) :
      ∀ l ∈ pen.lines ++ [{ pen.line with stop := k.length }], P l := fun l hl =>
    (List.mem_append.1 hl).elim (fun hl => hlines l (List.mem_append_left _ hl))
      fun hl => List.mem_singleton.1 hl ▸ hlast
  have hchain := List.isChain_append.1 hfollows
  refine ⟨⟨hmem (fun l hl => ?_) ?_, ?_, ?_, ?_, ?_⟩,
    hmem (fun l hl => ⟨hdraws l hl, hroom l hl⟩)
      ⟨⟨?_, (hdraws _ hline).length_linePrefix⟩, hroom pen.line hline⟩⟩
  · rw [Nat.min_eq_left (hwithin l hl)]
    exact heven l hl
  · have hmin : min k.length k.painted.length = pen.line.stop := by
      rw [Nat.min_eq_right hlength, hstop, hoffset]
    exact ⟨(heven _ hline).columns, hmin ▸ (heven _ hline).offsets⟩
  · refine List.isChain_append.2 ⟨hchain.1, List.isChain_singleton _, fun l hl l' hl' => ?_⟩
    rw [← Option.some_inj.1 hl']
    exact hchain.2.2 l hl pen.line rfl
  · rw [CellFragment.rangesFrom_concat] at hranges ⊢
    exact hranges
  · rw [List.head?_append, Option.map_or] at hfirst ⊢
    exact hfirst
  · rw [List.getLast?_concat]
    rfl
  · conv_lhs => rw [(hdraws _ hline).eq_of]

/-! ## What `_addText` adds -/

theorem length_continuation (m : Markers) (linePrefix : Text) (row : Option ProjectedRow) :
    (c.continuation m linePrefix row).length = linePrefix.length := by
  cases row with
  | none => exact Text.length_blanks _
  | some row =>
    rw [continuation]
    split_ifs with h
    · exact h
    · exact Text.length_blanks _

/-- Less is painted of a text than it has, if padding is left out. -/
theorem length_painted_le (m : Markers) (row : Option ProjectedRow) (text linePrefix : Text)
    (sourceStart : Nat) (outerCols : Int) (colors : Option CodeHighlight) :
    (c.ink m row text linePrefix sourceStart outerCols colors).painted.length ≤ text.length :=
  (List.length_take_le' _ _)

/-- A line without what is beside its text: the place of a block and of a heading's level. -/
def bare (line : CellFragment CellStyle) : CellFragment CellStyle :=
  { line with blockLeft := 0, headingLabelColumn := none }

theorem ofText_of_draws (h : k.Draws line) : line.ofText ∧ bare line = line := by
  rw [h.eq_of]
  exact ⟨rfl, rfl⟩

theorem map_bare_labelLines (lines : List (CellFragment CellStyle)) :
    (c.labelLines k lines).map bare = lines.map bare := by
  refine List.ext_getElem (by simp [labelLines]) fun i hi hi' => ?_
  rw [List.getElem_map, List.getElem_map]
  simp only [labelLines, List.getElem_mapIdx]
  rfl

theorem filter_map_bare (lines : List (CellFragment CellStyle)) :
    (lines.map bare).filter CellFragment.ofText = (lines.filter CellFragment.ofText).map bare :=
  List.filter_map

theorem filter_ofText_codeEdge (top : Bool) (start : Nat) (linePrefix : Text) :
    (c.codeEdge k top start linePrefix).filter CellFragment.ofText = [] := by
  rw [codeEdge]
  split_ifs <;> rfl

/-- The lines of the text are those that the walk has made. -/
theorem map_bare_inkLines (hlines : ∀ line ∈ c.textLines k, k.Draws line) :
    ((c.inkLines k).filter CellFragment.ofText).map bare = c.textLines k := by
  have hbare : (c.textLines k).map bare = c.textLines k :=
    (List.map_congr_left fun l hl => (ofText_of_draws (hlines l hl)).2).trans (List.map_id _)
  have hall : (c.textLines k).filter CellFragment.ofText = c.textLines k :=
    List.filter_eq_self.2 fun l hl => (ofText_of_draws (hlines l hl)).1
  unfold inkLines
  dsimp only
  cases k.heading with
  | some heading =>
    have hlabels : ((c.labelLines k (c.textLines k)).filter CellFragment.ofText).map bare =
        c.textLines k := by
      rw [← filter_map_bare, map_bare_labelLines, hbare, hall]
    dsimp only
    rw [headingLines]
    split_ifs
    · rw [List.filter_append, List.map_append, hlabels]
      exact List.append_nil _
    · exact hlabels
  | none =>
    dsimp only
    split_ifs
    · rw [codeLines, List.filter_append, List.filter_append, filter_ofText_codeEdge,
        filter_ofText_codeEdge, List.nil_append, List.append_nil, ← filter_map_bare, List.map_map]
      exact (congrArg (List.filter CellFragment.ofText) hbare).trans hall
    · rw [hall, hbare]

/-- What the lines of the text lie over does not depend on what is beside it. -/
theorem laysOut_map_bare {graphemes : List Text} {length : Nat} :
    CellFragment.LaysOut painted graphemes length (lines.map bare) ↔
      CellFragment.LaysOut painted graphemes length lines := by
  rw [← CellFragment.laysOut_atMargin, List.map_map, ← @CellFragment.laysOut_atMargin _ lines]
  rfl

/-- The lines that `_addText` makes of a text, beside the padding rows of code and the rule of a
    heading. The glyphs and the breaks between the lines are the graphemes of what is painted, in
    order and one behind the other; a line ends at a break, or where the next starts, and then
    both have glyphs; the glyphs of a line lie side by side behind its prefix, and before its last
    cell. -/
theorem addText_wraps (hc : c.Substitutes) {m : Markers} {row : Option ProjectedRow}
    {text linePrefix : Text} {sourceStart : Nat} {outerCols : Int} {colors : Option CodeHighlight}
    (hcols : 2 ≤ (c.ink m row text linePrefix sourceStart outerCols colors).cols) :
    let k := c.ink m row text linePrefix sourceStart outerCols colors
    let lines := (c.addText m row text linePrefix sourceStart outerCols colors).filter
      CellFragment.ofText
    CellFragment.rangesFrom 0 lines = c.graphemes.spans k.painted ∧
      Tiling.Tiles Prod.fst Prod.snd 0 (CellFragment.rangesFrom 0 lines) k.painted.length ∧
      lines.IsChain (CellFragment.Follows k.painted) ∧
      lines.head?.map CellFragment.start = some 0 ∧
      lines.getLast?.map CellFragment.stop = some text.length ∧
      ∀ line ∈ lines,
        line.left = 0 ∧ line.linePrefix.length = k.linePrefix.length ∧
          Tiling.Tiles CellGlyph.start CellGlyph.stop line.start line.glyphs
            (min line.stop k.painted.length) ∧
          Tiling.Tiles CellGlyph.col CellGlyph.endCol line.linePrefix.length line.glyphs
            line.endColumn ∧
          line.endColumn ≤ k.cols - 1 := by
  intro k lines
  have hk : k.continued.length = k.linePrefix.length := length_continuation m k.linePrefix row
  obtain ⟨hlaid, hlines⟩ := textLines_laid hc hk
    (length_painted_le m row text linePrefix sourceStart outerCols colors)
  have hbare : lines.map bare = c.textLines k := map_bare_inkLines fun l hl => (hlines l hl).1
  have hlays : CellFragment.LaysOut k.painted (c.graphemes.split k.painted) text.length lines := by
    rw [← laysOut_map_bare, hbare]
    exact hlaid
  have htiles := tiles_spansFrom (c.graphemes.ne_nil k.painted) 0
  rw [c.graphemes.flatten_split, Nat.zero_add] at htiles
  refine ⟨hlays.ranges, hlays.ranges ▸ htiles, hlays.follows, hlays.first, hlays.last,
    fun l hl => ?_⟩
  obtain ⟨hdraws, hroom⟩ := hlines (bare l) (hbare ▸ List.mem_map_of_mem hl)
  have hleft : l.left = 0 := congrArg CellFragment.left hdraws.eq_of
  have hcolumns := (hlays.even l hl).columns
  rw [hleft, Int.zero_add] at hcolumns
  have hcols' : 2 ≤ k.cols := hcols
  have hshort : k.linePrefix.length ≤ (max (k.cols - 2) 0).toNat := List.length_take_le _ _
  exact ⟨hleft, hdraws.length_linePrefix, (hlays.even l hl).offsets, hcolumns, hroom (by omega)⟩

/-- A source in five columns, the first two of them a rail. -/
theorem addText_wraps_narrow :
    let c : CellSettings CellStyleArgs Unit :=
      ⟨CellDocumentLayout.plainTerminal, .units, 5, .standard CellDocumentLayout.plainTerminal, ()⟩
    let lines := (c.addText ⟨fun _ => none, fun _ => none⟩ none (Text.ofString "abc\n\nd")
      (Text.ofString "> ") 0 5 none).filter CellFragment.ofText
    lines.map (fun line => (line.start, line.stop)) = [(0, 2), (2, 3), (4, 4), (5, 6)] ∧
      CellFragment.rangesFrom 0 lines = [(0, 1), (1, 2), (2, 3), (3, 4), (4, 5), (5, 6)] := by
  intro c lines
  have hc : c.Substitutes := fun g _ => by
    show 0 < (Text.ofString "◌" ++ c.fleury.sanitizeForDisplay g).length
    rw [List.length_append]
    exact Nat.add_pos_left (by decide) _
  exact ⟨by decide, (addText_wraps hc (by decide)).1.trans (by decide)⟩

end CellSettings

end Flark
