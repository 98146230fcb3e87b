import Flark.Kernel.BodyLines
import Flark.Kernel.CodeEditing
import Flark.Kernel.InlineEdges
import Flark.Kernel.ShiftLine
import Mathlib.Algebra.Order.BigOperators.Group.List
import Mathlib.Data.List.Forall2

/-!
# Shifting the lines of a code block

Tab and Shift-Tab in a code block that no delegate shifts (`_shiftBlock` of
`kernel/code_editing.dart`): an edit for each line, at the start of its content.

* `shiftBlock`: the edits, and where the selection goes;
* `BodyRow`: the row of a fenced block, whose lines can begin with columns of a tab;
* `BlockRead`: the records of a fenced block, as the native side reads its lines;
* `outdent_indent`: Shift-Tab takes away what Tab has put there if and only if each line that gets
  the step has all of its prefix.
-/

namespace Flark

open Edits

namespace CodeEditing

/-! ## The edits -/

/-- What `_shiftBlock` comes to. -/
inductive BlockShift
  | throws (message : String)
  | refused
  /-- `_commit`, which has to keep indented code as it is. -/
  | commits (made : Edits) (selected : Selection) (keepsCode : Bool)
  /-- `_commitCodeEdit`. -/
  | commitsCode (body : Text) (made : Edits) (selected : Selection)
  deriving DecidableEq

/-- The edit of a line, the content of which goes from `at_` to `stop`. -/
def lineShift (source : Text) (outdent : Bool) (unit : Text) (at_ stop : Int) : Option Edit :=
  if outdent then
    let leading := codeLeadingWhitespace (source.substring at_ stop)
    if leading = [] then none
    else
      -- A tab, or up to the step's columns of spaces: a tab step is four.
      let length := if leading.head? = some 0x09 then 1 else min leading.length (columns unit 0)
      some ⟨at_, at_ + length, []⟩
  else if at_ = stop then none else some ⟨at_, at_, unit⟩

/-- The loop over the lines; none if one of them has no caret. -/
def lineShifts (source : Text) (outdent : Bool) (unit : Text) :
    List (Int × Int) → Option (List Edit)
  | [] => some []
  | (at_, stop) :: lines =>
    if at_ < 0 then none
    else (lineShifts source outdent unit lines).map
      ((lineShift source outdent unit at_ stop).toList ++ ·)

/-- The body of a fenced row with edits made, from the last one on. -/
def shiftedBody (row : ProjectedRow) (edits : List Edit) : Text :=
  edits.reverse.foldl (fun body e => body.replaceRange (row.displayForSource e.start).1.toNat
    (row.displayForSource e.stop).1.toNat e.text) row.text

/-- `_shiftBlock` in a row of code that has the whole selection, and that no delegate shifts. -/
def shiftBlock (source : Text) (m : RenderModel) (row : ProjectedRow) (selection : Selection)
    (outdent : Bool) (language : Text) : BlockShift :=
  let first := row.lineIndexOf m selection.start
  let last := row.lineIndexOf m selection.stop
  let contentStart (i : Int) := row.contentStarts.getD i.toNat (-1)
  if contentStart first < 0 ∨ contentStart last < 0 then .refused
  else
    let unit := codeIndentUnit row.text language
    if !outdent ∧ selection.isCollapsed then
      -- Tab at a caret types the step there.
      let at_ := selection.extent
      .commits ⟨[⟨at_, at_, unit⟩], rfl⟩ (.collapsed (at_ + unit.length)) !row.fenced
    else
      let last :=
        -- A line at whose start the selection ends is not shifted.
        if !selection.isCollapsed ∧ first < last ∧ selection.stop = contentStart last then last - 1
        else last
      let lines := (List.range' first.toNat (last + 1 - first).toNat).map fun i =>
        (row.contentStarts.getD i (-1), row.contentEnds.getD i (-1))
      match lineShifts source outdent unit lines with
      | none => .refused
      | some [] => .refused
      | some (e :: edits) =>
        if h : isDisjoint (e :: edits) = true then
          let made : Edits := ⟨e :: edits, h⟩
          let shifted : Selection :=
            ⟨made.forward selection.base true, made.forward selection.extent true, none⟩
          if row.fenced then .commitsCode (shiftedBody row made.list) made shifted
          else .commits made shifted true
        else .throws "overlapping edits"

/-! ## The rows of fenced blocks -/

/-- A line as the row of a fenced block shows it, behind the columns of a tab that its prefix has
    left. -/
def shownLine (source : Text) (c : ContentView) : Text :=
  List.replicate c.virtualSpaces 0x20 ++ source.substring c.start c.stop

/-- The row of a fenced block, over the records of its lines. -/
structure BodyRow (m : RenderModel) (source : Text) (row : ProjectedRow)
    (content : List ContentView) : Prop where
  fenced : row.fenced = true
  carets : ∃ tail, row.contentStarts = -1 :: (content.map ContentView.start ++ tail) ∧
    row.contentEnds = -1 :: (content.map ContentView.stop ++ tail)
  text : content ≠ [] → row.text = [0x0A].intercalate (content.map (shownLine source))
  line : ∀ i c, content[i]? = some c → ∀ x, c.start ≤ x → x ≤ c.stop →
    row.lineIndexOf m x = (i + 1 : Nat)
  within : ∀ c ∈ content, 0 ≤ c.start ∧ c.start ≤ c.stop ∧ c.stop ≤ source.length
  sorted : content.Pairwise fun c c' => c.stop < c'.start
  plain : ∀ c ∈ content, 0x0A ∉ source.substring c.start c.stop

section

variable {source : Text} {leaf : LeafRecords}

/-- The step of a piece shows its line behind the break. -/
theorem text_literalStep (previous : Option ContentView) (st : LiteralState) (c : ContentView) :
    (literalStep source leaf previous st c).out.text =
      (literalBreak st.out previous c).text ++ shownLine source c := by
  have hvirtual : (emitVirtual (literalBreak st.out previous c) c).text =
      (literalBreak st.out previous c).text ++ List.replicate c.virtualSpaces 0x20 := by
    rw [emitVirtual]
    split_ifs with hpos
    · rfl
    · rw [Nat.eq_zero_of_not_pos hpos, List.replicate_zero, List.append_nil]
  rw [literalStep]
  dsimp only
  split
  · rw [Out.add, hvirtual, shownLine, List.append_assoc]
  · next hge =>
    have hempty : source.substring c.start c.stop = [] := by
      rw [Text.substring, show (c.stop - c.start).toNat = 0 by omega, List.take_zero]
    rw [hvirtual, shownLine, hempty, List.append_nil]

/-- The walk shows the lines with breaks between them. -/
theorem text_literalWalk (previous : Option ContentView) (st : LiteralState) (c : ContentView)
    (content : List ContentView) :
    (literalWalk source leaf previous st (c :: content)).out.text =
      (literalBreak st.out previous c).text ++
        [0x0A].intercalate ((c :: content).map (shownLine source)) := by
  induction content generalizing previous st c with
  | nil =>
    rw [List.map_singleton, List.intercalate_singleton]
    exact text_literalStep previous st c
  | cons c' content ih =>
    have hlines : [0x0A].intercalate ((c :: c' :: content).map (shownLine source)) =
        shownLine source c ++ 0x0A :: [0x0A].intercalate ((c' :: content).map (shownLine source)) :=
      Fronts.intercalate_cons _ _ _
    rw [literalWalk, ih (some c) (literalStep source leaf previous st c) c', literalBreak, Out.add]
    dsimp only
    rw [text_literalStep, hlines]
    simp only [List.append_assoc, List.cons_append, List.nil_append]

/-- The row of a fenced block. -/
theorem bodyRow_literalRow {m : RenderModel} {b : Nat} (hm : m.SchemaConforms source)
    (hsrc : NoBareReturn source) (hb : b < m.blockCount) (hfenced : m.blockFenced b = true)
    (hbody : m.BodyConforms source b) (shells : List Shell) :
    BodyRow m source (literalRow m source b (m.leaf b) shells) (m.contentOf b) := by
  -- A line of the body is the one behind the fence, and so on, and its content stops with it.
  have hrecord : ∀ i c, (m.contentOf b)[i]? = some c → _ := fun i c hc =>
    record_of_body hm hb hfenced hbody hc
  obtain ⟨tail, -, hstarts, hends, -⟩ := carets_literalRow hm hb hfenced hbody shells
  have hends' {i : Nat} {c : ContentView} (hc : (m.contentOf b)[i]? = some c) :
      c.stop ≤ source.length := by
    obtain ⟨-, hlt, -, -, hstop⟩ := hrecord i c hc
    have := hm.table.lineEndOf_le_lineBound hlt
    have := lineBound_le_length source (m.blockFirstLine b + 1 + i + 1)
    omega
  refine
    { fenced := hfenced
      carets := ⟨tail, hstarts, hends⟩
      text := fun hne => ?_
      line := fun i c hc x hx hx' => ?_
      within := fun c hc => ?_
      sorted := List.pairwise_iff_getElem.2 fun i j hi hj hij => ?_
      plain := fun c hc => ?_ }
  · obtain ⟨c, content, hcontent⟩ := List.exists_cons_of_ne_nil hne
    have hrecords : (m.leaf b).content = c :: content := hcontent
    change (literalResult source (m.leaf b)).out.text = _
    rw [literalResult, hrecords, text_literalWalk, hcontent]
    rfl
  · obtain ⟨hl, hlt, hstart, -, hstop⟩ := hrecord i c hc
    have hat := hm.table.lineAt_eq hlt (hstart.trans hx) (hstop ▸ hx')
    have hfirst : (literalRow m source b (m.leaf b) shells).firstLine = m.blockFirstLine b := rfl
    rw [ProjectedRow.lineIndexOf, hat, hfirst]
    omega
  · obtain ⟨i, hi⟩ := List.getElem?_of_mem hc
    obtain ⟨-, -, hstart, hle, -⟩ := hrecord i c hi
    exact ⟨(Int.natCast_nonneg _).trans hstart, hle, hends' hi⟩
  · obtain ⟨-, -, -, -, hstop⟩ := hrecord i _ (List.getElem?_eq_getElem hi)
    obtain ⟨-, hlt, hstart, -, -⟩ := hrecord j _ (List.getElem?_eq_getElem hj)
    have hbefore := hm.table.lineEndOf_lt (l := m.blockFirstLine b + 1 + i) (by omega)
    have hmono : lineBound source (m.blockFirstLine b + 1 + i + 1) ≤
        lineBound source (m.blockFirstLine b + 1 + j) := lineBound_mono (by omega)
    omega
  · obtain ⟨i, hi⟩ := List.getElem?_of_mem hc
    obtain ⟨hl, hlt, hstart, hle, hstop⟩ := hrecord i c hi
    exact fun hu => ((plain_codeLine hm.table hsrc hlt hl hstart hle hstop).2 _ hu).1 rfl

end

/-- A row shows a body by its content. -/
theorem BodyRow.congr {m : RenderModel} {source : Text} {row row' : ProjectedRow}
    {content : List ContentView} (h : row.content = row'.content)
    (hr : BodyRow m source row content) : BodyRow m source row' content := by
  cases row
  cases row'
  simp only [ProjectedRow.content, ProjectedRow.mk.injEq, true_and] at h
  obtain ⟨rfl, rfl, rfl, rfl, rfl, rfl, rfl, rfl, rfl, rfl, rfl, rfl, rfl, rfl, rfl, rfl, rfl, rfl,
    rfl, rfl, rfl⟩ := h
  exact ⟨hr.fenced, hr.carets, hr.text, hr.line, hr.within, hr.sorted, hr.plain⟩

/-- A fenced row of a projection is the row of its block. -/
theorem fenced_block {gs : Graphemes} {p : Projection} (h : Built gs p) {row : ProjectedRow}
    (hrow : row ∈ p.rows) (hfenced : row.fenced = true) :
    row.block.toNat < p.model.blockCount ∧ p.model.blockFenced row.block.toNat = true ∧
      ∃ shells, (literalRow p.model p.source row.block.toNat (p.model.leaf row.block.toNat)
        shells).content = row.content := by
  obtain ⟨b, hb, hblock, shells, heq⟩ := h.fenced_row hrow hfenced
  have hb' : row.block.toNat = b := by
    rw [← show (literalRow p.model p.source b (p.model.leaf b) shells).content.block = row.block by
      rw [heq]; rfl]
    rfl
  rw [hb']
  exact ⟨hb, hblock, shells, heq⟩

section

variable {gs : Graphemes} {p : Projection} {row : ProjectedRow} (h : Built gs p)
  (hm : p.model.SchemaConforms p.source) (hsrc : validateFlarkSource p.source = true)
  (hbodies : ∀ b < p.model.blockCount, p.model.blockFenced b = true →
    p.model.BodyConforms p.source b)
  (hrow : row ∈ p.rows) (hfenced : row.fenced = true)

include h hm hsrc hbodies hrow hfenced

/-- Each fenced row of a projection. -/
theorem bodyRow : BodyRow p.model p.source row (p.model.contentOf row.block.toNat) := by
  obtain ⟨hb, hblock, shells, heq⟩ := fenced_block h hrow hfenced
  exact (bodyRow_literalRow hm (noBareReturn_of_validate hsrc) hb hblock (hbodies _ hb hblock)
    shells).congr heq

/-- The records of each fenced row of a projection. -/
theorem bodyLines : ∀ k c, (p.model.contentOf row.block.toNat)[k]? = some c →
    BodyLine p.source (p.model.blockFirstLine row.block.toNat + 1 + k) c := by
  obtain ⟨hb, hblock, -⟩ := fenced_block h hrow hfenced
  exact fun k c hc =>
    bodyLine_of_body hm (noBareReturn_of_validate hsrc) hb hblock (hbodies _ hb hblock) hc

end

/-! ## The edits of Tab -/

/-- The step before each line that holds something. -/
def insertions (unit : Text) (content : List ContentView) : List Edit :=
  (content.filter fun c => c.start ≠ c.stop).map fun c => ⟨c.start, c.start, unit⟩

section

variable {source unit : Text} {content lines : List ContentView} {c : ContentView}

/-- Indenting puts the unit at each line that holds something. -/
theorem lineShifts_indent (h : ∀ c ∈ lines, 0 ≤ c.start) :
    lineShifts source false unit (lines.map fun c => (c.start, c.stop)) =
      some (insertions unit lines) := by
  induction lines with
  | nil => rfl
  | cons c lines ih =>
    have hc := h c List.mem_cons_self
    rw [List.map_cons, lineShifts, if_neg (by omega),
      ih fun c' hc' => h c' (List.mem_cons_of_mem c hc'), Option.map_some, lineShift,
      if_neg Bool.false_ne_true, insertions, insertions]
    by_cases hempty : c.start = c.stop
    · rw [if_pos hempty, List.filter_cons_of_neg (by simpa using hempty)]
      rfl
    · rw [if_neg hempty, List.filter_cons_of_pos (by simpa using hempty)]
      rfl

/-- The insertions go up and fit the source. -/
theorem insertions_spec (unit : Text) (hsorted : lines.Pairwise fun c c' => c.stop < c'.start)
    (hwithin : ∀ c ∈ lines, 0 ≤ c.start ∧ c.start ≤ c.stop ∧ c.stop ≤ source.length) :
    Insertions (insertions unit lines) ∧ Fits source.length 0 (insertions unit lines) := by
  have hinsertions : Insertions (insertions unit lines) := by
    refine ⟨fun e he => ?_, List.pairwise_map.2 (List.Pairwise.filter _ ?_)⟩
    · obtain ⟨c, -, rfl⟩ := List.mem_map.1 he
      rfl
    · refine hsorted.imp_of_mem fun hc hc' hlt => ?_
      have := (hwithin _ hc).2.1
      dsimp only
      omega
  refine ⟨hinsertions, hinsertions.fits (by omega) fun e he => ?_⟩
  obtain ⟨c, hc, rfl⟩ := List.mem_map.1 he
  have := hwithin c (List.mem_filter.1 hc).1
  dsimp only
  omega

/-- Nothing is put where no line begins that holds something. -/
theorem put_eq_nil (h : ∀ c' ∈ lines, c'.start = c.start → c'.start = c'.stop) :
    put (insertions unit lines) c = [] := by
  rw [put, List.filter_eq_nil_iff.2, List.flatMap_nil]
  intro e he
  obtain ⟨c', hc', rfl⟩ := List.mem_map.1 he
  obtain ⟨hmem, hne⟩ := List.mem_filter.1 hc'
  rw [decide_eq_true_eq]
  exact fun heq => of_decide_eq_true hne (h c' hmem heq)

/-- What is put at a line is the unit. -/
theorem put_eq_unit (hsorted : lines.Pairwise fun c c' => c.start < c'.start) (hc : c ∈ lines)
    (hne : c.start ≠ c.stop) : put (insertions unit lines) c = unit := by
  induction lines with
  | nil => cases hc
  | cons c' lines ih =>
    obtain ⟨hfirst, hrest⟩ := List.pairwise_cons.1 hsorted
    rcases List.mem_cons.1 hc with rfl | hmem
    · have hnone : put (insertions unit lines) c = [] := put_eq_nil fun c' hc' heq => by
        have := hfirst c' hc'
        omega
      rw [put] at hnone ⊢
      rw [insertions, List.filter_cons_of_pos (by simpa using hne), List.map_cons,
        List.filter_cons_of_pos (by simp), List.flatMap_cons, ← insertions, hnone, List.append_nil]
    · have hlt := hfirst c hmem
      have hskip : put (insertions unit (c' :: lines)) c = put (insertions unit lines) c := by
        rw [put, put, insertions]
        by_cases hempty : c'.start = c'.stop
        · rw [List.filter_cons_of_neg (by simpa using hempty)]
          rfl
        · rw [List.filter_cons_of_pos (by simpa using hempty), List.map_cons,
            List.filter_cons_of_neg (by rw [decide_eq_true_eq]; dsimp only; omega)]
          rfl
      rw [hskip, ih hrest hmem]

/-- Lines in order are one or apart. -/
theorem apart (hsorted : content.Pairwise fun c c' => c.stop < c'.start) {c c' : ContentView}
    (hc : c ∈ content) (hc' : c' ∈ content) : c' = c ∨ c'.stop < c.start ∨ c.stop < c'.start :=
  List.Pairwise.forall_of_forall_of_flip
    (R := fun c' c : ContentView => c' = c ∨ c'.stop < c.start ∨ c.stop < c'.start)
    (fun _ _ => .inl rfl) (hsorted.imp fun h => .inr (.inl h)) (hsorted.imp fun h => .inr (.inr h))
    hc' hc

end

/-! ## The lines once more -/

section

variable {source unit : Text} {content content' lines : List ContentView} {made : Edits}
  (hsorted : content.Pairwise fun c c' => c.stop < c'.start)
  (hwithin : ∀ c ∈ content, 0 ≤ c.start ∧ c.start ≤ c.stop ∧ c.stop ≤ source.length)
  (hlines : lines.Sublist content) (hmade : made.list = insertions unit lines)

include hsorted hwithin hlines hmade

/-- A line of the source, as the result has it. -/
theorem forward_line {c : ContentView} (hc : c ∈ content) :
    made.forward c.stop true =
        made.forward c.start false + (put made.list c).length + (c.stop - c.start) ∧
      made.forward c.start true = made.forward c.start false + (put made.list c).length ∧
      0 ≤ made.forward c.start false ∧
      (made.apply source).substring (made.forward c.start false) (made.forward c.stop true) =
        put made.list c ++ source.substring c.start c.stop := by
  obtain ⟨hinsertions, hfits⟩ := insertions_spec unit (hsorted.sublist hlines)
    fun c hc => hwithin c (hlines.subset hc)
  rw [← hmade] at hinsertions hfits
  obtain ⟨h0, hle, hlength⟩ := hwithin c hc
  have hbetween : ∀ e ∈ made.list, e.start < c.start ∨ e.start = c.start ∧ c.start < c.stop ∨
      c.stop < e.start := fun e he => by
    rw [hmade] at he
    obtain ⟨c', hc', rfl⟩ := List.mem_map.1 he
    obtain ⟨hmem, hne⟩ := List.mem_filter.1 hc'
    have hle' := (hwithin c' (hlines.subset hmem)).2.1
    have hne' := of_decide_eq_true hne
    dsimp only
    rcases apart hsorted hc (hlines.subset hmem) with rfl | hlt | hlt <;> omega
  obtain ⟨hforward, hpiece⟩ := @substring_insertions source 0 0 made.list hinsertions hfits
    (Int.le_refl 0) c.start c.stop h0 hle hlength hbetween
  have hplace := @Insertions.le_placeFrom 0 made.list hinsertions c.start
  refine ⟨hforward, forwardFrom_eq_add hinsertions c.start, ?_, ?_⟩
  · rw [Edits.forward]
    omega
  · rw [Int.add_zero, Int.sub_zero, Int.sub_zero] at hpiece
    exact hpiece

/-- What is put before a line is the step, if the line holds something. -/
theorem put_line {c : ContentView} (hc : c ∈ lines) :
    put made.list c = if c.start = c.stop then [] else unit := by
  rw [hmade]
  have hstarts : lines.Pairwise fun c c' => c.start < c'.start :=
    (hsorted.sublist hlines).imp_of_mem fun hc hc' hlt => by
      have := (hwithin _ (hlines.subset hc)).2.1
      omega
  split_ifs with hempty
  · refine put_eq_nil fun c' hc' heq => ?_
    have hsame : c' = c := by
      have hle := (hwithin c (hlines.subset hc)).2.1
      have hle' := (hwithin c' (hlines.subset hc')).2.1
      rcases apart hsorted (hlines.subset hc) (hlines.subset hc') with h | h | h
      · exact h
      · omega
      · omega
    rw [hsame, hempty]
  · exact put_eq_unit hstarts hc hempty

/-- What a line holds once more: the rest of what is put before it, and what it has held. -/
theorem substring_reread {c c' : ContentView} (hc : c ∈ content) (h : Reread source made c c') :
    ∃ d : Nat, d ≤ (put made.list c).length ∧ c'.start = made.forward c.start false + d ∧
      0 ≤ c'.start ∧
      (made.apply source).substring c'.start c'.stop =
        (put made.list c).drop d ++ source.substring c.start c.stop ∧
      (d ≠ 0 → codeLeadingWhitespace (source.substring c.start c.stop) = []) := by
  obtain ⟨hstop, hstart, hzero, hpiece⟩ := forward_line hsorted hwithin hlines hmade hc
  obtain ⟨d, hd⟩ := Int.eq_ofNat_of_zero_le (Int.sub_nonneg_of_le h.start.1)
  have hle := h.start.2
  refine ⟨d, by omega, by omega, by omega, ?_, fun hne => h.taken (by omega)⟩
  rw [h.stop, show c'.start = made.forward c.start false + d by omega,
    ← Text.drop_substring _ hzero, hpiece, List.drop_append_of_le_length (by omega)]

end

/-- Each line once more begins where edits put the text before it. -/
def Whole (made : Edits) (content content' : List ContentView) : Prop :=
  ∀ x ∈ content.zip content', x.2.start = made.forward x.1.start false

instance (made : Edits) (content content' : List ContentView) :
    Decidable (Whole made content content') :=
  inferInstanceAs (Decidable (∀ x ∈ content.zip content', _))

/-- The edit of Shift-Tab for a line once more. -/
def outdentOf (made : Edits) (x : ContentView × ContentView) : Option Edit :=
  if x.2.start = made.forward x.1.start true then none
  else some ⟨x.2.start, made.forward x.1.start true, []⟩

/-- The edits of Shift-Tab. -/
def outdents (made : Edits) (lines lines' : List ContentView) : List Edit :=
  (lines.zip lines').filterMap (outdentOf made)

section

variable {source unit : Text} {content lines lines' : List ContentView} {made : Edits}
  (hunit : CodeMirror.Step unit)
  (hsorted : content.Pairwise fun c c' => c.stop < c'.start)
  (hwithin : ∀ c ∈ content, 0 ≤ c.start ∧ c.start ≤ c.stop ∧ c.stop ≤ source.length)
  (hlines : lines.Sublist content) (hmade : made.list = insertions unit lines)

include hunit hsorted hwithin hlines hmade

/-- Of a line that Tab has put the step before, Shift-Tab takes off what the line shows of it. -/
theorem lineShift_outdent {c c' : ContentView} (hc : c ∈ lines) (h : Reread source made c c') :
    lineShift (made.apply source) true unit c'.start c'.stop = outdentOf made (c, c') := by
  obtain ⟨-, hto, -, -⟩ := forward_line hsorted hwithin hlines hmade (hlines.subset hc)
  obtain ⟨d, hd, hstart, -, hpiece, htaken⟩ :=
    substring_reread hsorted hwithin hlines hmade (hlines.subset hc) h
  have hput := put_line hsorted hwithin hlines hmade hc
  rw [lineShift, if_pos rfl, outdentOf, hpiece, hto, hstart]
  dsimp only
  by_cases hempty : c.start = c.stop
  · have hnothing : source.substring c.start c.stop = [] := by
      rw [hempty, Text.substring, Int.sub_self, Int.toNat_zero, List.take_zero]
    rw [if_pos hempty] at hput
    rw [hput] at hd ⊢
    obtain rfl : d = 0 := Nat.le_zero.1 hd
    have hleading : codeLeadingWhitespace (List.drop 0 [] ++ []) = [] := rfl
    rw [hnothing, hleading, if_pos rfl]
    exact (if_pos rfl).symm
  · rw [if_neg hempty] at hput
    rw [hput] at hd ⊢
    have hpos := hunit.length_pos
    rw [CodeMirror.codeLeadingWhitespace_append fun u hu => hunit.blank u (List.mem_of_mem_drop hu)]
    rcases Nat.eq_or_lt_of_le hd with rfl | hlt
    · rw [List.drop_length, htaken (by omega), List.nil_append, if_pos rfl, if_pos rfl]
    · have hne : unit.drop d ++ codeLeadingWhitespace (source.substring c.start c.stop) ≠ [] := by
        refine List.append_ne_nil_of_left_ne_nil (fun h => ?_) _
        rw [List.drop_eq_nil_iff] at h
        omega
      have hlength : (if (unit.drop d ++ codeLeadingWhitespace
            (source.substring c.start c.stop)).head? = some 0x09 then 1
          else min (unit.drop d ++ codeLeadingWhitespace (source.substring c.start c.stop)).length
            (columns unit 0)) = unit.length - d := by
        rcases hunit with rfl | ⟨k, -, rfl⟩
        · obtain rfl : d = 0 := by
            rw [List.length_singleton] at hlt
            omega
          rfl
        · rw [List.length_replicate] at hlt
          obtain ⟨j, hj⟩ := Nat.exists_eq_add_of_lt hlt
          rw [List.drop_replicate, show k - d = j + 1 by omega, List.replicate_succ,
            List.cons_append, List.head?_cons, if_neg (by decide), columns_spaces,
            List.length_replicate, List.length_cons, List.length_append, List.length_replicate]
          by_cases hzero : d = 0
          · omega
          · rw [htaken hzero, List.length_nil]
            omega
      rw [if_neg hne, hlength, if_neg (by omega)]
      congr 2
      omega

/-- Outdenting takes from each line what it finds in front. -/
theorem lineShifts_outdent (h : List.Forall₂ (Reread source made) lines lines') :
    lineShifts (made.apply source) true unit (lines'.map fun c => (c.start, c.stop)) =
      some (outdents made lines lines') := by
  have hall : ∀ x ∈ lines.zip lines', 0 ≤ x.2.start ∧
      lineShift (made.apply source) true unit x.2.start x.2.stop = outdentOf made x := fun x hx => by
    have hc := (List.of_mem_zip hx).1
    have hread := List.forall₂_zip h hx
    obtain ⟨-, -, -, hzero, -⟩ :=
      substring_reread hsorted hwithin hlines hmade (hlines.subset hc) hread
    exact ⟨hzero, lineShift_outdent hunit hsorted hwithin hlines hmade hc hread⟩
  rw [outdents]
  clear hmade hlines
  induction h with
  | nil => rfl
  | @cons c c' lines lines' _ _ ih =>
    rw [List.zip_cons_cons] at hall
    obtain ⟨⟨hzero, hline⟩, hrest⟩ := List.forall_mem_cons.1 hall
    dsimp only at hzero hline
    rw [List.map_cons, lineShifts, if_neg (by omega), ih hrest, hline, Option.map_some,
      List.zip_cons_cons, List.filterMap_cons]
    cases outdentOf made (c, c') <;> rfl

/-- Where each line begins where the step is put, Shift-Tab takes off what Tab has put there. -/
theorem outdents_eq_undo (hlength : lines'.length = lines.length)
    (h : ∀ x ∈ lines.zip lines', x.2.start = made.forward x.1.start false) :
    outdents made lines lines' = undoFrom 0 made.list := by
  obtain ⟨hinsertions, -⟩ := insertions_spec unit (hsorted.sublist hlines)
    fun c hc => hwithin c (hlines.subset hc)
  rw [← hmade] at hinsertions
  have hof : ∀ x ∈ lines.zip lines', outdentOf made x = if x.1.start = x.1.stop then none
      else some ⟨made.forward x.1.start false, made.forward x.1.start true, []⟩ := fun x hx => by
    have hc := (List.of_mem_zip hx).1
    obtain ⟨-, hto, -, -⟩ := forward_line hsorted hwithin hlines hmade (hlines.subset hc)
    have hput := put_line hsorted hwithin hlines hmade hc
    have hpos := hunit.length_pos
    rw [outdentOf, h x hx]
    by_cases hempty : x.1.start = x.1.stop
    · rw [if_pos hempty] at hput
      rw [hput, List.length_nil] at hto
      rw [if_pos hempty, if_pos (by omega)]
    · rw [if_neg hempty] at hput
      rw [hput] at hto
      rw [if_neg hempty, if_neg (by omega)]
  -- What both do is said by the line before the step: nothing to an empty one, and else what was
  -- put there goes.
  let first (c : ContentView) : Option Edit :=
    if c.start = c.stop then none
    else some ⟨made.forward c.start false, made.forward c.start true, []⟩
  have hfirst : (lines.zip lines').filterMap (fun x => first x.1) = lines.filterMap first := by
    rw [← @List.map_fst_zip _ _ lines lines' (Nat.le_of_eq hlength.symm), List.filterMap_map,
      List.map_fst_zip (Nat.le_of_eq hlength.symm)]
    rfl
  rw [undoFrom_eq hinsertions, outdents, List.filterMap_congr hof]
  refine hfirst.trans ?_
  have hlist : made.list.map (fun e : Edit =>
      (⟨forwardFrom e.start false 0 made.list, forwardFrom e.start true 0 made.list, []⟩ : Edit)) =
      (lines.filter fun c => c.start ≠ c.stop).map fun c =>
        ⟨made.forward c.start false, made.forward c.start true, []⟩ :=
    (congrArg (List.map _) hmade).trans List.map_map
  rw [hlist]
  clear hlist hfirst hof hlength h hmade hlines hinsertions
  induction lines with
  | nil => rfl
  | cons c lines ih =>
    by_cases hempty : c.start = c.stop
    · have hnone : first c = none := if_pos hempty
      rw [List.filterMap_cons_none hnone, List.filter_cons_of_neg (by simpa using hempty), ih]
    · have hsome : first c = some _ := if_neg hempty
      rw [List.filterMap_cons_some hsome, List.filter_cons_of_pos (by simpa using hempty), ih,
        List.map_cons]

omit hunit in
/-- What Shift-Tab leaves of the steps is what the prefixes of the lines have taken in. -/
theorem growth_outdents (hlength : lines'.length = lines.length) :
    growth made.list + growth (outdents made lines lines') =
      ((lines.zip lines').map fun x => x.2.start - made.forward x.1.start false).sum := by
  have hstep : ∀ c ∈ lines, made.forward c.start true =
      made.forward c.start false + if c.start = c.stop then 0 else unit.length := fun c hc => by
    obtain ⟨-, hto, -, -⟩ := forward_line hsorted hwithin hlines hmade (hlines.subset hc)
    rw [hto, put_line hsorted hwithin hlines hmade hc]
    split_ifs <;> rfl
  rw [hmade, outdents]
  -- By induction on the lines, each with what Tab has put there and what Shift-Tab takes of it.
  clear hmade hlines
  induction lines generalizing lines' with
  | nil => rfl
  | cons c lines ih =>
    obtain ⟨c', lines', rfl⟩ := List.exists_cons_of_length_eq_add_one hlength
    obtain ⟨hc, hrest⟩ := List.forall_mem_cons.1 hstep
    have hrec := @ih lines' (Nat.succ.inj hlength) hrest
    have hedit : growth (insertions unit (c :: lines)) =
        (if c.start = c.stop then 0 else unit.length) + growth (insertions unit lines) := by
      rw [insertions]
      split_ifs with hempty
      · rw [List.filter_cons_of_neg (by simpa using hempty)]
        exact (Int.zero_add _).symm
      · rw [List.filter_cons_of_pos (by simpa using hempty), List.map_cons, growth_cons, Edit.growth,
          ← insertions]
        dsimp only
        omega
    have hundo : growth ((c :: lines).zip (c' :: lines') |>.filterMap (outdentOf made)) =
        c'.start - made.forward c.start true +
          growth ((lines.zip lines').filterMap (outdentOf made)) := by
      rw [List.zip_cons_cons, List.filterMap_cons, outdentOf]
      split_ifs with hnone
      · dsimp only at hnone ⊢
        omega
      · dsimp only
        rw [growth_cons, Edit.growth]
        dsimp only [List.length_nil]
        omega
    rw [hedit, hundo, List.zip_cons_cons, List.map_cons, List.sum_cons, ← hrec]
    dsimp only
    omega

omit hunit in
/-- Shift-Tab takes as much off as Tab has put there where the prefixes have taken nothing in. -/
theorem whole_of_growth (h : List.Forall₂ (Reread source made) lines lines')
    (hgrowth : growth made.list + growth (outdents made lines lines') = 0) :
    Whole made lines lines' := by
  intro x hx
  have hge : ∀ t ∈ (lines.zip lines').map fun x => x.2.start - made.forward x.1.start false,
      0 ≤ t := fun t ht => by
    obtain ⟨y, hy, rfl⟩ := List.mem_map.1 ht
    have := (List.forall₂_zip h hy).start.1
    omega
  have hterm := List.single_le_sum hge _ (List.mem_map_of_mem hx)
  rw [← growth_outdents hsorted hwithin hlines hmade h.length_eq.symm, hgrowth] at hterm
  have := (List.forall₂_zip h hx).start.1
  omega

omit hunit in
/-- What is put before a line is the step or nothing. -/
theorem put_eq {c : ContentView} (hc : c ∈ content) :
    put made.list c = [] ∨ put made.list c = unit ∧ c ∈ lines := by
  by_cases hmem : c ∈ lines
  · rw [put_line hsorted hwithin hlines hmade hmem]
    split_ifs
    · exact .inl rfl
    · exact .inr ⟨rfl, hmem⟩
  · refine .inl ?_
    rw [hmade]
    refine put_eq_nil fun c' hc' heq => ?_
    have hle := (hwithin c' (hlines.subset hc')).2.1
    have hle' := (hwithin c hc).2.1
    rcases apart hsorted hc (hlines.subset hc') with rfl | h | h
    · exact absurd hc' hmem
    · omega
    · omega

omit hunit in
/-- Before the other lines nothing is put that their prefixes could take in. -/
theorem whole_content {content' : List ContentView} {i n : Nat}
    (h : List.Forall₂ (Reread source made) content content')
    (hat : lines = (content.drop i).take n)
    (hwhole : Whole made lines ((content'.drop i).take n)) : Whole made content content' := by
  have hnodup : content.Nodup := hsorted.imp_of_mem fun {c _} hc _ hlt heq => by
    have := (hwithin c hc).2.1
    rw [← heq] at hlt
    omega
  intro x hx
  have hread := List.forall₂_zip h hx
  have hmem := (List.of_mem_zip hx).1
  rcases put_eq hsorted hwithin hlines hmade hmem with hput | ⟨-, hline⟩
  · obtain ⟨-, hto, -, -⟩ := forward_line hsorted hwithin hlines hmade hmem
    rw [hput, List.length_nil] at hto
    have := hread.start
    omega
  · obtain ⟨k, hk, rfl⟩ := List.getElem_of_mem hx
    rw [hat, List.getElem_zip] at hline
    obtain ⟨k', hk', heq⟩ := List.getElem_of_mem hline
    rw [List.getElem_take, List.getElem_drop, hnodup.getElem_inj_iff] at heq
    rw [List.length_take, List.length_drop] at hk'
    refine hwhole _ (List.mem_iff_getElem.2 ⟨k', ?_, ?_⟩)
    · rw [hat, List.length_zip, List.length_take, List.length_take, List.length_drop,
        List.length_drop, ← h.length_eq]
      omega
    · simp only [hat, List.getElem_zip, List.getElem_take, List.getElem_drop, heq]

omit hunit in
/-- The edits of Shift-Tab are in order. -/
theorem fits_outdents {n c₀ : Int} (h : List.Forall₂ (Reread source made) lines lines')
    (hsorted' : lines'.Pairwise fun c c' => c.stop < c'.start)
    (hwithin' : ∀ c ∈ lines', c₀ ≤ c.start ∧ c.stop ≤ n) (hn : c₀ ≤ n) :
    Fits n c₀ (outdents made lines lines') := by
  have hall : ∀ x ∈ lines.zip lines', x.2.start ≤ made.forward x.1.start true ∧
      made.forward x.1.start true ≤ x.2.stop := fun x hx => by
    have hread := List.forall₂_zip h hx
    have hc := hlines.subset (List.of_mem_zip hx).1
    obtain ⟨hstop, hto, -, -⟩ := forward_line hsorted hwithin hlines hmade hc
    have hle := (hwithin _ hc).2.1
    have hstop' := hread.stop
    exact ⟨hread.start.2, by omega⟩
  rw [outdents]
  clear hmade hlines
  induction h generalizing c₀ with
  | nil => exact hn
  | @cons c c' lines lines' _ _ ih =>
    obtain ⟨hfirst, hrest⟩ := List.pairwise_cons.1 hsorted'
    obtain ⟨⟨hle, hle'⟩, hall⟩ := List.forall_mem_cons.1 hall
    obtain ⟨hc₀, hstop⟩ := hwithin' c' List.mem_cons_self
    dsimp only at hle hle'
    rw [List.zip_cons_cons, List.filterMap_cons, outdentOf]
    split_ifs with hnone
    · refine @ih c₀ hrest (fun d hd => ⟨?_, (hwithin' d (List.mem_cons_of_mem c' hd)).2⟩) hn hall
      exact (hwithin' d (List.mem_cons_of_mem c' hd)).1
    · refine ⟨hc₀, hle, @ih _ hrest (fun d hd => ⟨?_, (hwithin' d (List.mem_cons_of_mem c' hd)).2⟩)
        (by dsimp only; omega) hall⟩
      have := hfirst d hd
      dsimp only
      omega

end

/-! ## The row -/

section

variable {m : RenderModel} {source : Text} {row : ProjectedRow} {content : List ContentView}
  (h : BodyRow m source row content)

include h

/-- The caret's places on a line are those of its content. -/
theorem BodyRow.caret {i : Nat} {c : ContentView} (hc : content[i]? = some c) :
    row.contentStarts.getD (i + 1) (-1) = c.start ∧ row.contentEnds.getD (i + 1) (-1) = c.stop := by
  obtain ⟨tail, hstarts, hends⟩ := h.carets
  have hi := (List.getElem?_eq_some_iff.1 hc).1
  rw [hstarts, hends, List.getD_cons_succ, List.getD_cons_succ, List.getD_eq_getElem?_getD,
    List.getD_eq_getElem?_getD, List.getElem?_append_left (by rwa [List.length_map]),
    List.getElem?_append_left (by rwa [List.length_map]), List.getElem?_map, List.getElem?_map, hc]
  exact ⟨rfl, rfl⟩

/-- The carets of neighbouring lines. -/
theorem BodyRow.carets_range {i n : Nat} (hn : i + n ≤ content.length) :
    (List.range' (i + 1) n).map (fun k =>
        (row.contentStarts.getD k (-1), row.contentEnds.getD k (-1))) =
      ((content.drop i).take n).map fun c => (c.start, c.stop) := by
  refine List.ext_getElem (by
    rw [List.length_map, List.length_map, List.length_range', List.length_take, List.length_drop]
    omega) fun k hk _ => ?_
  rw [List.length_map, List.length_range'] at hk
  have hcaret := h.caret (List.getElem?_eq_getElem (show i + k < content.length by omega))
  rw [List.getElem_map, List.getElem_map, List.getElem_range', List.getElem_take, List.getElem_drop,
    Nat.one_mul, show i + 1 + k = i + k + 1 by omega, hcaret.1, hcaret.2]

/-- A row begins a line with a tab where the source does. -/
theorem BodyRow.any_tab (hne : content ≠ []) :
    ((row.text.splitOn 0x0A).any fun line => (codeLeadingWhitespace line).contains 0x09) = true ↔
      ∃ c ∈ content, 0x09 ∈ codeLeadingWhitespace (source.substring c.start c.stop) := by
  have hline (c : ContentView) : (0x09 ∈ codeLeadingWhitespace (shownLine source c)) ↔
      0x09 ∈ codeLeadingWhitespace (source.substring c.start c.stop) := by
    rw [shownLine, CodeMirror.codeLeadingWhitespace_append fun u hu => by
      rw [List.eq_of_mem_replicate hu]; rfl, List.mem_append, or_iff_right]
    exact fun hu => absurd (List.eq_of_mem_replicate hu) (by decide)
  rw [h.text hne, List.splitOn_intercalate 0x0A (fun l hl => ?_)
    fun hnil => hne (List.map_eq_nil_iff.1 hnil)]
  · simp only [List.any_map, List.any_eq_true, Function.comp_apply, List.contains_iff_mem, hline]
  · obtain ⟨c, hc, rfl⟩ := List.mem_map.1 hl
    rw [shownLine, List.mem_append, not_or]
    exact ⟨fun hu => absurd (List.eq_of_mem_replicate hu) (by decide), h.plain c hc⟩

/-- What `shiftBlock` comes to for a selection from one line to another. -/
theorem BodyRow.shiftBlock_eq (outdent : Bool) (language : Text) {selection : Selection}
    (hne : selection.base ≠ selection.extent) {i j : Nat} {c d : ContentView}
    (hc : content[i]? = some c) (hd : content[j]? = some d)
    (hstart : c.start ≤ selection.start ∧ selection.start ≤ c.stop)
    (hstop : d.start ≤ selection.stop ∧ selection.stop ≤ d.stop) {edits : List Edit}
    (hedits : lineShifts source outdent (codeIndentUnit row.text language)
      (((content.drop i).take (if i < j ∧ selection.stop = d.start then j - i else j + 1 - i)).map
        fun c => (c.start, c.stop)) = some edits) (hdisjoint : isDisjoint edits = true) :
    shiftBlock source m row selection outdent language =
      if edits = [] then .refused
      else .commitsCode (shiftedBody row edits) ⟨edits, hdisjoint⟩
        ⟨forwardFrom selection.base true 0 edits,
          forwardFrom selection.extent true 0 edits, none⟩ := by
  have hi := (List.getElem?_eq_some_iff.1 hc).1
  have hj := (List.getElem?_eq_some_iff.1 hd).1
  have hcollapsed : selection.isCollapsed = false := beq_eq_false_iff_ne.2 hne
  have hfirst := h.line i c hc _ hstart.1 hstart.2
  have hlast := h.line j d hd _ hstop.1 hstop.2
  have hcaret := (h.caret hc).1
  have hcaret' := (h.caret hd).1
  have hzero := (h.within c (List.mem_of_getElem? hc)).1
  have hzero' := (h.within d (List.mem_of_getElem? hd)).1
  rw [shiftBlock, hfirst, hlast]
  simp only [Int.toNat_natCast, hcaret, hcaret', hcollapsed]
  rw [if_neg (by omega), if_neg (by simp)]
  have hrange : ((if (!false) = true ∧ ((i + 1 : Nat) : Int) < (j + 1 : Nat) ∧
      selection.stop = d.start then ((j + 1 : Nat) : Int) - 1 else (j + 1 : Nat)) + 1 -
        (i + 1 : Nat)).toNat = if i < j ∧ selection.stop = d.start then j - i else j + 1 - i := by
    simp only [Bool.not_false, true_and, Nat.cast_lt, Nat.add_lt_add_iff_right]
    split_ifs <;> omega
  rw [hrange, h.carets_range (by split_ifs <;> omega), hedits, h.fenced]
  cases edits with
  | nil => rfl
  | cons e edits =>
    simp only [if_true]
    rw [dif_pos hdisjoint, if_neg (List.cons_ne_nil _ _)]
    rfl

end

/-- What is related pairwise has a partner. -/
theorem exists_of_forall₂ {α β : Type*} {R : α → β → Prop} {l : List α} {l' : List β}
    (h : List.Forall₂ R l l') {a : α} (ha : a ∈ l) : ∃ b ∈ l', R a b := by
  induction h with
  | nil => cases ha
  | cons hab _ ih =>
    rcases List.mem_cons.1 ha with rfl | ha
    · exact ⟨_, List.mem_cons_self, hab⟩
    · obtain ⟨b, hb, hR⟩ := ih ha
      exact ⟨b, List.mem_cons_of_mem _ hb, hR⟩

section

variable {m m' : RenderModel} {source : Text} {row row' : ProjectedRow} {made : Edits}
  {content content' lines : List ContentView} {language : Text}
  (h : BodyRow m source row content) (h' : BodyRow m' (made.apply source) row' content')
  (hread : List.Forall₂ (Reread source made) content content') (hne : content ≠ [])
  (hlines : lines.Sublist content)
  (hmade : made.list = insertions (codeIndentUnit row.text language) lines)

include h h' hread hne hlines hmade

/-- The step is inferred again from the lines once more. -/
theorem codeIndentUnit_reread :
    codeIndentUnit row'.text language = codeIndentUnit row.text language := by
  have hunit := CodeMirror.step_codeIndentUnit row.text language
  have hne' : content' ≠ [] := fun hnil => hne (by
    rw [← List.length_eq_zero_iff, hread.length_eq, hnil, List.length_nil])
  -- Each line once more is what is left of what is put before it, and the line.
  have hline {c c' : ContentView} (hc : c ∈ content) (hr : Reread source made c c') :
      ∃ d : Nat, codeLeadingWhitespace ((made.apply source).substring c'.start c'.stop) =
          (put made.list c).drop d ++ codeLeadingWhitespace (source.substring c.start c.stop) ∧
        (put made.list c = [] ∨ put made.list c = codeIndentUnit row.text language) := by
    obtain ⟨d, -, -, -, hpiece, -⟩ := substring_reread h.sorted h.within hlines hmade hc hr
    have hput := put_eq h.sorted h.within hlines hmade hc
    refine ⟨d, ?_, hput.imp_right And.left⟩
    rw [hpiece, CodeMirror.codeLeadingWhitespace_append]
    intro u hu
    rcases hput with hput | ⟨hput, -⟩ <;> rw [hput] at hu
    · exact absurd (List.mem_of_mem_drop hu) List.not_mem_nil
    · exact hunit.blank u (List.mem_of_mem_drop hu)
  have hsame :
      ((row'.text.splitOn 0x0A).any fun line => (codeLeadingWhitespace line).contains 0x09) =
        (row.text.splitOn 0x0A).any fun line => (codeLeadingWhitespace line).contains 0x09 := by
    rw [Bool.eq_iff_iff, h.any_tab hne, h'.any_tab hne']
    constructor
    · rintro ⟨c', hc', htab⟩
      obtain ⟨c, hc, hr⟩ := exists_of_forall₂ hread.flip hc'
      obtain ⟨d, hleading, hput⟩ := hline hc hr
      rw [hleading, List.mem_append] at htab
      rcases htab with htab | htab
      · -- A tab that is put there is the step, which a line of the source has.
        rcases hput with hput | hput <;> rw [hput] at htab
        · exact absurd (List.mem_of_mem_drop htab) List.not_mem_nil
        · rw [← h.any_tab hne]
          by_contra hnone
          rw [codeIndentUnit, if_neg hnone] at htab
          have := List.mem_of_mem_drop htab
          split_ifs at this
          · exact absurd this (by decide)
          · exact absurd this (by decide)
      · exact ⟨c, hc, htab⟩
    · rintro ⟨c, hc, htab⟩
      obtain ⟨c', hc', hr⟩ := exists_of_forall₂ hread hc
      obtain ⟨d, hleading, -⟩ := hline hc hr
      exact ⟨c', hc', by rw [hleading]; exact List.mem_append_right _ htab⟩
  rw [codeIndentUnit, hsame, ← codeIndentUnit]

end

/-- Shift-Tab does nothing to lines that hold nothing. -/
theorem lineShifts_empty {source unit : Text} {lines : List ContentView}
    (h : ∀ c ∈ lines, 0 ≤ c.start ∧ c.start = c.stop) :
    lineShifts source true unit (lines.map fun c => (c.start, c.stop)) = some [] := by
  induction lines with
  | nil => rfl
  | cons c lines ih =>
    obtain ⟨⟨hzero, hempty⟩, hrest⟩ := List.forall_mem_cons.1 h
    have hnothing : source.substring c.start c.stop = [] := by
      rw [hempty, Text.substring, Int.sub_self, Int.toNat_zero, List.take_zero]
    rw [List.map_cons, lineShifts, if_neg (by omega), ih hrest, lineShift, if_pos rfl, hnothing]
    rfl

/-- The edits of Shift-Tab in lines once more are in order. -/
theorem fits_reread {m m' : RenderModel} {source unit : Text} {row row' : ProjectedRow}
    {made : Edits} {content content' : List ContentView} {i n : Nat} (h : BodyRow m source row content)
    (h' : BodyRow m' (made.apply source) row' content')
    (hread : List.Forall₂ (Reread source made) content content')
    (hmade : made.list = insertions unit ((content.drop i).take n)) :
    Fits (made.apply source).length 0
      (outdents made ((content.drop i).take n) ((content'.drop i).take n)) := by
  have hlines' : ((content'.drop i).take n).Sublist content' :=
    (List.take_sublist n _).trans (List.drop_sublist i content')
  exact fits_outdents h.sorted h.within ((List.take_sublist n _).trans (List.drop_sublist i content))
    hmade (List.forall₂_take n (List.forall₂_drop i hread)) (h'.sorted.sublist hlines')
    (fun c hc => ⟨(h'.within c (hlines'.subset hc)).1, (h'.within c (hlines'.subset hc)).2.2⟩)
    (Int.natCast_nonneg _)

section

variable {m m' : RenderModel} {source : Text} {row row' : ProjectedRow} {made : Edits}
  {content content' : List ContentView} {language : Text} {selection : Selection} {i j n : Nat}
  {c d : ContentView}
  (h : BodyRow m source row content) (h' : BodyRow m' (made.apply source) row' content')
  (hread : List.Forall₂ (Reread source made) content content')
  (hne : selection.base ≠ selection.extent)
  (hc : content[i]? = some c) (hd : content[j]? = some d)
  (hstart : c.start ≤ selection.start ∧ selection.start ≤ c.stop)
  (hstop : d.start ≤ selection.stop ∧ selection.stop ≤ d.stop)
  (hn : n = if i < j ∧ selection.stop = d.start then j - i else j + 1 - i)
  (hmade : made.list = insertions (codeIndentUnit row.text language) ((content.drop i).take n))

include hne hc hd hstart hstop hn

/-- What Shift-Tab comes to in the lines once more. -/
theorem shiftBlock_reread :
    shiftBlock (made.apply source) m' row'
        ⟨made.forward selection.base true, made.forward selection.extent true, none⟩ true language =
      if outdents made ((content.drop i).take n) ((content'.drop i).take n) = [] then .refused
      else .commitsCode
        (shiftedBody row' (outdents made ((content.drop i).take n) ((content'.drop i).take n)))
        ⟨outdents made ((content.drop i).take n) ((content'.drop i).take n),
          (fits_reread h h' hread hmade).disjoint⟩
        ⟨forwardFrom (made.forward selection.base true) true 0
            (outdents made ((content.drop i).take n) ((content'.drop i).take n)),
          forwardFrom (made.forward selection.extent true) true 0
            (outdents made ((content.drop i).take n) ((content'.drop i).take n)), none⟩ := by
  have hlines : ((content.drop i).take n).Sublist content :=
    (List.take_sublist n _).trans (List.drop_sublist i content)
  have hunit := CodeMirror.step_codeIndentUnit row.text language
  have hreads : List.Forall₂ (Reread source made) ((content.drop i).take n)
      ((content'.drop i).take n) := List.forall₂_take n (List.forall₂_drop i hread)
  have hnil : content ≠ [] := fun hnil => by rw [hnil] at hc; cases hc
  obtain ⟨hinsertions, -⟩ := insertions_spec (codeIndentUnit row.text language)
    (h.sorted.sublist hlines) fun c hc => h.within c (hlines.subset hc)
  rw [← hmade] at hinsertions
  have hagain := codeIndentUnit_reread h h' hread hnil hlines hmade
  have hedits := lineShifts_outdent hunit h.sorted h.within hlines hmade hreads
  rw [← hagain] at hedits
  have hlt {o o' : Int} (hlt : o < o') : made.forward o true < made.forward o' true :=
    hinsertions.forwardFrom_lt hlt
  have hle {o o' : Int} (hle : o ≤ o') : made.forward o true ≤ made.forward o' true := by
    rcases Int.lt_or_eq_of_le hle with hlt' | rfl
    · exact Int.le_of_lt (hlt hlt')
    · exact Int.le_refl _
  -- The lines that the selection goes from and to once more.
  have hat {k : Nat} {b : ContentView} (hb : content[k]? = some b) :
      ∃ b', content'[k]? = some b' ∧ Reread source made b b' := by
    have hk := (List.getElem?_eq_some_iff.1 hb).1
    have hk' : k < content'.length := hread.length_eq ▸ hk
    have := hread.get hk hk'
    rw [List.get_eq_getElem, List.get_eq_getElem, (List.getElem?_eq_some_iff.1 hb).2] at this
    exact ⟨_, List.getElem?_eq_getElem hk', this⟩
  obtain ⟨c', hc', hrc⟩ := hat hc
  obtain ⟨d', hd', hrd⟩ := hat hd
  have horder : selection.base < selection.extent ↔
      made.forward selection.base true < made.forward selection.extent true :=
    ⟨hlt, fun hlt' => by
      by_contra hge
      have := hle (Int.not_lt.1 hge)
      omega⟩
  have hstart' : Selection.start ⟨made.forward selection.base true,
      made.forward selection.extent true, none⟩ = made.forward selection.start true := by
    rw [Selection.start, Selection.start, ← if_congr horder rfl rfl]
    split_ifs <;> rfl
  have hstop' : Selection.stop ⟨made.forward selection.base true,
      made.forward selection.extent true, none⟩ = made.forward selection.stop true := by
    rw [Selection.stop, Selection.stop, ← if_congr horder rfl rfl]
    split_ifs <;> rfl
  -- The selection leaves the same line alone.
  have hn' : n =
      if i < j ∧ made.forward selection.stop true = d'.start then j - i else j + 1 - i := by
    refine hn.trans (if_congr (and_congr_right fun hij => ⟨fun heq => ?_, fun heq => ?_⟩) rfl rfl)
    · rw [if_pos ⟨hij, heq⟩] at hn
      have hout : d ∉ (content.drop i).take n := fun hmem => by
        obtain ⟨k, hk, hkd⟩ := List.getElem_of_mem hmem
        rw [List.length_take, List.length_drop] at hk
        rw [List.getElem_take, List.getElem_drop] at hkd
        obtain ⟨hj, hjd⟩ := List.getElem?_eq_some_iff.1 hd
        have hlt := List.pairwise_iff_getElem.1 h.sorted (i + k) j (by omega) hj (by omega)
        rw [hkd, hjd] at hlt
        have := (h.within d (List.mem_of_getElem? hd)).2.1
        omega
      have hput : put made.list d = [] :=
        (put_eq h.sorted h.within hlines hmade (List.mem_of_getElem? hd)).resolve_right
          fun hput => hout hput.2
      obtain ⟨-, hto, -, -⟩ :=
        forward_line h.sorted h.within hlines hmade (List.mem_of_getElem? hd)
      rw [hput, List.length_nil] at hto
      have := hrd.start
      rw [heq]
      omega
    · by_contra hbehind
      have := hlt (show d.start < selection.stop by omega)
      have := hrd.start.2
      omega
  exact h'.shiftBlock_eq true language (fun heq => hne (by
      rcases Int.lt_trichotomy selection.base selection.extent with h | h | h
      · exact absurd heq (Int.ne_of_lt (hlt h))
      · exact h
      · exact absurd heq (Int.ne_of_gt (hlt h)))) hc' hd'
    (by
      rw [hstart', hrc.stop]
      exact ⟨hrc.start.2.trans (hle hstart.1), hle hstart.2⟩)
    (by
      rw [hstop', hrd.stop]
      exact ⟨hrd.start.2.trans (hle hstop.1), hle hstop.2⟩)
    (by
      rw [hstop', ← hn']
      exact hedits) (fits_reread h h' hread hmade).disjoint

end

/-- How many lines are shifted, of those from the `i`th to the `j`th: not the last one where the
    selection ends at its start. -/
def shiftedLines (selection : Selection) (i j : Nat) (d : ContentView) : Nat :=
  if i < j ∧ selection.stop = d.start then j - i else j + 1 - i

section

variable {m : RenderModel} {source : Text} {row : ProjectedRow} {content : List ContentView}
  {language : Text} {selection : Selection} {i j : Nat} {c d : ContentView}

/-- The edits before a line leave it alone. -/
theorem before_line (h : BodyRow m source row content) (hd : content[j]? = some d) {b : ContentView}
    (hb : b ∈ (content.drop i).take (j - i)) : b.stop < d.start := by
  obtain ⟨k, hk, rfl⟩ := List.getElem_of_mem hb
  rw [List.length_take, List.length_drop] at hk
  obtain ⟨hj, rfl⟩ := List.getElem?_eq_some_iff.1 hd
  rw [List.getElem_take, List.getElem_drop]
  exact List.pairwise_iff_getElem.1 h.sorted (i + k) j (by omega) hj (by omega)

/-- Shift-Tab after Tab in a fenced block gives the source and the selection back if and only if
    each line begins where Tab has put the step. Both leave a line alone where a selection ends at
    its start, and do nothing where the lines hold nothing. -/
theorem BodyRow.shiftBlock_undo (h : BodyRow m source row content)
    (hne : selection.base ≠ selection.extent) (hc : content[i]? = some c) (hd : content[j]? = some d)
    (hstart : c.start ≤ selection.start ∧ selection.start ≤ c.stop)
    (hstop : d.start ≤ selection.stop ∧ selection.stop ≤ d.stop) :
    (shiftBlock source m row selection false language = .refused ∧
        shiftBlock source m row selection true language = .refused) ∨
      ∃ body made, shiftBlock source m row selection false language = .commitsCode body made
          ⟨made.forward selection.base true, made.forward selection.extent true, none⟩ ∧
        (i < j → selection.stop = d.start → ∀ e ∈ made.list, e.stop < d.start) ∧
        made.list = insertions (codeIndentUnit row.text language)
          ((content.drop i).take (shiftedLines selection i j d)) ∧
        ∀ m' row' content', BodyRow m' (made.apply source) row' content' →
          List.Forall₂ (Reread source made) content content' →
          ((∃ body' undone, shiftBlock (made.apply source) m' row'
                ⟨made.forward selection.base true, made.forward selection.extent true, none⟩ true
                language = .commitsCode body' undone ⟨selection.base, selection.extent, none⟩ ∧
              undone.apply (made.apply source) = source ∧
              (i < j → selection.stop = d.start → ∀ e ∈ undone.list,
                e.stop < made.forward d.start true)) ↔
            Whole made content content') := by
  -- Tab puts the step at every line that holds something; where there is none, both refuse.
  -- Shift-Tab takes from each line what it finds in front of it. It undoes the insertions where
  -- every line is whole, and where it gives the source back, the lengths leave no line that is not.
  obtain ⟨n, hn⟩ : ∃ n, n = shiftedLines selection i j d := ⟨_, rfl⟩
  rw [← hn]
  rw [shiftedLines] at hn
  have hlines : ((content.drop i).take n).Sublist content :=
    (List.take_sublist n _).trans (List.drop_sublist i content)
  have hwithin : ∀ c ∈ (content.drop i).take n, 0 ≤ c.start ∧ c.start ≤ c.stop ∧
      c.stop ≤ source.length := fun c hc => h.within c (hlines.subset hc)
  have hsorted := h.sorted.sublist hlines
  have hunit := CodeMirror.step_codeIndentUnit row.text language
  obtain ⟨hinsertions, hfits⟩ := insertions_spec (codeIndentUnit row.text language) hsorted
    hwithin
  have hindent := h.shiftBlock_eq false language hne hc hd hstart hstop
    (hn ▸ lineShifts_indent fun c hc => (hwithin c hc).1) hfits.disjoint
  by_cases hnothing : insertions (codeIndentUnit row.text language) ((content.drop i).take n) = []
  · left
    have hempty : ∀ c ∈ (content.drop i).take n, 0 ≤ c.start ∧ c.start = c.stop := fun c hc => by
      refine ⟨(hwithin c hc).1, ?_⟩
      have := List.filter_eq_nil_iff.1 (List.map_eq_nil_iff.1 hnothing) c hc
      rwa [decide_eq_true_eq, not_not] at this
    rw [if_pos hnothing] at hindent
    have houtdent := h.shiftBlock_eq true language hne hc hd hstart hstop
      (hn ▸ lineShifts_empty hempty) rfl
    exact ⟨hindent, houtdent.trans (if_pos rfl)⟩
  right
  rw [if_neg hnothing] at hindent
  refine ⟨_, ⟨_, hfits.disjoint⟩, hindent, fun hij heq e he => ?_, rfl,
    fun m' row' content' h' hread => ?_⟩
  · rw [if_pos ⟨hij, heq⟩] at hn
    obtain ⟨b, hb, rfl⟩ := List.mem_map.1 he
    have hmem := (List.mem_filter.1 hb).1
    have := before_line h hd (hn ▸ hmem)
    have := (hwithin b hmem).2.1
    dsimp only
    omega
  obtain ⟨made, hmade⟩ : ∃ made : Edits, made = ⟨insertions (codeIndentUnit row.text language)
    ((content.drop i).take n), hfits.disjoint⟩ := ⟨_, rfl⟩
  rw [← hmade] at h' hread ⊢
  have hlist : made.list = insertions (codeIndentUnit row.text language) ((content.drop i).take n) :=
    congrArg Edits.list hmade
  rw [← hlist] at hinsertions hfits hnothing
  have houtdent := shiftBlock_reread h h' hread hne hc hd hstart hstop hn hlist
  have hfits' := fits_reread h h' hread hlist
  have hreads : List.Forall₂ (Reread source made) ((content.drop i).take n)
      ((content'.drop i).take n) := List.forall₂_take n (List.forall₂_drop i hread)
  have hzip : ((content.drop i).take n).zip ((content'.drop i).take n) =
      ((content.zip content').drop i).take n := by
    rw [List.zip_eq_zipWith, List.zip_eq_zipWith, List.drop_zipWith, List.take_zipWith]
  rw [houtdent]
  constructor
  · rintro ⟨body', undone, hcommits, hback, -⟩ x hx
    split_ifs at hcommits
    obtain ⟨-, rfl, -⟩ := BlockShift.commitsCode.inj hcommits
    exact whole_content h.sorted h.within hlines hlist hread rfl
      (whole_of_growth h.sorted h.within hlines hlist hreads (growth_undone hfits hfits' hback)) x hx
  · intro hwhole
    have hundo := outdents_eq_undo hunit h.sorted h.within hlines hlist hreads.length_eq.symm
      fun x hx => hwhole x (List.mem_of_mem_drop (List.mem_of_mem_take (hzip ▸ hx)))
    obtain ⟨hback, hoffsets⟩ :=
      @undo_insertions source made ⟨_, hfits'.disjoint⟩ hinsertions hfits hundo
    have hnonempty : outdents made ((content.drop i).take n) ((content'.drop i).take n) ≠ [] := by
      rw [hundo]
      cases hcases : made.list with
      | nil => exact absurd hcases hnothing
      | cons e es => exact List.cons_ne_nil _ _
    have hbase := hoffsets selection.base
    have hextent := hoffsets selection.extent
    rw [Edits.forward] at hbase hextent
    rw [if_neg hnonempty, hbase, hextent]
    refine ⟨_, _, rfl, hback, fun hij heq e he => ?_⟩
    rw [if_pos ⟨hij, heq⟩] at hn
    obtain ⟨x, hx, hedit⟩ := List.mem_filterMap.1 he
    have hmem := (List.of_mem_zip hx).1
    have hlt := before_line h hd (hn ▸ hmem)
    rw [outdentOf] at hedit
    split_ifs at hedit
    cases hedit
    exact hinsertions.forwardFrom_lt (by
      have := (hwithin _ hmem).2.1
      omega)

end

/-! ## The block once more -/

/-- The records of a fenced block are as the native side reads them, in containers and with a fence
    that is indented by `fenceOffset` columns. -/
def BlockRead (source : Text) (m : RenderModel) (b : Nat) (containers : List Native.Container)
    (fenceOffset : Nat) : Prop :=
  ∀ k c, (m.contentOf b)[k]? = some c →
    BodyRead source containers fenceOffset (m.blockFirstLine b + 1 + k) c

/-- Of `n` lines of a block from the `i`th on, each that holds something has all of its prefix. -/
def HavePrefixes (source : Text) (m : RenderModel) (b : Nat) (containers : List Native.Container)
    (fenceOffset i n : Nat) : Prop :=
  ∀ k < n, ∀ c, (m.contentOf b)[i + k]? = some c → c.start ≠ c.stop →
    LineHasPrefix source containers fenceOffset (m.blockFirstLine b + 1 + (i + k)) c

section

variable {source unit : Text} {content content' : List ContentView} {made : Edits}
  {first fenceOffset i n : Nat} {containers : List Native.Container}
  (hunit : CodeMirror.Step unit)
  (hsorted : content.Pairwise fun c c' => c.stop < c'.start)
  (hwithin : ∀ c ∈ content, 0 ≤ c.start ∧ c.start ≤ c.stop ∧ c.stop ≤ source.length)
  (hmade : made.list = insertions unit ((content.drop i).take n))
  (hbody : ∀ k c, content[k]? = some c → BodyLine source (first + k) c)
  (hbody' : ∀ k c, content'[k]? = some c → BodyLine (made.apply source) (first + k) c)
  (hread : ∀ k c, content[k]? = some c → BodyRead source containers fenceOffset (first + k) c)
  (hread' : ∀ k c, content'[k]? = some c →
    BodyRead (made.apply source) containers fenceOffset (first + k) c)

include hunit hsorted hwithin hmade hbody

omit hsorted in
/-- The insertions stay within their lines. -/
theorem withinLines_insertions : WithinLines source made.list := by
  intro e he
  rw [hmade] at he
  obtain ⟨c, hc, rfl⟩ := List.mem_map.1 he
  obtain ⟨hmem, hne⟩ := List.mem_filter.1 hc
  have hmem' := List.mem_of_mem_drop (List.mem_of_mem_take hmem)
  obtain ⟨k, hk⟩ := List.getElem?_of_mem hmem'
  obtain ⟨hzero, hle, hlength⟩ := hwithin c hmem'
  have hne' := of_decide_eq_true hne
  have hlt : c.start.toNat < source.length := by omega
  refine ⟨List.ne_nil_of_length_pos hunit.length_pos, fun u hu => ⟨fun heq => ?_, fun heq => ?_⟩,
    _, List.getElem?_eq_getElem hlt, fun heq => ?_⟩
  · exact hunit.plain.1 (heq ▸ hu)
  · exact hunit.plain.2 (heq ▸ hu)
  · have hline := hbody k c hk
    have hstart := hline.start
    refine (hline.plain c.start.toNat (by omega) (by omega)).1 ?_
    rw [List.getElem?_eq_getElem hlt, heq]

omit hunit hsorted in
/-- The steps are put before other lines, or where a line that holds something begins. -/
theorem insertions_lines {k : Nat} {c : ContentView} (hc : content[k]? = some c) :
    ∀ e ∈ made.list, e.start < lineBound source (first + k) ∨
      e.start = c.start ∧ c.start < c.stop ∨
      (lineBound source (first + k + 1) : Int) ≤ e.start := by
  intro e he
  rw [hmade] at he
  obtain ⟨b, hb, rfl⟩ := List.mem_map.1 he
  obtain ⟨hmem, hne⟩ := List.mem_filter.1 hb
  have hmem' := List.mem_of_mem_drop (List.mem_of_mem_take hmem)
  obtain ⟨j, hj⟩ := List.getElem?_of_mem hmem'
  have hne' := of_decide_eq_true hne
  have hle := (hwithin b hmem').2.1
  have hline := hbody j b hj
  dsimp only
  rcases Nat.lt_trichotomy j k with hlt | rfl | hgt
  · have hstop := hline.stop_le
    have hmono : lineBound source (first + j + 1) ≤ lineBound source (first + k) :=
      lineBound_mono (by omega)
    omega
  · obtain rfl := Option.some.inj (hj.symm.trans hc)
    omega
  · have hstart := hline.start
    have hmono : lineBound source (first + k + 1) ≤ lineBound source (first + j) :=
      lineBound_mono (by omega)
    omega

include hbody' hread hread'

/-- Each line of the block once more. -/
theorem reread_line {k : Nat} {c c' : ContentView} (hc : content[k]? = some c)
    (hc' : content'[k]? = some c') :
    Reread source made c c' ∧ (put made.list c ≠ [] → (c'.start = made.forward c.start false ↔
      LineHasPrefix source containers fenceOffset (first + k) c)) := by
  have hlines : ((content.drop i).take n).Sublist content :=
    (List.take_sublist n _).trans (List.drop_sublist i content)
  obtain ⟨hinsertions, hfits⟩ := insertions_spec unit (hsorted.sublist hlines)
    fun c hc => hwithin c (hlines.subset hc)
  rw [← hmade] at hinsertions hfits
  refine reread hinsertions hfits (withinLines_insertions hunit hwithin hmade hbody)
    (hbody k c hc) (insertions_lines hwithin hmade hbody hc) (hbody' k c' hc')
    (fun e he u hu => ?_) (hread k c hc) (hread' k c' hc')
  rw [hmade] at he
  obtain ⟨b, -, rfl⟩ := List.mem_map.1 he
  exact hunit.blank u hu

/-- The lines are read again one by one. -/
theorem forall₂_reread (hlength : content'.length = content.length) :
    List.Forall₂ (Reread source made) content content' :=
  List.forall₂_of_length_eq_of_get hlength.symm fun _ hk hk' =>
    (reread_line hunit hsorted hwithin hmade hbody hbody' hread hread'
      (List.getElem?_eq_getElem hk) (List.getElem?_eq_getElem hk')).1

/-- Each line begins where the step is put if and only if the lines that get it have all of their
    prefixes before. -/
theorem whole_iff (hlength : content'.length = content.length) :
    Whole made content content' ↔ ∀ k < n, ∀ c, content[i + k]? = some c → c.start ≠ c.stop →
      LineHasPrefix source containers fenceOffset (first + (i + k)) c := by
  have hlines : ((content.drop i).take n).Sublist content :=
    (List.take_sublist n _).trans (List.drop_sublist i content)
  have hagain := forall₂_reread hunit hsorted hwithin hmade hbody hbody' hread hread' hlength
  -- A line that gets the step begins where that is put, if all of its prefixes are before; the
  -- others get nothing.
  constructor
  · intro hwhole k hk c hc hne
    obtain ⟨hi, hget⟩ := List.getElem?_eq_some_iff.1 hc
    have hc' := List.getElem?_eq_getElem (l := content') (i := i + k) (hlength ▸ hi)
    have hmem : c ∈ (content.drop i).take n := by
      refine List.mem_of_getElem? (i := k) ?_
      rw [List.getElem?_take_of_lt hk, List.getElem?_drop, hc]
    have hput := put_line hsorted hwithin hlines hmade hmem
    rw [if_neg hne] at hput
    refine ((reread_line hunit hsorted hwithin hmade hbody hbody' hread hread' hc hc').2 ?_).1 ?_
    · rw [hput]
      exact List.ne_nil_of_length_pos hunit.length_pos
    · refine hwhole (c, _) (List.mem_of_getElem? (i := i + k) ?_)
      rw [List.getElem?_zip_eq_some]
      exact ⟨hc, hc'⟩
  · intro hprefixes
    refine whole_content hsorted hwithin hlines hmade hagain rfl fun x hx => ?_
    obtain ⟨k, hk⟩ := List.getElem?_of_mem hx
    obtain ⟨hc, hc'⟩ := List.getElem?_zip_eq_some.1 hk
    have hmem := List.mem_of_getElem? hc
    have hlt : k < n := by
      have := (List.getElem?_eq_some_iff.1 hc).1
      rw [List.length_take] at this
      omega
    rw [List.getElem?_take_of_lt hlt, List.getElem?_drop] at hc hc'
    obtain ⟨hr, hiff⟩ := reread_line hunit hsorted hwithin hmade hbody hbody' hread hread' hc hc'
    have hput := put_line hsorted hwithin hlines hmade hmem
    by_cases hempty : x.1.start = x.1.stop
    · -- Nothing is put before a line that holds nothing.
      obtain ⟨-, hto, -, -⟩ := forward_line hsorted hwithin hlines hmade (hlines.subset hmem)
      rw [if_pos hempty] at hput
      rw [hput, List.length_nil] at hto
      have := hr.start
      omega
    · rw [if_neg hempty] at hput
      refine (hiff ?_).2 (hprefixes k hlt _ hc hempty)
      rw [hput]
      exact List.ne_nil_of_length_pos hunit.length_pos

end

/-- A model of a fenced block that is indented by two columns, with two lines: the fence's
    indentation, a tab, `a` more and a letter; `b` tabs and two letters. Of a tab at the start of
    the second line the fence takes two columns. -/
def tabbedFence (a b : UInt32) : RenderModel where
  bytes := []
  words :=
    [0x354B4C46, 5, 19 + a + b, 19 + a + b, 4, 2, 2, 0, 0, 0, 2, 0] ++
    [0, 6, 11 + a, 14 + a + b] ++
    [0, 0xFFFFFFFF, 0, 19 + a + b, 0, 4, 0, 0, 0, 0xFFFFFFFF] ++
    [0x303, 0, 2, 19 + a + b, 0, 4, 0, 0, 3, 0] ++
    [8, 10 + a, 6, 1] ++ [11 + a + b, 13 + a + b, 11 + a, 2 + b * 0x80000000] ++ [5, 5]

/-- The projection of the block. -/
def tabbed : Projection :=
  Projection.of .units (tabbedFence 0 0) (Text.ofString "  ```\n  \tx\nab\n  ```") {} none

/-- The block with a tab before the second line. -/
def tabbedTaken : Projection :=
  Projection.of .units (tabbedFence 0 1) (Text.ofString "  ```\n  \tx\n\tab\n  ```") {} none

/-- The block with one more tab before the first line. -/
def tabbedWhole : Projection :=
  Projection.of .units (tabbedFence 1 0) (Text.ofString "  ```\n  \t\tx\nab\n  ```") {} none

example : tabbed.rows.map (·.text) = [Text.ofString "\tx\nab"] := by decide
example : tabbedTaken.rows.map (·.text) = [Text.ofString "\tx\n  ab"] := by decide
example : tabbedWhole.rows.map (·.text) = [Text.ofString "\t\tx\nab"] := by decide

/-- A block of two lines is read as its lines are. -/
theorem blockRead_of_two {source : Text} {m : RenderModel} {b : Nat}
    {containers : List Native.Container} {fenceOffset : Nat} {c d : ContentView}
    (hcontent : m.contentOf b = [c, d])
    (h : BodyRead source containers fenceOffset (m.blockFirstLine b + 1) c)
    (h' : BodyRead source containers fenceOffset (m.blockFirstLine b + 2) d) :
    BlockRead source m b containers fenceOffset := by
  intro k e he
  rw [hcontent] at he
  match k with
  | 0 => exact Option.some.inj he ▸ h
  | 1 => exact Option.some.inj he ▸ h'
  | k + 2 => cases he

theorem contentOf_tabbed :
    tabbed.model.contentOf 1 = [⟨1, 8, 10, 6, 0⟩, ⟨2, 11, 13, 11, 0⟩] := by
  decide

theorem contentOf_tabbedWhole :
    tabbedWhole.model.contentOf 1 = [⟨1, 8, 11, 6, 0⟩, ⟨2, 12, 14, 12, 0⟩] := by
  decide

theorem blockRead_tabbed : BlockRead tabbed.source tabbed.model 1 [] 2 :=
  blockRead_of_two contentOf_tabbed (by decide) (by decide)

theorem blockRead_tabbedWhole : BlockRead tabbedWhole.source tabbedWhole.model 1 [] 2 :=
  blockRead_of_two contentOf_tabbedWhole (by decide) (by decide)

theorem blockRead_tabbedTaken : BlockRead tabbedTaken.source tabbedTaken.model 1 [] 2 :=
  blockRead_of_two (c := ⟨1, 8, 10, 6, 0⟩) (d := ⟨2, 12, 14, 11, 2⟩) (by decide) (by decide)
    (by decide)

/-- Outdent after Indent. The editor's own shift gives the body and the selection back. The kernel's
    shift of a fenced block gives the source and the selection back if and only if, before Indent,
    each line that gets the step has all of its prefix. Both leave a line alone where a selection
    ends at its start. The block once more has the lines and the containers that it had, and the
    delegate resolves its language as before. -/
theorem outdent_indent {source : Text} {base extent : Nat} (hcr : 0x0D ∉ source)
    (hbase : base ≤ source.length) (hextent : extent ≤ source.length) (hdiffer : base ≠ extent)
    (resolve : Text → Text) {gs : Graphemes} {p : Projection} (h : Built gs p)
    (hm : p.model.SchemaConforms p.source) (hsrc : validateFlarkSource p.source = true)
    (hbodies : ∀ b < p.model.blockCount, p.model.blockFenced b = true →
      p.model.BodyConforms p.source b)
    {row : ProjectedRow} (hrow : row ∈ p.rows) (hfenced : row.fenced = true)
    {containers : List Native.Container} {fenceOffset : Nat}
    (hread : BlockRead p.source p.model row.block.toNat containers fenceOffset)
    {selection : Selection} (hne : selection.base ≠ selection.extent) {i j : Nat}
    {c d : ContentView} (hc : (p.model.contentOf row.block.toNat)[i]? = some c)
    (hd : (p.model.contentOf row.block.toNat)[j]? = some d)
    (hstart : c.start ≤ selection.start ∧ selection.start ≤ c.stop)
    (hstop : d.start ≤ selection.stop ∧ selection.stop ≤ d.stop) :
    (∃ base' extent' : Nat,
      let indented :=
        CodeMirror.shift source base extent true (codeIndentUnit source (resolve source))
      let result := indented.apply source
      let outdented :=
        CodeMirror.shift result base' extent' false (codeIndentUnit result (resolve result))
      (indented.base = base' ∧ indented.extent = extent' ∧ base' ≤ result.length ∧
          extent' ≤ result.length) ∧
        (resolve result = resolve source →
          outdented.apply result = source ∧ outdented.base = base ∧ outdented.extent = extent ∧
          (CodeMirror.lineStart source (max base extent) = max base extent →
            indented.stop = (max base extent - 1 : Nat) ∧
              outdented.stop = (max base' extent' - 1 : Nat)))) ∧
    ((shiftBlock p.source p.model row selection false (resolve row.text) = .refused ∧
        shiftBlock p.source p.model row selection true (resolve row.text) = .refused) ∨
      ∃ body made, shiftBlock p.source p.model row selection false (resolve row.text) =
          .commitsCode body made
            ⟨made.forward selection.base true, made.forward selection.extent true, none⟩ ∧
        (i < j → selection.stop = d.start → ∀ e ∈ made.list, e.stop < d.start) ∧
        ∀ p' : Projection, Built gs p' → p'.model.SchemaConforms p'.source →
          validateFlarkSource p'.source = true →
          (∀ b < p'.model.blockCount, p'.model.blockFenced b = true →
            p'.model.BodyConforms p'.source b) →
          p'.source = made.apply p.source → ∀ row' ∈ p'.rows, row'.fenced = true →
          p'.model.blockFirstLine row'.block.toNat = p.model.blockFirstLine row.block.toNat →
          (p'.model.contentOf row'.block.toNat).length =
            (p.model.contentOf row.block.toNat).length →
          BlockRead p'.source p'.model row'.block.toNat containers fenceOffset →
          resolve row'.text = resolve row.text →
          ((∃ body' undone, shiftBlock p'.source p'.model row'
                ⟨made.forward selection.base true, made.forward selection.extent true, none⟩ true
                (resolve row'.text) =
                  .commitsCode body' undone ⟨selection.base, selection.extent, none⟩ ∧
              undone.apply p'.source = p.source ∧
              (i < j → selection.stop = d.start → ∀ e ∈ undone.list,
                e.stop < made.forward d.start true)) ↔
            HavePrefixes p.source p.model row.block.toNat containers fenceOffset i
              (shiftedLines selection i j d))) := by
  -- The editor's own shift sees no prefixes. Of the kernel's, `shiftBlock_undo` says what has to be
  -- read of the lines again, and `whole_iff` what that is before Indent.
  constructor
  · obtain ⟨base', extent', hplaces, hundo⟩ :=
      CodeMirror.shift_undo (resolve source) hcr hbase hextent hdiffer
    refine ⟨base', extent', hplaces, fun hsame => ?_⟩
    rw [hsame]
    exact hundo
  have hbody := bodyRow h hm hsrc hbodies hrow hfenced
  refine (hbody.shiftBlock_undo hne hc hd hstart hstop).imp_right ?_
  rintro ⟨body, made, hcommits, halone, hmade, hundo⟩
  refine ⟨body, made, hcommits, halone, fun p' h' hm' hsrc' hbodies' heq row' hrow' hfenced' hfirst
    hlength hread' hresolve => ?_⟩
  have hbody' := bodyRow h' hm' hsrc' hbodies' hrow' hfenced'
  have hlines := bodyLines h hm hsrc hbodies hrow hfenced
  have hlines' := bodyLines h' hm' hsrc' hbodies' hrow' hfenced'
  rw [BlockRead, hfirst] at hread'
  rw [hfirst] at hlines'
  rw [heq] at hbody' hread' hlines' ⊢
  rw [hresolve]
  have hunit := CodeMirror.step_codeIndentUnit row.text (resolve row.text)
  exact (hundo p'.model row' _ hbody' (forall₂_reread hunit hbody.sorted hbody.within hmade hlines
    hlines' hread hread' hlength)).trans (whole_iff hunit hbody.sorted hbody.within hmade hlines
    hlines' hread hread' hlength)

/-- A tab before the second line, of which the fence takes two columns: Outdent finds no white space
    there, and leaves the tab. -/
theorem outdent_indent_taken : ∃ row ∈ tabbed.rows, row.fenced = true ∧
    ∃ body made, shiftBlock tabbed.source tabbed.model row ⟨11, 13, none⟩ false [] =
        .commitsCode body made ⟨12, 14, none⟩ ∧
      tabbedTaken.source = made.apply tabbed.source ∧
      ∃ row' ∈ tabbedTaken.rows, row'.fenced = true ∧
        BlockRead tabbed.source tabbed.model row.block.toNat [] 2 ∧
        BlockRead tabbedTaken.source tabbedTaken.model row'.block.toNat [] 2 ∧
        shiftBlock tabbedTaken.source tabbedTaken.model row' ⟨12, 14, none⟩ true [] = .refused ∧
        row'.text ≠ row.text ∧ tabbedTaken.source ≠ tabbed.source := by
  obtain ⟨row, hrow, hfenced, hcommits, hblock, htext⟩ : ∃ row ∈ tabbed.rows, row.fenced = true ∧
      shiftBlock tabbed.source tabbed.model row ⟨11, 13, none⟩ false [] =
        .commitsCode (Text.ofString "\tx\n\tab") ⟨[⟨11, 11, [0x09]⟩], rfl⟩ ⟨12, 14, none⟩ ∧
      row.block.toNat = 1 ∧ row.text = Text.ofString "\tx\nab" := by
    decide
  obtain ⟨row', hrow', hfenced', hrefused, hblock', htext'⟩ :
      ∃ row' ∈ tabbedTaken.rows, row'.fenced = true ∧
        shiftBlock tabbedTaken.source tabbedTaken.model row' ⟨12, 14, none⟩ true [] = .refused ∧
        row'.block.toNat = 1 ∧ row'.text = Text.ofString "\tx\n  ab" := by
    decide
  refine ⟨row, hrow, hfenced, _, _, hcommits, by decide, row', hrow', hfenced', ?_, ?_, hrefused,
    ?_, by decide⟩
  · rw [hblock]
    exact blockRead_tabbed
  · rw [hblock']
    exact blockRead_tabbedTaken
  · rw [htext, htext']
    decide

theorem tabbed_schemaConforms : tabbed.model.SchemaConforms tabbed.source where
  toConforms := ⟨⟨by decide, by decide⟩, by decide⟩
  parent := by decide
  blockStart := by decide
  contentLine := by decide
  lineOrder := by decide
  afterDefinitions := by decide
  runOrder := by decide
  runRange := by decide

theorem tabbedWhole_schemaConforms : tabbedWhole.model.SchemaConforms tabbedWhole.source where
  toConforms := ⟨⟨by decide, by decide⟩, by decide⟩
  parent := by decide
  blockStart := by decide
  contentLine := by decide
  lineOrder := by decide
  afterDefinitions := by decide
  runOrder := by decide
  runRange := by decide

/-- The code of the document with a tab conforms. -/
theorem tabbed_bodyConforms : ∀ b < tabbed.model.blockCount, tabbed.model.blockFenced b = true →
    tabbed.model.BodyConforms tabbed.source b := by
  intro b hb hfenced
  have honly : ∀ b < tabbed.model.blockCount, tabbed.model.blockFenced b = true → b = 1 := by
    decide
  rw [honly b hb hfenced]
  refine ⟨by decide, fun i c hc => ?_, by decide⟩
  rw [contentOf_tabbed] at hc
  match i with
  | 0 | 1 =>
    cases hc
    decide
  | i + 2 => cases hc

theorem tabbedWhole_bodyConforms :
    ∀ b < tabbedWhole.model.blockCount, tabbedWhole.model.blockFenced b = true →
      tabbedWhole.model.BodyConforms tabbedWhole.source b := by
  intro b hb hfenced
  have honly : ∀ b < tabbedWhole.model.blockCount,
      tabbedWhole.model.blockFenced b = true → b = 1 := by
    decide
  rw [honly b hb hfenced]
  refine ⟨by decide, fun i c hc => ?_, by decide⟩
  rw [contentOf_tabbedWhole] at hc
  match i with
  | 0 | 1 =>
    cases hc
    decide
  | i + 2 => cases hc

/-- A tab before the first line, which has the fence's indentation: Outdent takes it away. -/
theorem outdent_indent_whole :
    (∃ base' extent' : Nat,
      let source := Text.ofString "\tx\nab"
      let indented := CodeMirror.shift source 0 5 true (codeIndentUnit source [])
      let result := indented.apply source
      let outdented := CodeMirror.shift result base' extent' false (codeIndentUnit result [])
      outdented.apply result = source) ∧
    ∃ row ∈ tabbed.rows, ∃ body made,
      shiftBlock tabbed.source tabbed.model row ⟨8, 10, none⟩ false [] =
        .commitsCode body made ⟨9, 11, none⟩ ∧
      tabbedWhole.source = made.apply tabbed.source ∧
      ∃ row' ∈ tabbedWhole.rows, ∃ body' undone,
        shiftBlock tabbedWhole.source tabbedWhole.model row' ⟨9, 11, none⟩ true [] =
          .commitsCode body' undone ⟨8, 10, none⟩ ∧
        undone.apply tabbedWhole.source = tabbed.source := by
  obtain ⟨row, hrow, hfenced, hcommits, hblock⟩ : ∃ row ∈ tabbed.rows, row.fenced = true ∧
      shiftBlock tabbed.source tabbed.model row ⟨8, 10, none⟩ false [] =
        .commitsCode (Text.ofString "\t\tx\nab") ⟨[⟨8, 8, [0x09]⟩], rfl⟩ ⟨9, 11, none⟩ ∧
      row.block.toNat = 1 := by
    decide
  obtain ⟨row', hrow', hfenced', hblock'⟩ : ∃ row' ∈ tabbedWhole.rows, row'.fenced = true ∧
      row'.block.toNat = 1 := by
    decide
  obtain ⟨⟨base', extent', -, hsource⟩, hkernel⟩ :=
    @outdent_indent (Text.ofString "\tx\nab") 0 5 (by decide) (by decide) (by decide) (by decide)
      (fun _ => []) .units tabbed (Built.anew tabbed_schemaConforms.toConforms {})
      tabbed_schemaConforms (by decide +kernel) tabbed_bodyConforms row hrow hfenced [] 2
      (by rw [hblock]; exact blockRead_tabbed) ⟨8, 10, none⟩ (by decide) 0 0
      ⟨1, 8, 10, 6, 0⟩ ⟨1, 8, 10, 6, 0⟩ (by rw [hblock, contentOf_tabbed]; rfl)
      (by rw [hblock, contentOf_tabbed]; rfl) (by decide) (by decide)
  refine ⟨⟨base', extent', (hsource rfl).1⟩, row, hrow, _, _, hcommits, by decide, row', hrow', ?_⟩
  rcases hkernel with ⟨hrefused, -⟩ | ⟨body, made, hmade, -, hundo⟩
  · rw [hcommits] at hrefused
    cases hrefused
  rw [hcommits] at hmade
  obtain ⟨-, rfl, -⟩ := BlockShift.commitsCode.inj hmade
  obtain ⟨body', undone, hcommits', hback, -⟩ := (hundo tabbedWhole
    (Built.anew tabbedWhole_schemaConforms.toConforms {}) tabbedWhole_schemaConforms
    (by decide +kernel) tabbedWhole_bodyConforms (by decide +kernel) row' hrow' hfenced'
    (by rw [hblock, hblock']; decide)
    (by rw [hblock, hblock', contentOf_tabbed, contentOf_tabbedWhole]; rfl)
    (by rw [hblock']; exact blockRead_tabbedWhole) rfl).2 fun k hk c hc _ => by
      -- The first line alone gets the step, and it has the fence's indentation.
      rw [hblock, contentOf_tabbed] at hc
      obtain rfl : k = 0 := Nat.lt_one_iff.1 hk
      obtain rfl := Option.some.inj hc
      rw [hblock]
      decide
  exact ⟨body', undone, hcommits', hback⟩

end CodeEditing

end Flark
