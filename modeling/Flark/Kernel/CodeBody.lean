import Flark.Kernel.Admission
import Flark.Kernel.CodeFence
import Flark.Kernel.DisplayOrder
import Flark.Lib.Spelled

/-!
# The lines of fenced code

What the row of a fenced block shows, as lines of the source: each has the containers' prefix
before its content and a line ending behind it, and the row shows the contents with a line feed
between two of them.

* `line_ending`: a line of a source that an editor takes ends in LF or CRLF;
* `Laid`: lines as the content records of a block lay them out in a source;
* `Built.codeRow`: the row of a fenced block, over the lines that its records lay out.
-/

namespace Flark

open Spelled

/-! ## Line endings -/

/-- Each carriage return has a line feed behind it. -/
def NoBareReturn (t : Text) : Prop := ∀ i : Nat, t[i]? = some 0x0D → t[i + 1]? = some 0x0A

theorem noBareReturn_of_validate {t : Text} (h : validateFlarkSource t = true) : NoBareReturn t := by
  have hcons : ∀ {u : UInt16} {rest : Text}, (u = 0x0D → rest.head? = some 0x0A) →
      NoBareReturn rest → NoBareReturn (u :: rest) := by
    intro u rest hcr hrest i hi
    cases i with
    | zero =>
      rw [List.getElem?_cons_zero, Option.some_inj] at hi
      rw [List.getElem?_cons_succ, ← List.head?_eq_getElem?]
      exact hcr hi
    | succ i => exact hrest i hi
  refine validate_induction (fun i hi => absurd hi (by simp))
    (fun u v rest hhigh hlow ih => hcons ?_ (hcons ?_ ih)) (fun u rest _ _ hcr ih => hcons hcr ih) h
  · rintro rfl
    exact absurd hhigh (by decide)
  · rintro rfl
    exact absurd hlow (by decide)

/-- A line feed, alone or behind a carriage return. -/
def IsLineBreak (eol : Text) : Prop := eol = [0x0A] ∨ eol = [0x0D, 0x0A]

theorem codeUnitAt_eq_iff {t : Text} {i : Nat} {u : UInt16} (hu : u ≠ 0) :
    t.codeUnitAt i = u ↔ t[i]? = some u := by
  rw [Text.codeUnitAt, Int.toNat_natCast, List.getD_eq_getElem?_getD]
  cases t[i]? with
  | none => simpa using hu.symm
  | some v => rw [Option.getD_some, Option.some_inj]

theorem trim_succ (src : Text) (s n : Nat) : RenderModel.lineEndOf.trim src s (n + 1) =
    if src[s + n]? = some 0x0A ∨ src[s + n]? = some 0x0D then RenderModel.lineEndOf.trim src s n
    else (s + n + 1 : Nat) := by
  rw [RenderModel.lineEndOf.trim]
  exact if_congr (or_congr (codeUnitAt_eq_iff (by decide)) (codeUnitAt_eq_iff (by decide))) rfl rfl

section

variable {src : Text} (hsrc : NoBareReturn src) {l : Nat}

include hsrc

/-- No unit before the last ones of a line ends it. -/
theorem not_ends_within {i : Nat} (hi : lineBound src l ≤ i) (hi' : i < lineBound src (l + 1)) :
    (src[i]? = some 0x0A → i + 1 = lineBound src (l + 1)) ∧
      (src[i]? = some 0x0D → i + 2 = lineBound src (l + 1) ∧ src[i + 1]? = some 0x0A) := by
  have hfeed : ∀ j, lineBound src l ≤ j → j < lineBound src (l + 1) → src[j]? = some 0x0A →
      j + 1 = lineBound src (l + 1) := by
    intro j hj hj' hu
    have hstart : IsLineStart src (j + 1) := ⟨j, _, rfl, hu, Or.inl rfl⟩
    have := (lineBound_succ_le hstart (show lineBound src l < j + 1 by omega)).2
    omega
  refine ⟨hfeed i hi hi', fun hu => ?_⟩
  have hnext := hsrc i hu
  have hlt : i + 1 < lineBound src (l + 1) := by
    by_contra hge
    have hbound : lineBound src (l + 1) = i + 1 := by omega
    have hlength := (List.getElem?_eq_some_iff.1 hnext).1
    have hl' : l + 1 < lineTotal src := by
      by_contra hlast
      rw [lineBound_of_le (not_lt.1 hlast)] at hbound
      omega
    -- The next line would start between the return and its line feed.
    obtain ⟨j, v, hj, hv, hends⟩ := isLineStart_lineBound (by omega) hl'
    obtain rfl : j = i := by omega
    rw [hu, Option.some_inj] at hv
    rcases hends with hends | hends
    · rw [← hv] at hends
      exact absurd hends (by decide)
    · exact hends.2 hnext
  exact ⟨by have := hfeed (i + 1) (by omega) hlt hnext; omega, hnext⟩

/-- A line that another one follows has a line feed at its end. -/
theorem ends_of_lt (hl : l + 1 < lineTotal src) :
    src[lineBound src (l + 1) - 1]? = some 0x0A := by
  obtain ⟨j, v, hj, hv, hends⟩ := isLineStart_lineBound (by omega) hl
  rw [hj, Nat.add_sub_cancel, hv]
  rcases hends with rfl | ⟨rfl, hnext⟩
  · rfl
  · exact absurd (hsrc j hv) hnext

/-- Where the content of a line stops: at the end of the source, before the line feed, or before
    the carriage return before that. -/
theorem trim_cases : ∃ k : Nat, RenderModel.lineEndOf.trim src (lineBound src l)
      (lineBound src (l + 1) - lineBound src l) = k ∧ lineBound src l ≤ k ∧
    ((k = lineBound src (l + 1) ∧ k = src.length ∧
        (lineBound src l < k → src[k - 1]? ≠ some 0x0A)) ∨
      (k + 1 = lineBound src (l + 1) ∧ src[k]? = some 0x0A ∧
        (lineBound src l < k → src[k - 1]? ≠ some 0x0D)) ∨
      (k + 2 = lineBound src (l + 1) ∧ src[k]? = some 0x0D ∧ src[k + 1]? = some 0x0A)) := by
  have hends : ∀ i, lineBound src l ≤ i → i < lineBound src (l + 1) → _ := fun i hi hi' =>
    @not_ends_within src hsrc l i hi hi'
  have hlast : src[lineBound src (l + 1) - 1]? ≠ some 0x0A ∨
      lineBound src l = lineBound src (l + 1) → lineBound src (l + 1) = src.length := by
    intro h
    by_contra hne
    have hl : l + 1 < lineTotal src := by
      by_contra hge
      exact hne (lineBound_of_le (not_lt.1 hge))
    rcases h with h | h
    · exact h (ends_of_lt hsrc hl)
    · exact absurd (lineBound_lt (show l < l + 1 by omega) hl) (by omega)
  obtain ⟨n, hn⟩ := Nat.exists_eq_add_of_le
    (show lineBound src l ≤ lineBound src (l + 1) from lineBound_mono (Nat.le_succ l))
  rw [hn] at hends hlast ⊢
  rw [Nat.add_sub_cancel_left]
  generalize lineBound src l = s at hends hlast ⊢
  -- A line has no line feed but at its end, and no other carriage return than the one before it, so
  -- that at most two units are trimmed.
  cases n with
  | zero => exact ⟨s, rfl, le_rfl, Or.inl ⟨rfl, hlast (Or.inr rfl), fun h => absurd h (lt_irrefl s)⟩⟩
  | succ n =>
    rw [show s + (n + 1) - 1 = s + n from rfl] at hlast
    have hunit := hends (s + n) (by omega) (by omega)
    rw [trim_succ]
    by_cases hfeed : src[s + n]? = some 0x0A
    · rw [if_pos (Or.inl hfeed)]
      cases n with
      | zero => exact ⟨s, rfl, le_rfl, Or.inr (Or.inl ⟨rfl, hfeed, fun h => absurd h (lt_irrefl s)⟩)⟩
      | succ n =>
        have hbefore := hends (s + n) (by omega) (by omega)
        rw [trim_succ]
        by_cases hreturn : src[s + n]? = some 0x0D
        · rw [if_pos (Or.inr hreturn)]
          refine ⟨s + n, ?_, Nat.le_add_right s n, Or.inr (Or.inr ⟨rfl, hreturn, hfeed⟩)⟩
          cases n with
          | zero => rfl
          | succ n =>
            have hmore := hends (s + n) (by omega) (by omega)
            rw [trim_succ, if_neg]
            · rfl
            · rintro (h | h)
              · have := hmore.1 h
                omega
              · have := (hmore.2 h).1
                omega
        · rw [if_neg]
          · exact ⟨s + n + 1, rfl, by omega, Or.inr (Or.inl ⟨rfl, hfeed, fun _ => hreturn⟩)⟩
          · rintro (h | h)
            · have := hbefore.1 h
              omega
            · exact hreturn h
    · rw [if_neg]
      · exact ⟨s + n + 1, rfl, by omega, Or.inl ⟨rfl, hlast (Or.inl hfeed), fun _ => hfeed⟩⟩
      · rintro (h | h)
        · exact hfeed h
        · have := (hunit.2 h).1
          omega

end

/-- A line of a source that an editor takes is its content and a line break; the last line can
    lack the break. -/
theorem line_ending {m : RenderModel} {src : Text} (h : m.HasLineTable src)
    (hsrc : NoBareReturn src) {l : Nat} (hl : l < m.lineCount) :
    (∀ i : Nat, lineBound src l ≤ i → (i : Int) < m.lineEndOf src l →
        src[i]? ≠ some 0x0A ∧ src[i]? ≠ some 0x0D) ∧
      (IsLineBreak (src.substring (m.lineEndOf src l) (lineBound src (l + 1))) ∨
        m.lineEndOf src l = lineBound src (l + 1) ∧ lineBound src (l + 1) = src.length) := by
  obtain ⟨k, hk, hle, hcases⟩ := @trim_cases src hsrc l
  rw [h.lineEndOf_eq hl, hk]
  refine ⟨fun i hi hik => ?_, ?_⟩
  · have hends := @not_ends_within src hsrc l i hi (by omega)
    refine ⟨fun hu => ?_, fun hu => ?_⟩
    · have := hends.1 hu
      rcases hcases with ⟨hke, -, hnot⟩ | hcases | hcases
      · rw [show i = k - 1 by omega] at hu
        exact hnot (by omega) hu
      · omega
      · omega
    · obtain ⟨hend, hnext⟩ := hends.2 hu
      rcases hcases with ⟨hke, -, hnot⟩ | ⟨hke, -, hnot⟩ | hcases
      · rw [show i + 1 = k - 1 by omega] at hnext
        exact hnot (by omega) hnext
      · rw [show i = k - 1 by omega] at hu
        exact hnot (by omega) hu
      · omega
  · rcases hcases with ⟨hend, hlength, -⟩ | ⟨hend, hfeed, -⟩ | ⟨hend, hreturn, hfeed⟩
    · exact Or.inr ⟨by rw [hend], by omega⟩
    · rw [← hend]
      exact Or.inl (Or.inl (Text.substring_one hfeed))
    · rw [← hend]
      exact Or.inl (Or.inr (Text.substring_two hreturn hfeed))

/-! ## Lines that content records lay out -/

/-- What the schema says of the content records of a fenced block: one for each line between the
    fences, each up to the line's end. -/
structure RenderModel.BodyConforms (m : RenderModel) (src : Text) (b : Nat) : Prop where
  lineCount : m.blockLineCount b = (m.contentOf b).length + if CodeFence.closed m b then 2 else 1
  line : ∀ i c, (m.contentOf b)[i]? = some c →
    c.line = ((m.blockFirstLine b + 1 + i : Nat) : Int)
  stop : ∀ c ∈ m.contentOf b, c.stop = m.lineEndOf src c.line

/-- The line of the source that a content record is on. -/
def codeLine (src : Text) (c : ContentView) : Line UInt16 where
  indent := src.substring (lineBound src c.line.toNat) c.start
  content := src.substring c.start c.stop
  eol := src.substring c.stop (lineBound src (c.line.toNat + 1))

/-- The records lay the lines out in the source, one behind the other from an offset on. -/
def Laid (src : Text) : (base : Nat) → List ContentView → List (Line UInt16) → Prop
  | base, [], [] => base ≤ src.length
  | base, c :: content, l :: lines =>
    (c.start = (base + l.indent.length : Nat) ∧ c.stop = (base + l.indent.length + l.content.length : Nat)) ∧
      (src.substring base c.start = l.indent ∧ src.substring c.start c.stop = l.content ∧
        src.substring c.stop (base + l.spelled.length : Nat) = l.eol) ∧
      Laid src (base + l.spelled.length) content lines
  | _, _, _ => False

theorem laid {m : RenderModel} {src : Text} (h : m.HasLineTable src) {content : List ContentView}
    {line : Nat} (hline : line + content.length ≤ m.lineCount)
    (hc : ∀ i c, content[i]? = some c → c.line = ((line + i : Nat) : Int) ∧
      (lineBound src (line + i) : Int) ≤ c.start ∧ c.start ≤ c.stop ∧
      c.stop = m.lineEndOf src (line + i : Nat)) :
    Laid src (lineBound src line) content (content.map (codeLine src)) := by
  induction content generalizing line with
  | nil => exact lineBound_le_length src line
  | cons c content ih =>
    rw [List.length_cons] at hline
    obtain ⟨hl, hstart, hle, hstop⟩ := hc 0 c rfl
    rw [Nat.add_zero] at hl hstart hstop
    have hend := h.lineEndOf_le_lineBound (show line < m.lineCount by omega)
    have hlength := lineBound_le_length src (line + 1)
    have hindent : (codeLine src c).indent.length = c.start.toNat - lineBound src line := by
      rw [codeLine, hl, Int.toNat_natCast, Text.length_substring (Int.natCast_nonneg _) (by omega)]
      omega
    have hcontent : (codeLine src c).content.length = (c.stop - c.start).toNat := by
      rw [codeLine, Text.length_substring (by omega) (by omega)]
    have heol : (codeLine src c).eol.length = (lineBound src (line + 1) - c.stop).toNat := by
      rw [codeLine, hl, Int.toNat_natCast, Text.length_substring (by omega) (by omega)]
    have hspelled : lineBound src line + (codeLine src c).spelled.length =
        lineBound src (line + 1) := by
      rw [Line.spelled, List.length_append, List.length_append, hindent, hcontent, heol]
      omega
    rw [List.map_cons, Laid, hspelled]
    refine ⟨⟨by omega, by omega⟩, ⟨?_, rfl, ?_⟩, ih (by omega) fun i c' hc' => ?_⟩
    · rw [codeLine, hl, Int.toNat_natCast]
    · rw [codeLine, hl, Int.toNat_natCast]
    · have := hc (i + 1) c' hc'
      rwa [show line + (i + 1) = line + 1 + i by omega] at this

namespace Laid

variable {src : Text} {base : Nat} {content : List ContentView} {lines : List (Line UInt16)}

theorem length_le (h : Laid src base content lines) : base + (spell lines).length ≤ src.length := by
  induction content generalizing base lines with
  | nil =>
    cases lines with
    | nil => exact h
    | cons l lines => exact h.elim
  | cons c content ih =>
    cases lines with
    | nil => exact h.elim
    | cons l lines =>
      have := ih h.2.2
      rw [spell_cons, List.length_append]
      omega

theorem drop_eq (h : Laid src base content lines) :
    src.drop base = spell lines ++ src.drop (base + (spell lines).length) := by
  induction content generalizing base lines with
  | nil =>
    cases lines with
    | nil => rfl
    | cons l lines => exact h.elim
  | cons c content ih =>
    cases lines with
    | nil => exact h.elim
    | cons l lines =>
      obtain ⟨⟨hstart, hstop⟩, ⟨hindent, hcontent, heol⟩, hrest⟩ := h
      rw [hstart] at hindent hcontent
      rw [hstop] at hcontent heol
      have hspelled : l.spelled.length = l.indent.length + l.content.length + l.eol.length := by
        rw [Line.spelled, List.length_append, List.length_append]
      rw [Text.drop_split (show base ≤ base + l.indent.length by omega), hindent,
        Text.drop_split (show base + l.indent.length ≤ base + l.indent.length + l.content.length by omega),
        hcontent, Text.drop_split (show base + l.indent.length + l.content.length ≤
          base + l.spelled.length by omega), heol, ih hrest, spell_cons, List.length_append,
        ← Nat.add_assoc]
      rw [show l.spelled ++ spell lines = l.indent ++ l.content ++ l.eol ++ spell lines from rfl]
      simp only [List.append_assoc]

/-- A unit that the lines show is on the line that has it. -/
theorem exists_line (h : Laid src base content lines) (hne : lines ≠ []) {k : Nat}
    (hk : k ≤ (shown 0x0A lines).length) : ∃ (i : Nat) (c : ContentView) (l : Line UInt16),
      content[i]? = some c ∧ lines[i]? = some l ∧ c.start ≤ (base + offset lines k : Nat) ∧
      ((base + offset lines k : Nat) : Int) ≤ c.stop := by
  induction content generalizing base lines k with
  | nil =>
    cases lines with
    | nil => exact absurd rfl hne
    | cons l lines => exact h.elim
  | cons c content ih =>
    cases lines with
    | nil => exact h.elim
    | cons l lines =>
      obtain ⟨⟨hstart, hstop⟩, -, hrest⟩ := h
      by_cases hcontent : k ≤ l.content.length
      · refine ⟨0, c, l, rfl, rfl, ?_⟩
        rw [offset, if_pos hcontent]
        omega
      · rw [offset, if_neg hcontent]
        cases lines with
        | nil => exact absurd hk hcontent
        | cons l' lines =>
          rw [shown, List.length_append, List.length_cons] at hk
          obtain ⟨i, c', l'', hc, hl, hle, hle'⟩ :=
            @ih _ _ hrest (List.cons_ne_nil _ _) (k - l.content.length - 1) (by omega)
          refine ⟨i + 1, c', l'', hc, hl, ?_⟩
          rw [← Nat.add_assoc]
          exact ⟨hle, hle'⟩

/-- The source around the lines. -/
theorem source_eq (h : Laid src base content lines) : src =
    src.take base ++ spell lines ++ src.drop (base + (spell lines).length) := by
  conv_lhs => rw [← List.take_append_drop base src, h.drop_eq]
  rw [List.append_assoc]

end Laid

/-! ## What the row shows -/

section

variable {src : Text} {style : Nat}

/-- The segment of a line's content that is shown from a position on. -/
def contentSegment (style pos : Nat) (c : ContentView) : List Segment :=
  if c.start < c.stop then
    [⟨pos, pos + (c.stop - c.start).toNat, c.start, c.stop, style, true, -1, false⟩]
  else []

/-- The segments of lines, the first of which is shown from a position on. -/
def bodySegments (style : Nat) : (pos : Nat) → ContentView → List ContentView → List Segment
  | pos, c, [] => contentSegment style pos c
  | pos, c, c' :: content =>
    contentSegment style pos c ++
      ⟨pos + (c.stop - c.start).toNat, pos + (c.stop - c.start).toNat + 1, c.stop, c'.start, 0,
        false, -1, true⟩ ::
      bodySegments style (pos + (c.stop - c.start).toNat + 1) c' content

/-- What a literal leaf writes for a line, behind its break. -/
def literalContent (src : Text) (style : Nat) (out : Out) (c : ContentView) : Out :=
  if c.start < c.stop then out.add (src.substring c.start c.stop) c.start c.stop style true (-1) false
  else out

theorem literalContent_eq {base : Nat} {c : ContentView} {content : List ContentView}
    {l : Line UInt16} {lines : List (Line UInt16)} (h : Laid src base (c :: content) (l :: lines))
    (out : Out) : literalContent src style out c =
      ⟨out.text ++ l.content, out.segments ++ contentSegment style out.text.length c⟩ ∧
        l.content.length = (c.stop - c.start).toNat := by
  obtain ⟨⟨hstart, hstop⟩, ⟨-, hcontent, -⟩, -⟩ := h
  have hlength : l.content.length = (c.stop - c.start).toNat := by omega
  refine ⟨?_, hlength⟩
  rw [literalContent, contentSegment]
  split
  · rw [Out.add, hcontent, hlength]
  · rw [List.length_eq_zero_iff.1 (show l.content.length = 0 by omega), List.append_nil,
      List.append_nil]

/-- The walk over the records of a literal leaf writes a segment of the break and one of the
    content for each line. -/
theorem out_literalWalk {leaf : LeafRecords} (hstyle : style =
    if leaf.kind = BlockKind.codeBlock then Style.code else 0) {base : Nat} {c : ContentView}
    {content : List ContentView} {l : Line UInt16} {lines : List (Line UInt16)}
    (h : Laid src base (c :: content) (l :: lines))
    (hvirtual : ∀ c' ∈ c :: content, c'.virtualSpaces = 0) (previous : Option ContentView)
    (st : LiteralState) :
    (literalWalk src leaf previous st (c :: content)).out =
      ⟨(literalBreak st.out previous c).text ++ shown 0x0A (l :: lines),
        (literalBreak st.out previous c).segments ++
          bodySegments style (literalBreak st.out previous c).text.length c content⟩ := by
  have hstep : ∀ (l' : Line UInt16) (lines' : List (Line UInt16)) (base' : Nat) (c' : ContentView)
      (content' : List ContentView), Laid src base' (c' :: content') (l' :: lines') →
      c'.virtualSpaces = 0 → ∀ (previous : Option ContentView) (st : LiteralState),
      (literalStep src leaf previous st c').out =
        ⟨(literalBreak st.out previous c').text ++ l'.content,
          (literalBreak st.out previous c').segments ++
            contentSegment style (literalBreak st.out previous c').text.length c'⟩ := by
    intro l' lines' base' c' content' h' hzero previous st
    rw [← (literalContent_eq h' _).1, literalContent, hstyle, literalStep]
    simp only [emitVirtual, hzero, lt_irrefl, if_false]
  induction content generalizing base c l lines previous st with
  | nil =>
    cases lines with
    | nil => exact hstep l [] base c [] h (hvirtual c List.mem_cons_self) previous st
    | cons l' lines => exact h.2.2.elim
  | cons c' content ih =>
    cases lines with
    | nil => exact h.2.2.elim
    | cons l' lines =>
      have hout := hstep l _ base c _ h (hvirtual c List.mem_cons_self) previous st
      have hlength := (@literalContent_eq src style _ _ _ _ _ h ⟨[], []⟩).2
      rw [literalWalk, ih h.2.2 fun c'' hc'' => hvirtual c'' (List.mem_cons_of_mem _ hc''),
        literalBreak, hout, bodySegments, shown]
      simp only [Out.add, List.length_append, hlength, List.length_singleton, List.append_assoc,
        List.singleton_append]
      rfl

/-- A line that is shown starts at its content, its break where the content stops. -/
theorem head_bodySegments {pos : Nat} {c : ContentView} {content : List ContentView}
    (hle : c.start ≤ c.stop) {s : Segment} (hs : (bodySegments style pos c content).head? = some s) :
    s.sourceStart = c.start := by
  have hcases : contentSegment style pos c = [] ∧ c.start = c.stop ∨
      ∃ t, contentSegment style pos c = [t] ∧ t.sourceStart = c.start := by
    rw [contentSegment]
    split
    · exact Or.inr ⟨_, rfl, rfl⟩
    · exact Or.inl ⟨rfl, by omega⟩
  cases content with
  | nil =>
    rw [bodySegments] at hs
    rcases hcases with ⟨hnil, -⟩ | ⟨t, ht, hstart⟩
    · rw [hnil] at hs
      cases hs
    · rw [ht] at hs
      cases hs
      exact hstart
  | cons c' content =>
    rw [bodySegments] at hs
    rcases hcases with ⟨hnil, heq⟩ | ⟨t, ht, hstart⟩
    · rw [hnil] at hs
      cases hs
      exact heq.symm
    · rw [ht] at hs
      cases hs
      exact hstart

/-- The side of the anchor leaves the segment before out of it. -/
theorem sourceWithin_after (o : Int) (previous : Option Segment) (s : Segment) :
    ProjectedRow.sourceWithin .after o previous s =
      if s.exact then s.sourceStart + (o - s.displayStart)
      else if o = s.displayStart then s.sourceStart
      else s.sourceEnd := by
  rw [ProjectedRow.sourceWithin]
  simp

/-- The source has a unit that the segments show where its line has it. -/
theorem sourceIn_body {base pos k : Nat} {c : ContentView} {content : List ContentView}
    {l : Line UInt16} {lines : List (Line UInt16)} (h : Laid src base (c :: content) (l :: lines))
    (hk : k ≤ (shown 0x0A (l :: lines)).length) (previous : Option Segment)
    (hne : bodySegments style pos c content ≠ []) :
    ProjectedRow.sourceIn .after (pos + k : Nat) previous (bodySegments style pos c content) =
      some ((base + offset (l :: lines) k : Nat) : Int) := by
  induction content generalizing base pos k c l lines previous with
  | nil =>
    obtain ⟨⟨hstart, hstop⟩, -, hrest⟩ := h
    cases lines with
    | cons l' lines => exact hrest.elim
    | nil =>
      rw [shown] at hk
      have hpiece : c.start < c.stop := by
        by_contra hge
        rw [bodySegments, contentSegment, if_neg hge] at hne
        exact hne rfl
      rw [bodySegments, contentSegment, if_pos hpiece, ProjectedRow.sourceIn, if_pos ?_,
        sourceWithin_after, if_pos rfl, offset, if_pos hk]
      · congr 1
        dsimp only
        omega
      · dsimp only
        rcases hk.lt_or_eq with hlt | rfl
        · exact Or.inl (by omega)
        · exact Or.inr ⟨by omega, rfl⟩
  | cons c' content ih =>
    obtain ⟨⟨hstart, hstop⟩, hparts, hrest⟩ := h
    cases lines with
    | nil => exact hrest.elim
    | cons l' lines =>
      have hlength : (c.stop - c.start).toNat = l.content.length := by omega
      obtain ⟨⟨hstart', hstop'⟩, -, -⟩ := id hrest
      rw [shown, List.length_append, List.length_cons] at hk
      -- Behind the content: at the break's end, or in the lines after it.
      have hbreak : l.content.length < k → ∀ previous : Option Segment,
          ProjectedRow.sourceIn .after (pos + k : Nat) previous
            (⟨pos + l.content.length, pos + l.content.length + 1, c.stop, c'.start, 0, false, -1,
              true⟩ :: bodySegments style (pos + l.content.length + 1) c' content) =
            some ((base + offset (l :: l' :: lines) k : Nat) : Int) := by
        intro hlt previous
        rw [offset, if_neg (by omega), ProjectedRow.sourceIn]
        obtain ⟨j, rfl⟩ := Nat.exists_eq_add_of_lt hlt
        rw [show l.content.length + j + 1 - l.content.length - 1 = j by omega]
        have hfirst : offset (l' :: lines) 0 = l'.indent.length := by
          rw [offset, if_pos (Nat.zero_le _), Nat.add_zero]
        cases hsegments : bodySegments style (pos + l.content.length + 1) c' content with
        | nil =>
          have hj : j = 0 := by
            have hempty : (shown 0x0A (l' :: lines)).length = 0 := by
              cases content with
              | nil =>
                cases lines with
                | cons l'' lines => exact hrest.2.2.elim
                | nil =>
                  rw [bodySegments, contentSegment] at hsegments
                  split at hsegments
                  · cases hsegments
                  · rw [shown]
                    omega
              | cons c'' content =>
                rw [bodySegments] at hsegments
                exact absurd hsegments (List.append_ne_nil_of_right_ne_nil _ (List.cons_ne_nil _ _))
            omega
          subst hj
          rw [if_pos (Or.inr ⟨by dsimp only; omega, rfl⟩), sourceWithin_after, if_neg (by simp),
            if_neg (by dsimp only; omega), hfirst]
          congr 1
          dsimp only
          omega
        | cons s segments =>
          rw [if_neg fun h => h.elim (fun h => absurd h (by dsimp only; omega))
            fun h => List.cons_ne_nil _ _ h.2]
          split
          · next hat =>
            obtain rfl : j = 0 := by
              dsimp only at hat
              omega
            have hs := @head_bodySegments style (pos + l.content.length + 1) _ content
              (show c'.start ≤ c'.stop by omega) s
              (by rw [hsegments]; rfl)
            rw [ProjectedRow.sourceBetween, List.head?_cons, Option.map_some, Option.getD_some, hs,
              hfirst]
            congr 1
            omega
          · rw [← hsegments, show pos + (l.content.length + j + 1) =
              pos + l.content.length + 1 + j by omega, ih hrest (by omega) _
                (by rw [hsegments]; exact List.cons_ne_nil _ _), ← Nat.add_assoc]
      rw [bodySegments, contentSegment, hlength]
      split
      · next hpiece =>
        rw [List.singleton_append, ProjectedRow.sourceIn]
        rcases lt_trichotomy k l.content.length with hlt | rfl | hlt
        · rw [if_pos (Or.inl (by dsimp only; omega)), sourceWithin_after, if_pos rfl, offset,
            if_pos hlt.le]
          congr 1
          dsimp only
          omega
        · rw [if_neg (by simp), if_pos rfl, ProjectedRow.sourceBetween, List.head?_cons,
            Option.map_some, Option.getD_some, offset, if_pos le_rfl]
          congr 1
          dsimp only
          omega
        · rw [if_neg (by dsimp only; simp; omega), if_neg (by dsimp only; omega), hbreak hlt]
      · next hpiece =>
        rw [List.nil_append]
        have hempty : l.content.length = 0 := by omega
        rcases Nat.eq_zero_or_pos k with rfl | hpos
        · rw [ProjectedRow.sourceIn, if_pos (Or.inl (by dsimp only; omega)), sourceWithin_after,
            if_neg (by simp), if_pos (by dsimp only; omega), offset, if_pos (Nat.zero_le _)]
          congr 1
          dsimp only
          omega
        · exact hbreak (by omega) previous

end

/-! ## The carets of the row -/

theorem setLine_append (before after : List Int) (y x first : Int) {line : Int} {lineCount : Nat}
    (hline : line = first + before.length) (hcount : before.length + 1 + after.length = lineCount) :
    setLine (before ++ y :: after) first line lineCount x = before ++ x :: after := by
  rw [setLine, if_pos (by omega), show (line - first).toNat = before.length by omega,
    List.set_append_right _ _ le_rfl, Nat.sub_self, List.set_cons_zero]

/-- The walk over records of lines one below the other sets the carets of those. -/
theorem carets_literalWalk {src : Text} {leaf : LeafRecords} {content : List ContentView}
    {previous : Option ContentView} {st : LiteralState} {starts ends after : List Int}
    (hstarts : st.starts = starts ++ (List.replicate content.length (-1) ++ after))
    (hends : st.ends = ends ++ (List.replicate content.length (-1) ++ after))
    (hlength : ends.length = starts.length)
    (hcount : starts.length + content.length + after.length = leaf.lineCount)
    (hline : ∀ i c, content[i]? = some c → c.line = leaf.firstLine + (starts.length + i : Nat)) :
    (literalWalk src leaf previous st content).starts =
        starts ++ (content.map ContentView.start ++ after) ∧
      (literalWalk src leaf previous st content).ends =
        ends ++ (content.map ContentView.stop ++ after) := by
  induction content generalizing previous st starts ends with
  | nil => exact ⟨hstarts, hends⟩
  | cons c content ih =>
    rw [List.length_cons, List.replicate_succ, List.cons_append] at hstarts hends
    rw [List.length_cons] at hcount
    have hfirst := hline 0 c rfl
    have hrest := @ih (some c) (literalStep src leaf previous st c) (starts ++ [c.start])
      (ends ++ [c.stop])
      (by
        rw [literalStep, hstarts, setLine_append _ _ _ _ _ hfirst (by simp; omega),
          List.append_assoc]
        rfl)
      (by
        rw [literalStep, hends, setLine_append _ _ _ _ _ (hlength ▸ hfirst) (by simp; omega),
          List.append_assoc]
        rfl)
      (by simp [hlength]) (by simp; omega) fun i c' hc' => by
        rw [hline (i + 1) c' hc', List.length_append, List.length_singleton]
        congr 2
        omega
    rw [List.append_assoc, List.append_assoc] at hrest
    exact hrest

/-- The carets of a fenced row: none on the lines of the fences. -/
theorem literalLines_fenced {m : RenderModel} {src : Text} {leaf : LeafRecords}
    (hfenced : leaf.fenced = true) {starts list : List Int} (hlength : list.length = starts.length)
    (hstarts : ∀ x ∈ starts, 0 ≤ x) {tail : List Int}
    (htail : tail = if leaf.flags &&& BlockFlag.closed != 0 then [-1] else []) :
    literalLines m src leaf (-1 :: (starts ++ tail)) (-1 :: (list ++ tail)) =
      -1 :: (list ++ tail) := by
  rw [literalLines, if_pos hfenced]
  obtain ⟨y, filled, hfilled, hcount⟩ : ∃ (y : Int) (filled : List Int),
      fillLineEnds m src leaf.firstLine (-1 :: (starts ++ tail)) (-1 :: (list ++ tail)) =
        y :: (list ++ filled) ∧ filled.length = tail.length := by
    rw [fillLineEnds, List.mapIdx_cons, List.mapIdx_append]
    refine ⟨_, _, congrArg₂ List.cons rfl (congrArg₂ (· ++ ·) ?_ rfl), List.length_mapIdx⟩
    refine List.ext_getElem? fun i => ?_
    rw [List.getElem?_mapIdx]
    cases hi : list[i]? with
    | none => rfl
    | some x =>
      have hlt : i < starts.length := hlength ▸ (List.getElem?_eq_some_iff.1 hi).1
      rw [Option.map_some, if_pos (Or.inl ?_)]
      rw [List.getD_cons_succ, List.getD_append _ _ _ _ hlt, List.getD_eq_getElem _ _ hlt]
      exact hstarts _ (List.getElem_mem hlt)
  rw [hfilled, clearFences, List.set_cons_zero]
  cases hclosed : leaf.flags &&& BlockFlag.closed != 0 with
  | false =>
    rw [hclosed] at htail
    subst htail
    rw [List.length_eq_zero_iff.1 hcount, if_neg (by simp)]
    rfl
  | true =>
    rw [hclosed] at htail
    subst htail
    obtain ⟨z, rfl⟩ := List.length_eq_one_iff.1 hcount
    rw [if_pos ⟨rfl, by simp⟩, List.length_cons, List.length_append, List.length_singleton,
      Nat.add_sub_cancel, List.set_cons_succ, List.set_append_right _ _ le_rfl, Nat.sub_self]
    rfl

/-! ## Rows of fenced code -/

theorem mem_literalWalk {src : Text} {leaf : LeafRecords} {content : List ContentView}
    {previous : Option ContentView} {st : LiteralState} {s : Segment} (hs : s ∈ st.out.segments) :
    s ∈ (literalWalk src leaf previous st content).out.segments := by
  induction content generalizing previous st with
  | nil => exact hs
  | cons c content ih =>
    refine ih ?_
    have hbreak : s ∈ (literalBreak st.out previous c).segments := by
      cases previous with
      | none => exact hs
      | some previous => exact List.mem_append_left _ hs
    have hvirtual : s ∈ (emitVirtual (literalBreak st.out previous c) c).segments := by
      rw [emitVirtual]
      split
      · exact List.mem_append_left _ hbreak
      · exact hbreak
    rw [literalStep]
    dsimp only
    split
    · exact List.mem_append_left _ hvirtual
    · exact hvirtual

/-- A row of exact segments and line breaks shows no columns of a tab. -/
theorem virtualSpaces_eq_zero {src : Text} {leaf : LeafRecords} {content : List ContentView}
    {previous : Option ContentView} {st : LiteralState}
    (h : ∀ s ∈ (literalWalk src leaf previous st content).out.segments,
      s.exact = true ∨ s.lineBreak = true) : ∀ c ∈ content, c.virtualSpaces = 0 := by
  induction content generalizing previous st with
  | nil => exact fun _ hc => absurd hc List.not_mem_nil
  | cons c content ih =>
    refine List.forall_mem_cons.2 ⟨?_, ih h⟩
    by_contra hne
    -- The tab's columns are a segment of their own, which stays.
    obtain ⟨s, hs, hexact, hbreak⟩ : ∃ s ∈ (literalStep src leaf previous st c).out.segments,
        s.exact = false ∧ s.lineBreak = false := by
      rw [literalStep, emitVirtual, if_pos (Nat.pos_of_ne_zero hne)]
      dsimp only
      refine ⟨⟨(literalBreak st.out previous c).text.length,
        (literalBreak st.out previous c).text.length +
          (List.replicate c.virtualSpaces (0x20 : UInt16)).length,
        c.start, c.start, 0, false, -1, false⟩, ?_, rfl, rfl⟩
      split
      · exact List.mem_append_left _ (List.mem_append_right _ List.mem_cons_self)
      · exact List.mem_append_right _ List.mem_cons_self
    have hmem : s ∈ (literalWalk src leaf (some c) (literalStep src leaf previous st c)
        content).out.segments := mem_literalWalk hs
    rcases h s hmem with h | h
    · rw [hexact] at h
      cases h
    · rw [hbreak] at h
      cases h

/-- A row of fenced code, over the lines of the source that it shows. -/
structure CodeRow (m : RenderModel) (src : Text) (row : ProjectedRow) (base : Nat)
    (content : List ContentView) (lines : List (Line UInt16)) : Prop where
  fenced : row.fenced = true
  ne_nil : lines ≠ []
  laid : Laid src base content lines
  text : row.text = shown 0x0A lines
  source : ∀ k ≤ row.text.length, row.sourceForDisplay (k : Nat) = ((base + offset lines k : Nat) : Int)
  exact : ∀ s ∈ row.segments, s.exact = true ∨ s.lineBreak = true
  carets : ∃ tail, (∀ x ∈ tail, x < 0) ∧ row.contentStarts = -1 :: (content.map ContentView.start ++ tail) ∧
    row.contentEnds = -1 :: (content.map ContentView.stop ++ tail) ∧
    row.lineCount = content.length + tail.length + 1
  line : ∀ i c, content[i]? = some c → c.line = ((row.firstLine + 1 + i : Nat) : Int) ∧
    ∀ x, c.start ≤ x → x ≤ c.stop → m.lineAt x = c.line
  indent : ∀ (i : Nat) (c : ContentView) (l : Line UInt16), content[i]? = some c → lines[i]? = some l →
    src.substring (m.lineStartUtf16 c.line.toNat) c.start = l.indent
  broken : Broken IsLineBreak lines
  plain : ∀ l ∈ lines, (∀ u ∈ l.indent, u ≠ 0x0A ∧ u ≠ 0x0D) ∧ ∀ u ∈ l.content, u ≠ 0x0A ∧ u ≠ 0x0D

section

variable {m : RenderModel} {src : Text}

theorem broken_codeLines (h : m.HasLineTable src) (hsrc : NoBareReturn src)
    {content : List ContentView} {line : Nat} (hline : line + content.length ≤ m.lineCount)
    (hc : ∀ i c, content[i]? = some c → c.line = ((line + i : Nat) : Int) ∧
      c.stop = m.lineEndOf src (line + i : Nat)) :
    Broken IsLineBreak (content.map (codeLine src)) := by
  induction content generalizing line with
  | nil => exact trivial
  | cons c content ih =>
    cases content with
    | nil => exact trivial
    | cons c' content =>
      rw [List.length_cons, List.length_cons] at hline
      obtain ⟨hl, hstop⟩ := hc 0 c rfl
      rw [Nat.add_zero] at hl hstop
      refine ⟨?_, @ih (line + 1) (by rw [List.length_cons]; omega) fun i c'' hc'' => ?_⟩
      · rw [codeLine, hl, hstop, Int.toNat_natCast]
        refine (line_ending h hsrc (by omega)).2.resolve_right fun hend => ?_
        have := h.lineEndOf_lt (show line + 1 < m.lineCount by omega)
        omega
      · have := hc (i + 1) c'' hc''
        rwa [show line + (i + 1) = line + 1 + i by omega] at this

/-- What is before the content of a line and the content have no line ending. -/
theorem plain_codeLine (h : m.HasLineTable src) (hsrc : NoBareReturn src) {c : ContentView}
    {line : Nat} (hl : line < m.lineCount) (hline : c.line = line)
    (hstart : (lineBound src line : Int) ≤ c.start) (hle : c.start ≤ c.stop)
    (hstop : c.stop = m.lineEndOf src line) :
    (∀ u ∈ (codeLine src c).indent, u ≠ 0x0A ∧ u ≠ 0x0D) ∧
      ∀ u ∈ (codeLine src c).content, u ≠ 0x0A ∧ u ≠ 0x0D := by
  have hends := (line_ending h hsrc hl).1
  have hpart : ∀ a b : Int, (lineBound src line : Int) ≤ a → b ≤ c.stop →
      ∀ u ∈ src.substring a b, u ≠ 0x0A ∧ u ≠ 0x0D := by
    intro a b ha hb u hu
    obtain ⟨i, hi, rfl⟩ := List.getElem_of_mem hu
    have hlt := hi.trans_le (Text.length_substring_le src a b)
    have hunit : src[a.toNat + i]? = some (src.substring a b)[i] := by
      rw [← List.getElem?_eq_getElem hi, Text.substring, List.getElem?_take_of_lt (by omega),
        List.getElem?_drop]
    have hnot := hends (a.toNat + i) (by omega) (by omega)
    rw [hunit] at hnot
    exact ⟨fun h => hnot.1 (congrArg some h), fun h => hnot.2 (congrArg some h)⟩
  refine ⟨?_, hpart _ _ hstart le_rfl⟩
  rw [codeLine, hline, Int.toNat_natCast]
  exact hpart _ _ le_rfl hle

variable {b : Nat}

section

variable (hm : m.SchemaConforms src) (hb : b < m.blockCount) (hfenced : m.blockFenced b = true)
  (hbody : m.BodyConforms src b)

include hm hb hfenced hbody

theorem isLeaf_of_fenced : m.blockKind b = BlockKind.codeBlock ∧
    RenderModel.isLeaf (m.blockKind b) = true ∧
    m.blockFirstLine b + 1 + (m.contentOf b).length ≤ m.lineCount := by
  have hkind : m.blockKind b = BlockKind.codeBlock := by
    rw [RenderModel.blockFenced, Bool.and_eq_true, beq_iff_eq] at hfenced
    exact hfenced.1
  have hleaf : RenderModel.isLeaf (m.blockKind b) = true := by
    rw [hkind]
    decide
  have hlines := hbody.lineCount
  have hwithin := (hm.leaf b hb hleaf (by rw [hlines]; split <;> omega)).lines
  refine ⟨hkind, hleaf, ?_⟩
  split at hlines <;> omega

/-- The records of a fenced block, line by line. -/
theorem record_of_body {i : Nat} {c : ContentView} (hc : (m.contentOf b)[i]? = some c) :
    c.line = ((m.blockFirstLine b + 1 + i : Nat) : Int) ∧
      m.blockFirstLine b + 1 + i < m.lineCount ∧
      (lineBound src (m.blockFirstLine b + 1 + i) : Int) ≤ c.start ∧ c.start ≤ c.stop ∧
      c.stop = m.lineEndOf src (m.blockFirstLine b + 1 + i : Nat) := by
  obtain ⟨-, hleaf, hcount⟩ := isLeaf_of_fenced hm hb hfenced hbody
  have hmem := List.mem_of_getElem? hc
  have hl := hbody.line i c hc
  obtain ⟨-, hstart, hle, -⟩ := hm.contentLine b hb hleaf c hmem
  have hstop := hbody.stop c hmem
  have hi := (List.getElem?_eq_some_iff.1 hc).1
  rw [hl, Int.toNat_natCast] at hstart
  rw [hl] at hstop
  exact ⟨hl, by omega, hstart, hle, hstop⟩

/-- The carets of the row: none on the fences, and one line each between them. -/
theorem carets_literalRow (shells : List Shell) : ∃ tail : List Int, (∀ x ∈ tail, x < 0) ∧
    (literalRow m src b (m.leaf b) shells).contentStarts =
      -1 :: ((m.contentOf b).map ContentView.start ++ tail) ∧
    (literalRow m src b (m.leaf b) shells).contentEnds =
      -1 :: ((m.contentOf b).map ContentView.stop ++ tail) ∧
    (literalRow m src b (m.leaf b) shells).lineCount = (m.contentOf b).length + tail.length + 1 := by
  -- The closing fence, where there is one, is a line behind the body's.
  set tail : List Int := if CodeFence.closed m b then [-1] else [] with htail
  have hreplicate : List.replicate (m.leaf b).lineCount (-1 : Int) =
      [-1] ++ (List.replicate (m.contentOf b).length (-1) ++ tail) := by
    rw [show (m.leaf b).lineCount = m.blockLineCount b from rfl, hbody.lineCount, htail]
    split
    · rw [show (m.contentOf b).length + 2 = 1 + ((m.contentOf b).length + 1) by omega,
        List.replicate_add, List.replicate_add]
      rfl
    · rw [show (m.contentOf b).length + 1 = 1 + (m.contentOf b).length by omega,
        List.replicate_add, List.append_nil]
      rfl
  have hcount : (m.leaf b).lineCount = (m.contentOf b).length + tail.length + 1 := by
    have := congrArg List.length hreplicate
    simp only [List.length_append, List.length_replicate, List.length_singleton] at this
    omega
  obtain ⟨hstarts, hends⟩ := @carets_literalWalk src (m.leaf b) (m.contentOf b) none
    { out := ⟨[], []⟩, sourceStart := -1, sourceEnd := -1
      starts := List.replicate (m.leaf b).lineCount (-1)
      ends := List.replicate (m.leaf b).lineCount (-1)
      prefixes := List.replicate (m.leaf b).lineCount (-1) } [-1] [-1] tail hreplicate hreplicate rfl
    (by rw [hcount, List.length_singleton]; omega) fun i c hc => by
      rw [(record_of_body hm hb hfenced hbody hc).1,
        show (m.leaf b).firstLine = (m.blockFirstLine b : Int) from rfl, List.length_singleton]
      push_cast
      omega
  have hzero : ∀ x ∈ (m.contentOf b).map ContentView.start, (0 : Int) ≤ x := by
    intro x hx
    obtain ⟨c, hc, rfl⟩ := List.mem_map.1 hx
    obtain ⟨i, hi⟩ := List.getElem?_of_mem hc
    exact (Int.natCast_nonneg _).trans (record_of_body hm hb hfenced hbody hi).2.2.1
  have hrow : (m.leaf b).fenced = true := hfenced
  have hstarts' : (literalResult src (m.leaf b)).starts =
      -1 :: ((m.contentOf b).map ContentView.start ++ tail) := hstarts
  have hends' : (literalResult src (m.leaf b)).ends =
      -1 :: ((m.contentOf b).map ContentView.stop ++ tail) := hends
  refine ⟨tail, fun x hx => ?_, ?_, ?_, hcount⟩
  · rw [htail] at hx
    split at hx
    · rw [List.mem_singleton.1 hx]
      decide
    · cases hx
  · simp only [literalRow]
    rw [hstarts']
    exact literalLines_fenced hrow rfl hzero htail
  · simp only [literalRow]
    rw [hstarts', hends']
    exact literalLines_fenced hrow (by simp) hzero htail

theorem bodyless_literalRow (shells : List Shell) :
    (literalRow m src b (m.leaf b) shells).bodyless = (m.contentOf b).isEmpty := by
  obtain ⟨tail, htail, hstarts, -⟩ := carets_literalRow hm hb hfenced hbody shells
  have hrow : (literalRow m src b (m.leaf b) shells).fenced = true := hfenced
  rw [ProjectedRow.bodyless, hrow, Bool.true_and, hstarts]
  cases hcontent : m.contentOf b with
  | nil =>
    rw [List.map_nil, List.nil_append, List.isEmpty_nil, List.all_eq_true]
    exact List.forall_mem_cons.2 ⟨by decide, fun x hx => decide_eq_true (htail x hx)⟩
  | cons c content =>
    have hzero := (record_of_body hm hb hfenced hbody (i := 0) (c := c) (by rw [hcontent]; rfl)).2.2.1
    rw [List.isEmpty_cons, List.all_eq_false]
    refine ⟨c.start, List.mem_cons_of_mem _ List.mem_cons_self, ?_⟩
    rw [decide_eq_true_eq]
    omega

/-- What the row writes for the records of lines without columns of a tab. -/
theorem out_literalResult {c : ContentView} {rest : List ContentView}
    (hcontent : m.contentOf b = c :: rest)
    (hvirtual : ∀ c' ∈ c :: rest, c'.virtualSpaces = 0) :
    Laid src (lineBound src (m.blockFirstLine b + 1)) (c :: rest)
        ((c :: rest).map (codeLine src)) ∧
      (literalResult src (m.leaf b)).out =
        ⟨shown 0x0A ((c :: rest).map (codeLine src)), bodySegments Style.code 0 c rest⟩ := by
  obtain ⟨hkind, -, hcount⟩ := isLeaf_of_fenced hm hb hfenced hbody
  have hlaid := laid hm.table hcount fun i c hc =>
    have h := record_of_body hm hb hfenced hbody hc
    ⟨h.1, h.2.2.1, h.2.2.2.1, h.2.2.2.2⟩
  rw [hcontent] at hlaid
  refine ⟨hlaid, ?_⟩
  have hrecords : (m.leaf b).content = c :: rest := hcontent
  rw [literalResult, hrecords, out_literalWalk (if_pos hkind).symm hlaid hvirtual]
  rfl

/-- The source has a unit that the row shows where its line has it. -/
theorem sourceForDisplay_literalRow (shells : List Shell) {c : ContentView} {rest : List ContentView}
    (hcontent : m.contentOf b = c :: rest)
    (hvirtual : ∀ c' ∈ c :: rest, c'.virtualSpaces = 0) {k : Nat}
    (hk : k ≤ (shown 0x0A ((c :: rest).map (codeLine src))).length) :
    (literalRow m src b (m.leaf b) shells).sourceForDisplay (k : Nat) =
      ((lineBound src (m.blockFirstLine b + 1) +
        offset ((c :: rest).map (codeLine src)) k : Nat) : Int) := by
  obtain ⟨hlaid, hout⟩ := out_literalResult hm hb hfenced hbody hcontent hvirtual
  have htext : (literalRow m src b (m.leaf b) shells).text =
      shown 0x0A ((c :: rest).map (codeLine src)) := congrArg Out.text hout
  have hsegments : (literalRow m src b (m.leaf b) shells).segments =
      bodySegments Style.code 0 c rest := congrArg Out.segments hout
  by_cases hempty : bodySegments Style.code 0 c rest = []
  · -- One line without content: the row shows nothing, and starts where the line's content does.
    cases rest with
    | cons c' rest =>
      rw [bodySegments] at hempty
      exact absurd hempty (List.append_ne_nil_of_right_ne_nil _ (List.cons_ne_nil _ _))
    | nil =>
      have hfirst : c.start = ((lineBound src (m.blockFirstLine b + 1) +
          (codeLine src c).indent.length : Nat) : Int) := hlaid.1.1
      have hnothing : (codeLine src c).content.length = 0 := by
        have := (@literalContent_eq src Style.code _ _ _ _ _ hlaid ⟨[], []⟩).2
        rw [bodySegments, contentSegment] at hempty
        split at hempty
        · cases hempty
        · omega
      have hsourceStart : (literalRow m src b (m.leaf b) shells).sourceStart = c.start := by
        have hrecords : (m.leaf b).content = [c] := hcontent
        have hwalk : (literalResult src (m.leaf b)).sourceStart = c.start := by
          simp only [literalResult, hrecords, literalWalk, literalStep]
          rfl
        simp only [literalRow]
        rw [hwalk, if_neg (by omega)]
      rw [List.map_cons, List.map_nil, shown] at hk
      obtain rfl : k = 0 := by omega
      rw [ProjectedRow.sourceForDisplay, hsegments, hempty, List.getLast?_nil]
      dsimp only
      rw [bodyless_literalRow hm hb hfenced hbody, hcontent, List.isEmpty_cons,
        if_neg (by decide), hsourceStart, hfirst, List.map_cons, offset, if_pos (Nat.zero_le _)]
      rfl
  -- Else the segment that shows the unit says where the source has it.
  · refine ProjectedRow.sourceForDisplay_eq (Int.natCast_nonneg _) ?_ ?_
    · rw [htext]
      exact Int.ofNat_le.2 hk
    · have hsource := @sourceIn_body src Style.code _ 0 _ _ _ _ _ hlaid hk none hempty
      rw [Nat.zero_add] at hsource
      rw [hsegments, hsource, List.map_cons]

/-- The row of a fenced block with a body line that shows no columns of a tab. -/
theorem codeRow_literalRow (hsrc : NoBareReturn src) (hne : m.contentOf b ≠ [])
    (shells : List Shell) (hexact : ∀ s ∈ (literalRow m src b (m.leaf b) shells).segments,
      s.exact = true ∨ s.lineBreak = true) :
    CodeRow m src (literalRow m src b (m.leaf b) shells) (lineBound src (m.blockFirstLine b + 1))
      (m.contentOf b) ((m.contentOf b).map (codeLine src)) := by
  obtain ⟨-, -, hcount⟩ := isLeaf_of_fenced hm hb hfenced hbody
  have hrecord : ∀ i c, (m.contentOf b)[i]? = some c → _ := fun i c hc =>
    record_of_body hm hb hfenced hbody hc
  obtain ⟨c, rest, hcontent⟩ := List.exists_cons_of_ne_nil hne
  have hrecords : (m.leaf b).content = c :: rest := hcontent
  have hvirtual := virtualSpaces_eq_zero hexact
  rw [hrecords] at hvirtual
  -- What the walk over the records shows is the lines of the body, one for each record.
  obtain ⟨hlaid, hout⟩ := out_literalResult hm hb hfenced hbody hcontent hvirtual
  have htext : (literalRow m src b (m.leaf b) shells).text =
      shown 0x0A ((c :: rest).map (codeLine src)) := congrArg Out.text hout
  rw [hcontent] at hrecord ⊢
  refine
    { fenced := hfenced
      ne_nil := List.cons_ne_nil _ _
      laid := hlaid
      text := htext
      source := fun k hk =>
        sourceForDisplay_literalRow hm hb hfenced hbody shells hcontent hvirtual (htext ▸ hk)
      exact := hexact
      carets := hcontent ▸ carets_literalRow hm hb hfenced hbody shells
      line := fun i c' hc' => ?_
      indent := fun i c' l hc' hl => ?_
      broken := broken_codeLines hm.table hsrc (hcontent ▸ hcount) fun i c' hc' =>
        ⟨(hrecord i c' hc').1, (hrecord i c' hc').2.2.2.2⟩
      plain := fun l hl => ?_ }
  · obtain ⟨hl, hlt, hstart, -, hstop⟩ := hrecord i c' hc'
    refine ⟨hl, fun x hx hx' => ?_⟩
    rw [hm.table.lineAt_eq hlt (hstart.trans hx) (hstop ▸ hx'), hl]
  · obtain ⟨hline, hlt, -⟩ := hrecord i c' hc'
    rw [List.getElem?_map, hc'] at hl
    cases hl
    rw [codeLine, hline, Int.toNat_natCast, hm.table.starts _ hlt]
  · obtain ⟨c', hc', rfl⟩ := List.mem_map.1 hl
    obtain ⟨i, hi⟩ := List.getElem?_of_mem hc'
    obtain ⟨hline, hlt, hstart, hle, hstop⟩ := hrecord i c' hi
    exact plain_codeLine hm.table hsrc hlt hline hstart hle hstop

end

end

theorem CodeRow.congr {m : RenderModel} {src : Text} {row row' : ProjectedRow} {base : Nat}
    {content : List ContentView} {lines : List (Line UInt16)} (h : row.content = row'.content)
    (hr : CodeRow m src row base content lines) : CodeRow m src row' base content lines := by
  cases row
  cases row'
  simp only [ProjectedRow.content, ProjectedRow.mk.injEq, true_and] at h
  obtain ⟨rfl, rfl, rfl, rfl, rfl, rfl, rfl, rfl, rfl, rfl, rfl, rfl, rfl, rfl, rfl, rfl, rfl, rfl, rfl,
    rfl, rfl⟩ := h
  exact ⟨hr.fenced, hr.ne_nil, hr.laid, hr.text, hr.source, hr.exact, hr.carets, hr.line, hr.indent,
    hr.broken, hr.plain⟩

/-- A fenced row is that of a fenced block. -/
theorem Built.fenced_row {gs : Graphemes} {p : Projection} (h : Built gs p) {row : ProjectedRow}
    (hrow : row ∈ p.rows) (hfenced : row.fenced = true) :
    ∃ b < p.model.blockCount, p.model.blockFenced b = true ∧ ∃ shells,
      (literalRow p.model p.source b (p.model.leaf b) shells).content = row.content := by
  have hall : ∀ r ∈ buildRows gs p.model p.source p.options fun _ => none, r.fenced = true →
      ∃ b < p.model.blockCount, p.model.blockFenced b = true ∧ ∃ shells,
        (literalRow p.model p.source b (p.model.leaf b) shells).content = r.content := by
    refine forall_buildRows (fun d => nofun) (fun b hb _ => ?_) (fun b _ _ => nofun)
      (fun b _ r _ hr => ?_) fun l _ => ?_
    · rw [RenderModel.freshRow]
      split
      · intro hrow
        simp only [inlineRow] at hrow
        split at hrow <;> cases hrow
      · exact fun hrow => ⟨b, hb, hrow, _, rfl⟩
    · intro hcell
      simp only [RenderModel.delimiterRow] at hr
      split at hr
      · cases hr
        cases hcell
      · split at hr
        · cases hr
          cases hcell
        · cases hr
    · intro hblank
      simp only [RenderModel.blankRow] at hblank
      split at hblank <;> cases hblank
  refine h.forall_rows (fun r r' hsame hr hfenced => ?_) hall row hrow hfenced
  obtain ⟨b, hb, hblock, shells, heq⟩ := hr ((congrArg ProjectedRow.fenced hsame).trans hfenced)
  exact ⟨b, hb, hblock, shells, heq.trans hsame⟩

/-- Each fenced row of a projection that shows a line and no columns of a tab. -/
theorem Built.codeRow {gs : Graphemes} {p : Projection} (h : Built gs p)
    (hm : p.model.SchemaConforms p.source) (hsrc : NoBareReturn p.source)
    (hbody : ∀ b < p.model.blockCount, p.model.blockFenced b = true →
      p.model.BodyConforms p.source b)
    {row : ProjectedRow} (hrow : row ∈ p.rows) (hfenced : row.fenced = true)
    (hbodyless : row.bodyless = false)
    (hexact : ∀ s ∈ row.segments, s.exact = true ∨ s.lineBreak = true) :
    CodeRow p.model p.source row (lineBound p.source (row.firstLine + 1))
      (p.model.contentOf row.block.toNat)
      ((p.model.contentOf row.block.toNat).map (codeLine p.source)) := by
  obtain ⟨b, hb, hblock, shells, heq⟩ := h.fenced_row hrow hfenced
  have hb' : row.block.toNat = b := by
    rw [← show (literalRow p.model p.source b (p.model.leaf b) shells).content.block = row.block by
      rw [heq]; rfl]
    rfl
  have hfirst : p.model.blockFirstLine b = row.firstLine := congrArg ProjectedRow.firstLine heq
  have hne : p.model.contentOf b ≠ [] := by
    intro hnil
    have hempty := bodyless_literalRow hm hb hblock (hbody b hb hblock) shells
    have hsame := congrArg ProjectedRow.bodyless heq
    rw [hnil] at hempty
    exact Bool.eq_false_iff.1 hbodyless (hsame.symm.trans hempty)
  have hcode := codeRow_literalRow hm hb hblock (hbody b hb hblock) hsrc hne shells fun s hs => by
    have hsegments := congrArg ProjectedRow.segments heq
    exact hexact s ((congrArg (s ∈ ·) hsegments).mp hs)
  rw [hb', ← hfirst]
  exact hcode.congr heq

end Flark
