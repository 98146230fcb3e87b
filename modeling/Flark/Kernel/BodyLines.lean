import Flark.CodeMirror.Shift
import Flark.Kernel.CodeBody
import Flark.Kernel.Insertions
import Flark.Native.Columns

/-!
# Lines of fenced blocks

The records of the lines of a fenced block, and once more after edits that put white space where
lines begin.

* `BodyLine`: a record is on its line, and goes to the end of it;
* `BodyRead`: a record begins where the native side ends the prefix of its line;
* `Reread`: a record once more, after edits;
* `reread`: a line that is read once more is such a record, and begins where the white space is put
  if and only if the line has all of its prefix before.
-/

namespace Flark

open Edits Native

namespace CodeEditing

/-- A record of line `l`, which goes to the end of the line. -/
structure BodyLine (source : Text) (l : Nat) (c : ContentView) : Prop where
  start : (lineBound source l : Int) ≤ c.start
  le : c.start ≤ c.stop
  plain : ∀ i : Nat, lineBound source l ≤ i → (i : Int) < c.stop →
    source[i]? ≠ some 0x0A ∧ source[i]? ≠ some 0x0D
  ending : IsLineBreak (source.substring c.stop (lineBound source (l + 1))) ∨
    c.stop = lineBound source (l + 1) ∧ lineBound source (l + 1) = source.length

/-- A record begins where `code_block_lines` ends the prefix of its line, which has the prefixes of
    all containers if the record holds something. -/
def BodyRead (source : Text) (containers : List Container) (fenceOffset l : Nat) (c : ContentView) :
    Prop :=
  let line := source.substring (lineBound source l) c.stop
  c.start = lineBound source l + (ColCursor.read line containers fenceOffset).pos ∧
    (c.start ≠ c.stop → (ColCursor.prefixCursor line containers).isLazy = false)

instance (source : Text) (containers : List Container) (fenceOffset l : Nat) (c : ContentView) :
    Decidable (BodyRead source containers fenceOffset l c) :=
  inferInstanceAs (Decidable (_ ∧ _))

/-- A line has all of its prefix. -/
def LineHasPrefix (source : Text) (containers : List Container) (fenceOffset l : Nat)
    (c : ContentView) : Prop :=
  ColCursor.HasPrefix (source.substring (lineBound source l) c.stop) containers fenceOffset

instance (source : Text) (containers : List Container) (fenceOffset l : Nat) (c : ContentView) :
    Decidable (LineHasPrefix source containers fenceOffset l c) :=
  inferInstanceAs (Decidable (ColCursor.HasPrefix _ _ _))

/-- What edits put where a line begins. -/
def put (edits : List Edit) (c : ContentView) : Text :=
  (edits.filter (·.start = c.start)).flatMap Edit.text

/-- A line of a fenced block once more, after edits that put white space where lines begin. It ends
    where the edits move its end. It begins where the white space is put or, if that is all the
    white space that it begins with, up to its end: its prefix can have taken some of it in. -/
structure Reread (source : Text) (made : Edits) (c c' : ContentView) : Prop where
  stop : c'.stop = made.forward c.stop true
  start : made.forward c.start false ≤ c'.start ∧ c'.start ≤ made.forward c.start true
  taken : c'.start ≠ made.forward c.start false →
    codeLeadingWhitespace (source.substring c.start c.stop) = []

/-- The records of a fenced block. -/
theorem bodyLine_of_body {m : RenderModel} {source : Text} {b : Nat} (hm : m.SchemaConforms source)
    (hsrc : NoBareReturn source) (hb : b < m.blockCount) (hfenced : m.blockFenced b = true)
    (hbody : m.BodyConforms source b) {i : Nat} {c : ContentView}
    (hc : (m.contentOf b)[i]? = some c) : BodyLine source (m.blockFirstLine b + 1 + i) c := by
  obtain ⟨-, hlt, hstart, hle, hstop⟩ := record_of_body hm hb hfenced hbody hc
  obtain ⟨hplain, hending⟩ := line_ending hm.table hsrc hlt
  rw [← hstop] at hplain hending
  exact ⟨hstart, hle, hplain, hending⟩

section

variable {source : Text} {l : Nat} {c c' : ContentView} {a b : Int} {i : Nat} {u : UInt16}

theorem mem_substring (ha : a ≤ i) (hb : (i : Int) < b) (hu : source[i]? = some u) :
    u ∈ source.substring a b := by
  refine List.mem_of_getElem? (i := i - a.toNat) ?_
  rw [Text.substring, List.getElem?_take_of_lt (by omega), List.getElem?_drop, ← hu]
  congr 1
  omega

theorem head?_substring (hb : a < b) : (source.substring a b).head? = source[a.toNat]? := by
  rw [Text.substring, List.head?_take, if_neg (by omega), List.head?_drop]

theorem head_of_break {eol : Text} (h : IsLineBreak eol) :
    eol.head? = some 0x0A ∨ eol.head? = some 0x0D := by
  rcases h with rfl | rfl
  · exact .inl rfl
  · exact .inr rfl

namespace BodyLine

/-- A line of a body ends at its break, or at the end of the source. -/
theorem stop_cases (h : BodyLine source l c) :
    (c.stop < lineBound source (l + 1) ∧
        (source[c.stop.toNat]? = some 0x0A ∨ source[c.stop.toNat]? = some 0x0D)) ∨
      c.stop = lineBound source (l + 1) ∧ lineBound source (l + 1) = source.length := by
  refine h.ending.imp_left fun hbreak => ?_
  have hlt : c.stop < lineBound source (l + 1) := by
    by_contra hge
    rw [Text.substring, show (lineBound source (l + 1) - c.stop).toNat = 0 by omega,
      List.take_zero] at hbreak
    rcases hbreak with h | h <;> cases h
  rw [← head?_substring hlt]
  exact ⟨hlt, head_of_break hbreak⟩

/-- A line of a body ends on its line. -/
theorem stop_le (h : BodyLine source l c) : c.stop ≤ lineBound source (l + 1) := by
  rcases h.stop_cases with ⟨hlt, -⟩ | ⟨heq, -⟩
  · exact Int.le_of_lt hlt
  · exact Int.le_of_eq heq

end BodyLine

end

section

variable {source : Text} {made : Edits} {l : Nat} {c c' : ContentView}
  {containers : List Container} {fenceOffset : Nat}
  (hinsertions : Insertions made.list) (hfits : Fits source.length 0 made.list)
  (hwithin : WithinLines source made.list) (h : BodyLine source l c)
  (hlines : ∀ e ∈ made.list, e.start < lineBound source l ∨
    e.start = c.start ∧ c.start < c.stop ∨ (lineBound source (l + 1) : Int) ≤ e.start)

include hinsertions hfits hwithin h hlines

/-- Where the parts of a line are in the result. -/
theorem line_made :
    (made.forward c.start false = lineBound (made.apply source) l + (c.start - lineBound source l) ∧
      (made.apply source).substring (lineBound (made.apply source) l) (made.forward c.start false) =
        source.substring (lineBound source l) c.start) ∧
    (made.forward c.stop true =
        made.forward c.start false + (put made.list c).length + (c.stop - c.start) ∧
      (made.apply source).substring (made.forward c.start false) (made.forward c.stop true) =
        put made.list c ++ source.substring c.start c.stop) ∧
    (lineBound (made.apply source) (l + 1) : Int) =
        made.forward c.stop true + (lineBound source (l + 1) - c.stop) ∧
      (made.apply source).substring (made.forward c.stop true)
          (lineBound (made.apply source) (l + 1)) =
        source.substring c.stop (lineBound source (l + 1)) := by
  have hstart := h.start
  have hle := h.le
  have hstop := h.stop_le
  have hlength := lineBound_le_length source (l + 1)
  have hlt : ∀ e ∈ made.list, e.start < source.length := fun e he => by
    obtain ⟨-, -, u, hu, -⟩ := hwithin e he
    have := (List.getElem?_eq_some_iff.1 hu).1
    omega
  -- No text is put at the end of the line.
  have hend : ∀ e ∈ made.list, e.start < c.stop ∨ (lineBound source (l + 1) : Int) ≤ e.start :=
    fun e he => by
      rcases hlines e he with hb | ⟨heq, hb⟩ | hb <;> omega
  have hbehind : ∀ e ∈ made.list, e.start < c.start ∨ e.start = c.start ∧ c.start < c.stop ∨
      c.stop < e.start := fun e he => by
    have := hlt e he
    rcases hlines e he with hb | hb | hb
    · omega
    · exact .inr (.inl hb)
    · rcases h.stop_cases with ⟨hs, -⟩ | ⟨-, hs⟩ <;> omega
  have hsame : made.forward c.stop false = made.forward c.stop true := by
    have hnone : made.list.filter (·.start = c.stop) = [] := List.filter_eq_nil_iff.2 fun e he => by
      rw [decide_eq_true_eq]
      rcases hbehind e he with hb | hb | hb <;> omega
    have hadd := @forwardFrom_eq_add 0 made.list hinsertions c.stop
    rw [hnone] at hadd
    exact (hadd.trans (Int.add_zero _)).symm
  rw [lineBound_insertions hinsertions hfits hwithin, lineBound_insertions hinsertions hfits hwithin]
  obtain ⟨hbefore, hbefore'⟩ := @substring_before source 0 0 made.list hinsertions hfits
    (Int.le_refl 0) (lineBound source l) c.start (Int.natCast_nonneg _) hstart (by omega)
    fun e he => by rcases hlines e he with hb | hb | hb <;> omega
  obtain ⟨hput, hput'⟩ := @substring_insertions source 0 0 made.list hinsertions hfits
    (Int.le_refl 0) c.start c.stop (by omega) hle (by omega) hbehind
  obtain ⟨hrest, hrest'⟩ := @substring_before source 0 0 made.list hinsertions hfits
    (Int.le_refl 0) c.stop (lineBound source (l + 1)) (by omega) hstop (by omega) hend
  simp only [Int.add_zero, Int.sub_zero] at hbefore' hput' hrest'
  rw [← hsame]
  refine ⟨⟨hbefore, hbefore'⟩, ?_, hrest, hrest'⟩
  rw [hsame]
  exact ⟨hput, hput'⟩

/-- A line ends where the edits move its end. -/
theorem stop_reread (h' : BodyLine (made.apply source) l c') :
    c'.stop = made.forward c.stop true := by
  obtain ⟨⟨hfrom, hbefore⟩, ⟨hto, hput⟩, hbound, hrest⟩ :=
    line_made hinsertions hfits hwithin h hlines
  have hstart := h.start
  have hle := h.le
  have hstart' := h'.start
  have hle' := h'.le
  -- The units of the line are no line endings.
  have hplain (i : Nat) (hi : (lineBound (made.apply source) l : Int) ≤ i)
      (hi' : (i : Int) < made.forward c.stop true) (u : UInt16)
      (hu : (made.apply source)[i]? = some u) : u ≠ 0x0A ∧ u ≠ 0x0D := by
    have hsource {a b : Int} (ha : (lineBound source l : Int) ≤ a) (hb : b ≤ c.stop) :
        ∀ u ∈ source.substring a b, u ≠ 0x0A ∧ u ≠ 0x0D := fun u hu => by
      obtain ⟨k, hk⟩ := List.getElem?_of_mem hu
      have hlt := (List.getElem?_eq_some_iff.1 hk).1
      have hshort := Text.length_substring_le source a b
      rw [Text.substring, List.getElem?_take_of_lt (by omega), List.getElem?_drop] at hk
      obtain ⟨hlf, hcr⟩ := h.plain (a.toNat + k) (by omega) (by omega)
      rw [hk] at hlf hcr
      exact ⟨fun heq => hlf (congrArg some heq), fun heq => hcr (congrArg some heq)⟩
    rcases Int.lt_or_le i (made.forward c.start false) with hlt | hge
    · exact hsource (Int.le_refl _) hle u (hbefore ▸ mem_substring hi hlt hu)
    · rcases List.mem_append.1 (hput ▸ mem_substring hge hi' hu) with hmem | hmem
      · obtain ⟨e, he, hue⟩ := List.mem_flatMap.1 hmem
        exact (hwithin e (List.mem_filter.1 he).1).2.1 u hue
      · exact hsource hstart (Int.le_refl _) u hmem
  rcases Int.lt_trichotomy c'.stop (made.forward c.stop true) with hlt | heq | hgt
  · -- The record would end before a unit that is no line ending.
    have hstop := h.stop_le
    rcases h'.stop_cases with ⟨-, hends⟩ | ⟨heq, -⟩
    · rcases hends with hu | hu
      · exact absurd rfl (hplain c'.stop.toNat (by omega) (by omega) _ hu).1
      · exact absurd rfl (hplain c'.stop.toNat (by omega) (by omega) _ hu).2
    · omega
  · exact heq
  · -- The record would go past a line ending.
    have hstop' := h'.stop_le
    rcases h.ending with hbreak | ⟨heq, -⟩
    · rw [← hrest] at hbreak
      have hhead := head_of_break hbreak
      rw [head?_substring (by omega)] at hhead
      obtain ⟨hlf, hcr⟩ := h'.plain (made.forward c.stop true).toNat (by omega) (by omega)
      exact (hhead.elim hlf hcr).elim
    · omega

/-- A line that is read once more. -/
theorem reread (h' : BodyLine (made.apply source) l c')
    (hblank : ∀ e ∈ made.list, ∀ u ∈ e.text, isSpaceOrTab u = true)
    (hread : BodyRead source containers fenceOffset l c)
    (hread' : BodyRead (made.apply source) containers fenceOffset l c') :
    Reread source made c c' ∧ (put made.list c ≠ [] →
      (c'.start = made.forward c.start false ↔ LineHasPrefix source containers fenceOffset l c)) := by
  obtain ⟨⟨hfrom, hbefore⟩, ⟨hto, hput⟩, -, -⟩ := line_made hinsertions hfits hwithin h hlines
  have hstop := stop_reread hinsertions hfits hwithin h hlines h'
  have hstart := h.start
  have hle := h.le
  have hshift : made.forward c.start true = made.forward c.start false + (put made.list c).length :=
    forwardFrom_eq_add hinsertions c.start
  have hstop' := h.stop_le
  have hlength := lineBound_le_length source (l + 1)
  obtain ⟨A, hA⟩ : ∃ A, A = source.substring (lineBound source l) c.start := ⟨_, rfl⟩
  have hlengthA : (A.length : Int) = c.start - lineBound source l := by
    rw [hA, Text.length_substring (Int.natCast_nonneg _) (by omega)]
    omega
  have hline : source.substring (lineBound source l) c.stop =
      A ++ source.substring c.start c.stop := by
    have hsplit := @Text.substring_split source (lineBound source l) c.start.toNat c.stop.toNat
      (by omega) (by omega)
    rwa [Int.toNat_of_nonneg (by omega), Int.toNat_of_nonneg (by omega), ← hA] at hsplit
  have hline' : (made.apply source).substring (lineBound (made.apply source) l) c'.stop =
      A ++ put made.list c ++ source.substring c.start c.stop := by
    have hsplit := @Text.substring_split (made.apply source) (lineBound (made.apply source) l)
      (made.forward c.start false).toNat (made.forward c.stop true).toNat (by omega) (by omega)
    rwa [Int.toNat_of_nonneg (by omega), Int.toNat_of_nonneg (by omega), hbefore, hput, ← hA,
      ← hstop, ← List.append_assoc] at hsplit
  obtain ⟨hpos, hlazy⟩ := hread
  obtain ⟨hpos', -⟩ := hread'
  rw [hline] at hpos hlazy
  rw [hline'] at hpos'
  have hread : (ColCursor.read (A ++ source.substring c.start c.stop) containers fenceOffset).pos =
      A.length := by
    omega
  by_cases hnone : put made.list c = []
  · rw [hnone, List.append_nil, hread] at hpos'
    rw [hnone, List.length_nil] at hshift
    exact ⟨⟨hstop, by omega, fun hne => absurd (by omega) hne⟩, fun hne => absurd hnone hne⟩
  -- The line holds something, as a text is put before it.
  have hlt : c.start < c.stop := by
    obtain ⟨u, hu⟩ := List.exists_mem_of_ne_nil _ hnone
    obtain ⟨e, he, -⟩ := List.mem_flatMap.1 hu
    obtain ⟨he, heq⟩ := List.mem_filter.1 he
    rw [decide_eq_true_eq] at heq
    obtain ⟨-, -, v, hv, -⟩ := hwithin e he
    have := (List.getElem?_eq_some_iff.1 hv).1
    rcases hlines e he with hb | hb | hb
    · omega
    · exact hb.2
    · rcases h.stop_cases with ⟨hs, -⟩ | ⟨-, hs⟩ <;> omega
  have hne : source.substring c.start c.stop ≠ [] := by
    rw [← List.length_pos_iff, Text.length_substring (by omega) (by omega)]
    omega
  have hblank' : ∀ u ∈ put made.list c, isSpaceOrTab u = true := fun u hu => by
    obtain ⟨e, he, hue⟩ := List.mem_flatMap.1 hu
    exact hblank e (List.mem_filter.1 he).1 u hue
  have hiff : LineHasPrefix source containers fenceOffset l c ↔
      ColCursor.HasPrefix (A ++ source.substring c.start c.stop) containers fenceOffset := by
    rw [LineHasPrefix, hline]
  rw [hiff]
  rcases ColCursor.read_insert hne hnone hblank' (hlazy (Int.ne_of_lt hlt)) hread with
    ⟨hhas, hagain⟩ | ⟨hlacks, hhead, hmore, hmost⟩
  · refine ⟨⟨hstop, by omega, fun hne => absurd (by omega) hne⟩, fun _ => iff_of_true (by omega) hhas⟩
  · refine ⟨⟨hstop, by omega, fun _ => ?_⟩, fun _ => iff_of_false (by omega) hlacks⟩
    rw [codeLeadingWhitespace]
    cases hcases : source.substring c.start c.stop with
    | nil => rfl
    | cons u rest =>
      rw [hcases, List.head?_cons, Option.any_some] at hhead
      exact List.takeWhile_cons_of_neg (Bool.eq_false_iff.1 hhead)

end

end CodeEditing

end Flark
