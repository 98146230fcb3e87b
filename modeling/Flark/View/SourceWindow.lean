import Flark.Kernel.CodeBody
import Flark.Kernel.Composition
import Flark.Kernel.SourceMode
import Flark.Lib.Tiling

/-!
# Source pages

A long source is shown by pages (`source_window.dart` of the Flutter host): the page around the
caret, and the starts of the pages next to it. One scan over the source cuts it where a page has
4096 units or 128 lines, and goes back to the start of a grapheme that would be cut.

* `Paging.step`, `SourceWindow.at_`: the scan, a unit at a time, and the page it gives;
* `Sized`: what a page keeps to;
* `Paging.Good`: what holds of the pages cut so far, kept by a step;
* `SourceWindow.at_spec`: the pages partition the source, and the caret is on the one given. A page
  has 128 line breaks at most where the scan comes to no high surrogate before a line feed;
* `SourceWindow.not_lines`: where it does, it takes the line feed for the other half.
-/

namespace Flark

/-! ## The scan -/

/-- The unit that the loop is at, with the number of line breaks so far: over a line break of two
    units and a code point of two. -/
def passUnit (source : Text) (i lines : Nat) : Nat × Nat :=
  let unit := source.codeUnitAt i
  if unit = 0x0D ∧ i + 1 < source.length ∧ source.codeUnitAt (i + 1 : Nat) = 0x0A then
    (i + 1, lines + 1)
  else if unit = 0x0A then (i, lines + 1)
  else if isHighSurrogate unit ∧ i + 1 < source.length then (i + 1, lines)
  else (i, lines)

/-- What the loop of `SourceWindow.at` holds: the unit it is at, where the page starts, the lines
    of it, and the starts of the pages. -/
structure Paging where
  i : Nat := 0
  from_ : Nat := 0
  lines : Nat := 0
  starts : List Nat := [0]
  deriving DecidableEq, Repr

section

variable (gs : Graphemes) (source : Text)

/-- Where the next page starts after the unit `i`: before a grapheme that started on the page. -/
def pageBreak (from_ i : Nat) : Nat :=
  match gs.rangeAt source (i + 1) with
  | some (before, _) => if from_ < before then before else i + 1
  | none => i + 1

/-- A turn of the loop. -/
def Paging.step (s : Paging) : Paging :=
  let (i, lines) := passUnit source s.i s.lines
  if (4096 ≤ i + 1 - s.from_ ∨ 128 ≤ lines) ∧ i + 1 < source.length then
    let from_ := pageBreak gs source s.from_ i
    { i := from_, from_ := from_, lines := 0, starts := s.starts ++ [from_] }
  else { s with i := i + 1, lines := lines }

/-- The loop, for a number of turns. -/
def Paging.run : (turns : Nat) → Paging → Option Paging
  | 0, _ => none
  | turns + 1, s => if s.i < source.length then Paging.run turns (s.step gs source) else some s

end

/-- `SourceWindow`. -/
structure SourceWindow where
  start : Nat
  stop : Nat
  index : Nat
  starts : List Nat
  length : Nat
  deriving DecidableEq, Repr

namespace SourceWindow

variable (w : SourceWindow)

/-- `previous`. -/
def previous : Option Nat := if 0 < w.index then w.starts[w.index - 1]? else none

/-- `next`. -/
def next : Option Nat := w.starts[w.index + 1]?

/-- The loop over the starts of the pages, from the page it is at on. -/
def pageIndex (caret : Nat) : List Nat → Nat
  | _ :: b :: starts => if b ≤ caret then pageIndex caret (b :: starts) + 1 else 0
  | _ => 0

/-- `SourceWindow.at`, with a number of turns for the scan; `none` where they do not do. -/
def at_ (gs : Graphemes) (turns : Nat) (source : Text) (caret : Nat) : Option SourceWindow :=
  (Paging.run gs source turns {}).map fun s =>
    let index := pageIndex caret s.starts
    { start := s.starts.getD index 0
      stop := if index + 1 < s.starts.length then s.starts.getD (index + 1) 0 else source.length
      index := index
      starts := s.starts
      length := source.length }

end SourceWindow

/-! ## Pages -/

/-- The pages that start at given places, the last one up to `stop`. -/
def pages (stop : Nat) : (starts : List Nat) → List (Nat × Nat)
  | [] => []
  | [a] => [(a, stop)]
  | a :: b :: starts => (a, b) :: pages stop (b :: starts)

theorem pages_concat (a b c : Nat) (starts : List Nat) :
    pages c (starts ++ [a, b]) = pages b (starts ++ [a]) ++ [(b, c)] := by
  induction starts with
  | nil => rfl
  | cons d starts ih =>
    cases starts with
    | nil => rfl
    | cons e starts => exact congrArg ((d, e) :: ·) ih

theorem map_fst_pages (stop : Nat) (starts : List Nat) :
    (pages stop starts).map Prod.fst = starts := by
  induction starts with
  | nil => rfl
  | cons a starts ih =>
    cases starts with
    | nil => rfl
    | cons b starts => exact congrArg (a :: ·) ih

/-- The line breaks of a page: a carriage return counts with the line feed behind it. -/
def lineBreaks (source : Text) (page : Nat × Nat) : Nat :=
  (source.substring page.1 page.2).count 0x0A

/-- An offset is between the units of a line break. -/
def Text.SplitsBreak (t : Text) (i : Nat) : Prop :=
  0 < i ∧ t.codeUnitAt (i - 1 : Nat) = 0x0D ∧ t.codeUnitAt i = 0x0A

/-- A page: no larger than a page may be, and up to a place where no grapheme that began on it goes
    on, and no line break or code point. -/
structure Sized (gs : Graphemes) (source : Text) (page : Nat × Nat) : Prop where
  size : page.2 - page.1 ≤ 4097
  grapheme : ∀ s ∈ gs.rangeAt source page.2, s.1 ≤ page.1
  lineBreak : ¬source.SplitsBreak page.2
  codePoint : source.WellFormed → ¬source.Splits page.2

/-- A line break is a grapheme of its own, as `package:characters` has it. -/
def Graphemes.BreaksAlone (gs : Graphemes) (t : Text) : Prop :=
  ∀ i, t.SplitsBreak i → ∃ stop, gs.rangeAt t i = some (i - 1, stop)

/-- The scan comes to a high surrogate before a line feed, and takes that for its other half. -/
def Paging.Hides (source : Text) (s : Paging) : Prop :=
  isHighSurrogate (source.codeUnitAt s.i) = true ∧ source.codeUnitAt (s.i + 1 : Nat) = 0x0A

/-! ## A unit -/

section

variable {source : Text} {i j n lines : Nat}

theorem lineBreaks_add {a b c : Nat} (hab : a ≤ b) (hbc : b ≤ c) :
    lineBreaks source (a, c) = lineBreaks source (a, b) + lineBreaks source (b, c) := by
  rw [lineBreaks, lineBreaks, lineBreaks, Text.substring_split hab hbc, List.count_append]

theorem lineBreaks_one (hi : i < source.length) :
    lineBreaks source (i, i + 1) = if source.codeUnitAt i = 0x0A then 1 else 0 := by
  have hunit : source[i]? = some (source.codeUnitAt i) := by
    rw [Text.codeUnitAt, Int.toNat_natCast, List.getD_eq_getElem _ _ hi,
      List.getElem?_eq_getElem hi]
  rw [lineBreaks, Text.substring_one hunit, List.count_singleton]
  exact if_congr beq_iff_eq rfl rfl

/-- What the loop goes over: one unit or two, and a line break at most; it counts that, but behind
    a high surrogate. It does not stop in a line break, or in a code point of a text of such. -/
theorem passUnit_spec (hi : i < source.length) (h : passUnit source i lines = (j, n)) :
    i ≤ j ∧ j ≤ i + 1 ∧ j < source.length ∧ n ≤ lines + 1 ∧
      (¬(isHighSurrogate (source.codeUnitAt i) = true ∧ source.codeUnitAt (i + 1 : Nat) = 0x0A) →
        n = lines + lineBreaks source (i, j + 1)) ∧
      (source.SplitsBreak (j + 1) → i < j) ∧
      (source.WellFormed → ¬source.Splits (j + 1)) := by
  have hone := lineBreaks_one hi
  have htwo (hlt : i + 1 < source.length) : lineBreaks source (i, i + 1 + 1) =
      lineBreaks source (i, i + 1) + if source.codeUnitAt (i + 1 : Nat) = 0x0A then 1 else 0 := by
    rw [lineBreaks_add (Nat.le_succ i) (Nat.le_succ _), lineBreaks_one hlt]
  rw [passUnit] at h
  -- A line break of two units, a line feed, a high surrogate with what is behind it, and any other
  -- unit.
  split at h
  · next hbreak =>
    obtain ⟨rfl, rfl⟩ := Prod.mk.inj h
    obtain ⟨hreturn, hlt, hfeed⟩ := hbreak
    refine ⟨Nat.le_succ i, le_rfl, hlt, le_rfl, fun _ => ?_, fun _ => Nat.lt_succ_self i,
      fun _ hsplits => ?_⟩
    · rw [htwo hlt, hone, hreturn, hfeed]
      rfl
    · have := hsplits.2.1
      rw [Nat.add_sub_cancel, hfeed] at this
      exact absurd this (by decide)
  next hbreak =>
  split at h
  · next hfeed =>
    obtain ⟨rfl, rfl⟩ := Prod.mk.inj h
    refine ⟨le_rfl, Nat.le_succ i, hi, le_rfl, fun _ => ?_, fun hsplits => ?_, fun _ hsplits => ?_⟩
    · rw [hone, if_pos hfeed]
    · have := hsplits.2.1
      rw [Nat.add_sub_cancel, hfeed] at this
      exact absurd this (by decide)
    · have := hsplits.2.1
      rw [Nat.add_sub_cancel, hfeed] at this
      exact absurd this (by decide)
  next hfeed =>
  split at h
  · next hhigh =>
    obtain ⟨rfl, rfl⟩ := Prod.mk.inj h
    refine ⟨Nat.le_succ i, le_rfl, hhigh.2, Nat.le_succ _, fun hhides => ?_,
      fun _ => Nat.lt_succ_self i, fun hwell hsplits => ?_⟩
    · rw [htwo hhigh.2, hone, if_neg hfeed, if_neg fun h => hhides ⟨hhigh.1, h⟩]
      rfl
    · -- The other half of a code point does not begin another one.
      have hlow := (hwell.2 i).symm.trans hhigh.1
      exact Bool.eq_false_iff.1 (not_high_of_low hlow) hsplits.2.1
  next hhigh =>
  obtain ⟨rfl, rfl⟩ := Prod.mk.inj h
  refine ⟨le_rfl, Nat.le_succ i, hi, Nat.le_succ _, fun _ => ?_, fun hsplits => ?_,
    fun _ hsplits => ?_⟩
  · rw [hone, if_neg hfeed]
    rfl
  · have hlt : i + 1 < source.length := by
      have hunit := (codeUnitAt_eq_iff (by decide)).1 hsplits.2.2
      exact (List.getElem?_eq_some_iff.1 hunit).1
    exact absurd ⟨hsplits.2.1, hlt, hsplits.2.2⟩ hbreak
  · have hlt : i + 1 < source.length := by
      by_contra hge
      have hlow := hsplits.2.2
      rw [Text.codeUnitAt, Int.toNat_natCast, List.getD_eq_default _ _ (not_lt.1 hge)] at hlow
      exact absurd hlow (by decide)
    exact hhigh ⟨hsplits.2.1, hlt⟩

end

/-! ## A step -/

section

variable {gs : Graphemes} {source : Text} (hbreaks : gs.BreaksAlone source)
  (hpairs : gs.KeepsPairs source) {from_ i j : Nat}

theorem rangeAt_of_splits (hpairs : gs.KeepsPairs source) {k : Nat} (h : source.Splits k) :
    gs.rangeAt source k ≠ none := by
  obtain ⟨hpos, hhigh, hlow⟩ := h
  have hunit {i : Nat} (hne : source.codeUnitAt i ≠ 0) :
      source[i]? = some (source.codeUnitAt i) := (codeUnitAt_eq_iff hne).1 rfl
  have hu : source[k - 1]? = some (source.codeUnitAt (k - 1 : Nat)) :=
    hunit fun h => absurd hhigh (by rw [h]; decide)
  have hv : source[k - 1 + 1]? = some (source.codeUnitAt k) := by
    rw [Nat.sub_add_cancel hpos]
    exact hunit fun h => absurd hlow (by rw [h]; decide)
  have hle : k ≤ source.length := by
    have := (List.getElem?_eq_some_iff.1 hv).1
    omega
  rw [Ne, gs.rangeAt_eq_none hle]
  have := hpairs (k - 1) _ _ hu hv (Or.inr ⟨hhigh, hlow⟩)
  rwa [Nat.sub_add_cancel hpos] at this

include hbreaks hpairs

/-- Where a page is cut behind the unit `j`, to which the loop went from `i`. -/
theorem pageBreak_spec {n lines : Nat} (hfrom : from_ ≤ i) (hi : i < source.length)
    (hunit : passUnit source i lines = (j, n)) :
    from_ < pageBreak gs source from_ j ∧ pageBreak gs source from_ j ≤ j + 1 ∧
      (∀ s ∈ gs.rangeAt source (pageBreak gs source from_ j), s.1 ≤ from_) ∧
      ¬source.SplitsBreak (pageBreak gs source from_ j) ∧
      (source.WellFormed → ¬source.Splits (pageBreak gs source from_ j)) := by
  obtain ⟨hij, -, -, -, -, hsplits, hwell⟩ := passUnit_spec hi hunit
  rw [pageBreak]
  split
  · next before stop hrange =>
    obtain ⟨hmem, hlt, -⟩ := gs.rangeAt_eq_some.1 hrange
    dsimp only at hlt
    split
    · next hmoves =>
      -- Nothing goes on at the start of a grapheme.
      have hbound := (Graphemes.mem_boundaries_of_mem_spans hmem).1
      have hnone := (gs.rangeAt_eq_none (gs.le_length_of_mem_boundaries hbound)).2 hbound
      refine ⟨hmoves, hlt.le, fun s hs => ?_, fun hbreak => ?_, fun _ hpair => ?_⟩
      · rw [hnone] at hs
        cases hs
      · obtain ⟨_, hsome⟩ := hbreaks _ hbreak
        rw [hnone] at hsome
        cases hsome
      · exact rangeAt_of_splits hpairs hpair hnone
    · next hstays =>
      refine ⟨by omega, le_rfl, fun s hs => ?_, fun hbreak => ?_, hwell⟩
      · rw [hrange, Option.mem_some_iff] at hs
        exact hs ▸ not_lt.1 hstays
      · obtain ⟨_, hsome⟩ := hbreaks _ hbreak
        obtain ⟨rfl, -⟩ := Prod.mk.inj (Option.some.inj (hrange.symm.trans hsome))
        have := hsplits hbreak
        omega
  · next hrange =>
    refine ⟨by omega, le_rfl, fun s hs => ?_, fun hbreak => ?_, hwell⟩
    · rw [hrange] at hs
      cases hs
    · obtain ⟨_, hsome⟩ := hbreaks _ hbreak
      rw [hrange] at hsome
      cases hsome

end

namespace Paging

variable {gs : Graphemes} {source : Text} {honest : Prop} {s : Paging}

/-- The pages cut so far lie end to end up to the one that the loop is on, and keep to what a page
    keeps to; that one has not yet all that it may have. The lines are counted where the run is
    `honest`. -/
structure Good (gs : Graphemes) (source : Text) (honest : Prop) (s : Paging) : Prop where
  starts : ∃ closed init, s.starts = init ++ [s.from_] ∧
    (∀ stop, pages stop s.starts = closed ++ [(s.from_, stop)]) ∧
    Tiling.Tiles Prod.fst Prod.snd 0 closed s.from_ ∧
    ∀ page ∈ closed, Sized gs source page ∧ (honest → lineBreaks source page ≤ 128)
  le : s.from_ ≤ s.i
  within : s.i ≤ source.length
  starts_lt : s.from_ < source.length ∨ s.from_ = 0
  size : s.i - s.from_ ≤ 4097
  room : s.i < source.length → s.i - s.from_ < 4096 ∧ s.lines < 128
  lines_le : s.lines ≤ 128
  lines : honest → lineBreaks source (s.from_, s.i) = s.lines

theorem good_init : ({} : Paging).Good gs source honest where
  starts := ⟨[], [], rfl, fun _ => rfl, rfl, fun _ h => absurd h List.not_mem_nil⟩
  le := le_rfl
  within := Nat.zero_le _
  starts_lt := Or.inr rfl
  size := Nat.zero_le _
  room _ := by decide
  lines_le := by decide
  lines _ := by
    rw [lineBreaks, Text.substring]
    rfl

/-- How far the loop can still go: it goes on over the page, or on to another page. -/
def left (source : Text) (s : Paging) : Nat :=
  (source.length - s.from_) * (source.length + 1) + (source.length - s.i)

/-- A turn of the loop keeps to it, and gets on. -/
theorem Good.step (hbreaks : gs.BreaksAlone source) (hpairs : gs.KeepsPairs source)
    (h : s.Good gs source honest) (hi : s.i < source.length) (hhides : honest → ¬s.Hides source) :
    (s.step gs source).Good gs source honest ∧ (s.step gs source).left source < s.left source := by
  rcases hunit : passUnit source s.i s.lines with ⟨j, n⟩
  obtain ⟨hij, hji, hj, hn, hcount, -, -⟩ := passUnit_spec hi hunit
  have hroom := h.room hi
  have hle := h.le
  have hlines (hh : honest) : lineBreaks source (s.from_, j + 1) = n := by
    rw [lineBreaks_add hle (show s.i ≤ j + 1 by omega), h.lines hh, hcount (hhides hh)]
  rw [Paging.step, hunit]
  dsimp only
  split
  -- A page is cut: it is closed at the break found in front of it, and the scan goes back there.
  · next hcut =>
    obtain ⟨hlt, hbreak, hgrapheme, hline, hpoint⟩ :=
      pageBreak_spec hbreaks hpairs hle hi hunit
    generalize pageBreak gs source s.from_ j = b at hlt hbreak hgrapheme hline hpoint
    obtain ⟨closed, init, hstarts, hpages, htiles, hclosed⟩ := h.starts
    have hcounted (hh : honest) : lineBreaks source (s.from_, b) ≤ 128 := by
      have := @lineBreaks_add source s.from_ b (j + 1) hlt.le hbreak
      have := hlines hh
      omega
    refine ⟨⟨⟨closed ++ [(s.from_, b)], s.starts, rfl, fun stop => ?_, ?_, ?_⟩, le_rfl,
      by dsimp only; omega, Or.inl (by dsimp only; omega), ?_, fun _ => ?_, Nat.zero_le _,
      fun _ => ?_⟩, ?_⟩
    · dsimp only
      rw [hstarts, List.append_assoc, List.singleton_append, pages_concat, ← hstarts, hpages]
    · exact Tiling.Tiles.concat (x := (s.from_, b)) htiles hlt
    · intro page hpage
      rcases List.mem_append.1 hpage with hpage | hpage
      · exact hclosed page hpage
      · rw [List.mem_singleton.1 hpage]
        exact ⟨⟨by dsimp only; omega, hgrapheme, hline, hpoint⟩, hcounted⟩
    · dsimp only
      omega
    · dsimp only
      omega
    · dsimp only
      rw [lineBreaks, Text.substring, Int.sub_self]
      rfl
    · rw [left, left]
      dsimp only
      have := Nat.mul_le_mul_right (source.length + 1)
        (show source.length - b + 1 ≤ source.length - s.from_ by omega)
      rw [Nat.add_mul, Nat.one_mul] at this
      omega
  -- The page goes on, and what is counted on it with it.
  · next hgoes =>
    have hgoes' : j + 1 < source.length → j + 1 - s.from_ < 4096 ∧ n < 128 := fun hlt => by
      by_contra hnot
      exact hgoes ⟨by omega, hlt⟩
    refine ⟨⟨h.starts, by dsimp only; omega, hj, h.starts_lt, by dsimp only; omega, hgoes',
      by dsimp only; omega, hlines⟩, ?_⟩
    rw [left, left]
    dsimp only
    omega

/-! ## The run -/

/-- The states that the loop comes to. -/
inductive Comes (gs : Graphemes) (source : Text) : Paging → Prop
  | init : Comes gs source {}
  | step {s : Paging} (h : Comes gs source s) (hi : s.i < source.length) :
    Comes gs source (s.step gs source)

/-- The loop takes no line feed for the other half of a code point. -/
def Honest (gs : Graphemes) (source : Text) : Prop :=
  ∀ s, Comes gs source s → s.i < source.length → ¬s.Hides source

/-- With the turns for all that is left, the loop comes to the end of the source. -/
theorem Good.run (hbreaks : gs.BreaksAlone source) (hpairs : gs.KeepsPairs source) {turns : Nat}
    (h : s.Good gs source (Honest gs source)) (hcomes : Comes gs source s)
    (hturns : s.left source < turns) :
    ∃ s', Paging.run gs source turns s = some s' ∧ s'.Good gs source (Honest gs source) ∧
      s'.i = source.length := by
  induction turns generalizing s with
  | zero => exact absurd hturns (Nat.not_lt_zero _)
  | succ turns ih =>
    rw [Paging.run]
    split
    · next hi =>
      obtain ⟨hgood, hleft⟩ := h.step hbreaks hpairs hi fun honest => honest s hcomes hi
      exact ih hgood (hcomes.step hi) (by omega)
    · next hi => exact ⟨s, rfl, h, le_antisymm h.within (not_lt.1 hi)⟩

/-- The page that the source ends with. -/
theorem Good.last (h : s.Good gs source honest) (hi : s.i = source.length) :
    Sized gs source (s.from_, source.length) := by
  have hend : source.codeUnitAt source.length = 0 := by
    rw [Text.codeUnitAt, Int.toNat_natCast, List.getD_eq_default _ _ le_rfl]
  refine ⟨hi ▸ h.size, fun r hr => ?_, fun hbreak => ?_, fun _ hpair => ?_⟩
  · rw [(gs.rangeAt_eq_none le_rfl).2 Graphemes.length_mem_boundaries] at hr
    cases hr
  · have := hbreak.2.2
    rw [hend] at this
    exact absurd this (by decide)
  · have := hpair.2.2
    rw [hend] at this
    exact absurd this (by decide)

end Paging

/-! ## The window -/

namespace SourceWindow

/-- The pages partition the source. -/
structure Paged (gs : Graphemes) (source : Text) (w : SourceWindow) : Prop where
  first : w.starts.head? = some 0
  increase : w.starts.Pairwise (· < ·)
  below : source ≠ [] → ∀ a ∈ w.starts, a < source.length
  tiles : source ≠ [] →
    Tiling.Tiles Prod.fst Prod.snd 0 (pages source.length w.starts) source.length
  sized : ∀ page ∈ pages source.length w.starts, Sized gs source page

/-- The window is the page that the caret is on, with the pages beside it. -/
structure Shows (source : Text) (caret : Nat) (w : SourceWindow) : Prop where
  page : ∃ before after, w.starts = before ++ w.start :: after ∧ w.index = before.length ∧
    w.stop = after.head?.getD source.length ∧ w.previous = before.getLast? ∧ w.next = after.head?
  start_le : w.start ≤ caret
  lt_stop : caret < w.stop ∨ caret = source.length ∧ w.stop = source.length

/-- No page has more than 128 line breaks. -/
def LinesBounded (source : Text) (w : SourceWindow) : Prop :=
  ∀ page ∈ pages source.length w.starts, lineBreaks source page ≤ 128

instance (source : Text) (w : SourceWindow) : Decidable (w.LinesBounded source) :=
  inferInstanceAs (Decidable (∀ page ∈ _, _))

theorem pageIndex_spec {caret a : Nat} {starts : List Nat} (ha : a ∈ starts.head?)
    (hle : a ≤ caret) : ∃ before x after, starts = before ++ x :: after ∧
      pageIndex caret starts = before.length ∧ x ≤ caret ∧ ∀ b ∈ after.head?, caret < b := by
  induction starts generalizing a with
  | nil => cases ha
  | cons c starts ih =>
    obtain rfl : c = a := Option.some_inj.1 ha
    cases starts with
    | nil => exact ⟨[], c, [], rfl, rfl, hle, fun b hb => by cases hb⟩
    | cons b starts =>
      rw [pageIndex]
      split
      · next hb =>
        obtain ⟨before, x, after, heq, hindex, hx⟩ := ih rfl hb
        exact ⟨c :: before, x, after, congrArg (c :: ·) heq, congrArg (· + 1) hindex, hx⟩
      · next hb =>
        refine ⟨[], c, b :: starts, rfl, rfl, hle, fun d hd => ?_⟩
        rw [← Option.some_inj.1 hd]
        exact not_le.1 hb

variable {gs : Graphemes} {source : Text}

/-- The pages that a scan to the end of the source has cut. -/
theorem paged_of_good {honest : Prop} {s : Paging} (h : s.Good gs source honest)
    (hi : s.i = source.length) {w : SourceWindow} (hw : w.starts = s.starts) :
    w.Paged gs source ∧ (honest → w.LinesBounded source) := by
  obtain ⟨closed, init, hstarts, hpages, htiles, hclosed⟩ := h.starts
  have hpages := hw ▸ hpages source.length
  have hall (hne : source ≠ []) : Tiling.Tiles Prod.fst Prod.snd 0
      (pages source.length w.starts) source.length := by
    have := List.length_pos_iff.2 hne
    rw [hpages]
    refine Tiling.Tiles.concat (x := (s.from_, source.length)) htiles ?_
    rcases h.starts_lt with hlt | hzero
    · exact hlt
    · rwa [hzero]
  -- The last page is the one that the scan was on.
  have hfst := map_fst_pages source.length w.starts
  refine ⟨⟨?_, ?_, fun hne a ha => ?_, hall, fun page hpage => ?_⟩, fun hh page hpage => ?_⟩
  · rw [← hfst, hpages]
    cases closed with
    | nil => exact congrArg some (Eq.symm htiles)
    | cons page closed => exact congrArg some htiles.1
  · rw [← hfst, hpages]
    rw [List.map_append]
    refine List.pairwise_append.2 ⟨htiles.pairwise, List.pairwise_singleton _ _, ?_⟩
    intro a ha b hb
    obtain ⟨page, hpage, rfl⟩ := List.mem_map.1 ha
    rw [List.mem_singleton.1 hb]
    obtain ⟨-, hlt, hle⟩ := htiles.bounds hpage
    exact hlt.trans_le hle
  · rw [← hfst] at ha
    obtain ⟨page, hpage, rfl⟩ := List.mem_map.1 ha
    obtain ⟨-, hlt, hle⟩ := (hall hne).bounds hpage
    exact hlt.trans_le hle
  · rw [hpages] at hpage
    rcases List.mem_append.1 hpage with hpage | hpage
    · exact (hclosed page hpage).1
    · exact List.mem_singleton.1 hpage ▸ h.last hi
  · rw [hpages] at hpage
    rcases List.mem_append.1 hpage with hpage | hpage
    · exact (hclosed page hpage).2 hh
    · have hlines := h.lines hh
      rw [hi] at hlines
      rw [List.mem_singleton.1 hpage, hlines]
      exact h.lines_le

/-- The page at an index is the one that it stands for, and those beside it are its neighbours. -/
theorem shows_of_split {caret : Nat} {w : SourceWindow} {before after : List Nat} {x : Nat}
    (hstarts : w.starts = before ++ x :: after) (hindex : w.index = before.length)
    (hstart : w.start = w.starts.getD w.index 0)
    (hstop : w.stop = if w.index + 1 < w.starts.length then w.starts.getD (w.index + 1) 0
      else source.length) (hx : x ≤ caret) (hafter : ∀ b ∈ after.head?, caret < b)
    (hcaret : caret ≤ source.length) : w.Shows source caret := by
  have hat : w.starts[w.index]? = some x := by
    rw [hstarts, hindex, List.getElem?_append_right le_rfl, Nat.sub_self, List.getElem?_cons_zero]
  have hnext : w.starts[w.index + 1]? = after.head? := by
    rw [hstarts, hindex, List.getElem?_append_right (by omega),
      show before.length + 1 - before.length = 1 by omega, List.getElem?_cons_succ,
      List.head?_eq_getElem?]
  have hstart : w.start = x := by
    rw [hstart, List.getD_eq_getElem?_getD, hat, Option.getD_some]
  have hstop : w.stop = after.head?.getD source.length := by
    rw [hstop, List.getD_eq_getElem?_getD, hnext]
    cases after with
    | nil =>
      refine if_neg ?_
      rw [hstarts, hindex, List.length_append, List.length_singleton]
      omega
    | cons b after =>
      refine if_pos ?_
      rw [hstarts, hindex, List.length_append, List.length_cons, List.length_cons]
      omega
  refine ⟨⟨before, after, by rw [hstart, hstarts], hindex, hstop, ?_, hnext⟩, by omega, ?_⟩
  · rw [previous, hindex, hstarts]
    rcases List.eq_nil_or_concat' before with rfl | ⟨before, a, rfl⟩
    · rfl
    · rw [List.getLast?_concat, List.length_append, List.length_singleton, if_pos (by omega),
        Nat.add_sub_cancel, List.append_assoc, List.getElem?_append_right le_rfl, Nat.sub_self]
      rfl
  · rw [hstop]
    cases after with
    | nil => exact hcaret.lt_or_eq.imp_right fun h => ⟨h, rfl⟩
    | cons b after => exact Or.inl (hafter b rfl)

/-- The window of a caret in the source: the pages that the scan cuts partition the source, and the
    window is the page of the caret, with its neighbours. Where the scan takes no line feed for the
    other half of a code point, no page has more than 128 line breaks. -/
theorem at_spec (hbreaks : gs.BreaksAlone source) (hpairs : gs.KeepsPairs source) {caret : Nat}
    (hcaret : caret ≤ source.length) {turns : Nat}
    (hturns : (source.length + 1) * (source.length + 1) ≤ turns) :
    ∃ w, at_ gs turns source caret = some w ∧ w.length = source.length ∧ w.Paged gs source ∧
      w.Shows source caret ∧ (Paging.Honest gs source → w.LinesBounded source) := by
  have hleft : ({} : Paging).left source < turns := by
    rw [Nat.add_mul, Nat.one_mul] at hturns
    simp only [Paging.left, Nat.sub_zero]
    omega
  obtain ⟨s, hrun, hgood, hi⟩ := Paging.good_init.run hbreaks hpairs .init hleft
  obtain ⟨w, hw⟩ : ∃ w, at_ gs turns source caret = some w := ⟨_, by rw [at_, hrun]; rfl⟩
  refine ⟨w, hw, ?_⟩
  rw [at_, hrun] at hw
  have hw := Option.some_inj.1 hw
  obtain ⟨hpaged, hlines⟩ := paged_of_good hgood hi (w := w) (by rw [← hw])
  obtain ⟨before, x, after, hstarts, hindex, hx, hafter⟩ :=
    pageIndex_spec hpaged.first (Nat.zero_le caret)
  have hshows : w.Shows source caret := shows_of_split hstarts (by rw [← hindex, ← hw])
    (by rw [← hw]) (by rw [← hw]) hx hafter hcaret
  exact ⟨by rw [← hw], hpaged, hshows, hlines⟩

/-- A text of code points is scanned as such. -/
theorem honest_of_wellFormed (h : source.WellFormed) : Paging.Honest gs source := by
  rintro s - - ⟨hhigh, hfeed⟩
  have := (h.2 s.i).symm.trans hhigh
  rw [hfeed] at this
  exact absurd this (by decide)

/-- A text without carriage returns and low surrogates has no units that stand together. -/
theorem units_apart (h : ∀ u ∈ source, u ≠ 0x0D ∧ isLowSurrogate u = false) :
    Graphemes.units.BreaksAlone source ∧ Graphemes.units.KeepsPairs source := by
  refine ⟨fun i hbreak => ?_, fun i u v hu hv hpair => ?_⟩
  · have hreturn := List.mem_of_getElem? ((codeUnitAt_eq_iff (by decide)).1 hbreak.2.1)
    exact absurd rfl (h _ hreturn).1
  · rcases hpair with ⟨rfl, -⟩ | ⟨-, hlow⟩
    · exact absurd rfl (h _ (List.mem_of_getElem? hu)).1
    · rw [(h _ (List.mem_of_getElem? hv)).2] at hlow
      cases hlow

/-- Lines that hold nothing. -/
def feeds : Text := List.replicate 300 0x0A

/-- The window of a caret on the second of three pages. -/
theorem at_spec_lines : ∃ w, at_ .units 90601 feeds 200 = some w ∧
    w = ⟨128, 256, 1, [0, 128, 256], 300⟩ ∧ w.Shows feeds 200 ∧ w.LinesBounded feeds := by
  obtain ⟨hbreaks, hpairs⟩ := @units_apart feeds fun u hu => by
    rw [List.eq_of_mem_replicate hu]
    decide
  obtain ⟨w, hw, -, -, hshows, hlines⟩ :=
    at_spec hbreaks hpairs (show 200 ≤ feeds.length by decide +kernel)
      (show (feeds.length + 1) * (feeds.length + 1) ≤ 90601 by decide +kernel)
  have heq : at_ .units 90601 feeds 200 = some ⟨128, 256, 1, [0, 128, 256], 300⟩ := by
    decide +kernel
  exact ⟨w, hw, Option.some_inj.1 (hw.symm.trans heq), hshows,
    hlines (honest_of_wellFormed (Text.wellFormed_of_validate (by decide +kernel)))⟩

/-- High surrogates before line feeds. -/
def halves : Text := (List.replicate 129 [0xD800, 0x0A]).flatten

/-- The scan counts no line of them: all of it is one page, with more line breaks than a page
    has. -/
theorem not_lines : Graphemes.units.BreaksAlone halves ∧ Graphemes.units.KeepsPairs halves ∧
    ∃ w, at_ .units 67081 halves 0 = some w ∧ ¬w.LinesBounded halves := by
  obtain ⟨hbreaks, hpairs⟩ := @units_apart halves fun u hu => by
    obtain ⟨l, hl, hu⟩ := List.mem_flatten.1 hu
    rw [List.eq_of_mem_replicate hl] at hu
    rcases List.mem_pair.1 hu with rfl | rfl <;> decide
  exact ⟨hbreaks, hpairs, ⟨0, 258, 0, [0], 258⟩, by decide +kernel⟩

end SourceWindow

end Flark
