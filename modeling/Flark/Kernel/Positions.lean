import Flark.Kernel.Caret
import Flark.Kernel.Shape

/-!
# Positions in a row

The two ways through the segments of a row, from display offsets to source offsets and back,
where every segment shows some source (`ProjectedRow.Chained`). Both walk the segments in order;
what they find at an offset is decided by the segment that has it and by whether the next one
touches it.

* `displayIn_append`, `sourceIn_append`: the segments before do not matter;
* `display_source_round_trip`: both ways lose nothing, where a caret of one side or the other
  is meant.
-/

namespace Flark

/-- The segments of a row that shows some source with each: contiguous in display, in order and
    apart in source. Between two of them there may be hidden source. -/
structure ProjectedRow.Chained (row : ProjectedRow) : Prop where
  display : ∃ a b, Tiles a row.segments b ∧ b ≤ row.text.length
  source : row.segments.Pairwise fun s t => s.sourceEnd ≤ t.sourceStart
  shows : ∀ s ∈ row.segments, s.displayStart < s.displayEnd
  covers : ∀ s ∈ row.segments, s.sourceStart < s.sourceEnd
  exact : ∀ s ∈ row.segments, s.exact = true →
    s.sourceEnd - s.sourceStart = (s.displayEnd : Int) - s.displayStart

namespace ProjectedRow

/-! ## From source to display -/

/-- The segments that end before the one that has the offset do not matter. -/
theorem displayIn_append {before after : List Segment} {s : Segment} {x : Int}
    (hsource : (before ++ s :: after).Pairwise fun s t => s.sourceEnd ≤ t.sourceStart)
    (hcovers : ∀ t ∈ before ++ s :: after, t.sourceStart < t.sourceEnd) (hx : s.sourceStart ≤ x) :
    displayIn x (before ++ s :: after) = displayIn x (s :: after) := by
  induction before with
  | nil => rfl
  | cons p before ih =>
    obtain ⟨hp, hsource⟩ := List.pairwise_cons.1 hsource
    obtain ⟨hcover, hcovers⟩ := List.forall_mem_cons.1 hcovers
    have hps : p.sourceEnd ≤ s.sourceStart := hp s (by simp)
    rw [List.cons_append, displayIn, if_neg (by omega)]
    split
    · exact ih hsource hcovers
    next htouch =>
    rw [if_neg ?_]
    · exact ih hsource hcovers
    intro hle
    -- The offset is where the segment before ends, so that the next one starts there.
    refine htouch ⟨by omega, ?_⟩
    cases before with
    | nil => simp; omega
    | cons q before =>
      have hpq : p.sourceEnd ≤ q.sourceStart := hp q (by simp)
      have hqs : q.sourceEnd ≤ s.sourceStart := (List.pairwise_cons.1 hsource).1 s (by simp)
      have hq : q.sourceStart < q.sourceEnd := hcovers q (by simp)
      omega

/-- Where a segment shows an offset that it has, if the next one does not own it. -/
theorem displayIn_cons {s : Segment} {after : List Segment} {x : Int} (hstart : s.sourceStart ≤ x)
    (hstop : x ≤ s.sourceEnd)
    (happart : ¬(x = s.sourceEnd ∧ (after.head?.any fun next => next.sourceStart == x))) :
    displayIn x (s :: after) =
      if s.exact then some (s.displayStart + (x - s.sourceStart), false)
      else if x = s.sourceStart then some (s.displayStart, false)
      else if x = s.sourceEnd then some (s.displayEnd, false)
      else some (s.displayEnd, true) := by
  rw [displayIn, if_neg (by omega), if_neg happart, if_pos hstop]

/-! ## From display to source -/

/-- The segments that end before the display offset do not matter. -/
theorem sourceIn_append {before after : List Segment} {s : Segment} {anchor : Anchor} {d : Int}
    (hbefore : ∀ t ∈ before, (t.displayEnd : Int) < d) (previous : Option Segment) :
    ∃ previous', sourceIn anchor d previous (before ++ s :: after) =
      sourceIn anchor d previous' (s :: after) := by
  induction before generalizing previous with
  | nil => exact ⟨previous, rfl⟩
  | cons p before ih =>
    obtain ⟨hp, hbefore⟩ := List.forall_mem_cons.1 hbefore
    rw [List.cons_append, sourceIn, if_neg (by omega), if_neg (by omega)]
    exact ih hbefore (some p)

/-- At a boundary the anchor picks the side. -/
theorem sourceIn_boundary {before after : List Segment} {s t : Segment} {anchor : Anchor}
    (hbefore : ∀ p ∈ before, p.displayEnd < s.displayEnd) :
    sourceIn anchor s.displayEnd none (before ++ s :: t :: after) =
      some (if anchor = .before then s.sourceEnd else t.sourceStart) := by
  obtain ⟨previous, h⟩ := @sourceIn_append before (t :: after) s anchor
    s.displayEnd (fun p hp => Int.ofNat_lt.2 (hbefore p hp)) none
  rw [h, sourceIn, if_neg (by simp), if_pos rfl]
  cases anchor <;> simp [sourceBetween]

/-- Behind the start of a segment, but for a boundary, the segments before do not matter. -/
theorem sourceIn_within {before after : List Segment} {s : Segment} {anchor : Anchor} {d : Int}
    (hbefore : ∀ p ∈ before, (p.displayEnd : Int) < d) (hstart : s.displayStart < d)
    (hstop : d < s.displayEnd ∨ d = s.displayEnd ∧ after = []) :
    sourceIn anchor d none (before ++ s :: after) = some (sourceWithin anchor d none s) := by
  obtain ⟨previous, h⟩ := @sourceIn_append before after s anchor d hbefore none
  rw [h, sourceIn, if_pos hstop, sourceWithin, sourceWithin]
  have hne : d ≠ s.displayStart := by omega
  cases previous <;> simp [hne]

/-! ## Round trips -/

section

variable {row : ProjectedRow} (h : row.Chained)

include h

/-- Where the row shows a source offset that a segment has. -/
theorem displayForSource_eq {before after : List Segment} {s : Segment}
    (hrow : row.segments = before ++ s :: after) {x : Int} (hstart : s.sourceStart ≤ x)
    (hstop : x ≤ s.sourceEnd) :
    row.displayForSource x = (displayIn x (s :: after)).getD (row.text.length, false) := by
  have hsource := h.source
  have hcovers := h.covers
  rw [hrow] at hsource hcovers
  obtain ⟨last, hlast⟩ : ∃ last, row.segments.getLast? = some last :=
    Option.isSome_iff_exists.1 (by rw [hrow]; simp)
  have hle : x ≤ last.sourceEnd := by
    obtain ⟨init, hinit⟩ := List.getLast?_eq_some_iff.1 hlast
    rcases List.mem_append.1 (hinit ▸ hrow ▸ (by simp : s ∈ before ++ s :: after)) with hs | hs
    · have hpair := h.source
      rw [hinit] at hpair
      have := (List.pairwise_append.1 hpair).2.2 s hs last (List.mem_singleton_self _)
      have := h.covers last (List.mem_of_getLast? hlast)
      omega
    · rw [← List.mem_singleton.1 hs]
      exact hstop
  rw [displayForSource, hlast]
  dsimp only
  rw [hrow, displayIn_append hsource hcovers hstart, decide_eq_false (by omega)]

/-- Where a segment starts. -/
theorem displayForSource_start {s : Segment} (hs : s ∈ row.segments) :
    row.displayForSource s.sourceStart = ((s.displayStart : Int), false) := by
  obtain ⟨before, after, hrow⟩ := List.append_of_mem hs
  have hcover := h.covers s hs
  rw [displayForSource_eq h hrow le_rfl hcover.le,
    displayIn_cons le_rfl hcover.le fun hend => by omega]
  split <;> simp

/-- Where a segment ends; a segment that touches it shows its end as its own start. -/
theorem displayForSource_stop {s : Segment} (hs : s ∈ row.segments) :
    row.displayForSource s.sourceEnd = ((s.displayEnd : Int), false) := by
  obtain ⟨before, after, hrow⟩ := List.append_of_mem hs
  have hcover := h.covers s hs
  by_cases htouch : ∃ t rest, after = t :: rest ∧ t.sourceStart = s.sourceEnd
  · obtain ⟨t, rest, rfl, ht⟩ := htouch
    obtain ⟨a, b, htiles, -⟩ := h.display
    rw [hrow] at htiles
    obtain ⟨c, -, hshow⟩ := tiles_append.1 htiles
    rw [← ht, displayForSource_start h (by rw [hrow]; simp), hshow.2.2.1]
  · rw [displayForSource_eq h hrow hcover.le le_rfl, displayIn_cons hcover.le le_rfl ?_]
    · have hne : s.sourceEnd ≠ s.sourceStart := hcover.ne'
      rw [if_neg hne, if_pos rfl]
      split
      · next hexact =>
        have := h.exact s hs hexact
        rw [Option.getD_some]
        congr 1
        omega
      · rfl
    · rintro ⟨-, hnext⟩
      cases after with
      | nil => simp at hnext
      | cons t rest => exact htouch ⟨t, rest, rfl, by simpa using hnext⟩

/-- An offset strictly inside an exact segment. -/
theorem displayForSource_exact {s : Segment} (hs : s ∈ row.segments) (hexact : s.exact = true)
    {x : Int} (hstart : s.sourceStart < x) (hstop : x < s.sourceEnd) :
    row.displayForSource x = (s.displayStart + (x - s.sourceStart), false) := by
  obtain ⟨before, after, hrow⟩ := List.append_of_mem hs
  rw [displayForSource_eq h hrow hstart.le hstop.le,
    displayIn_cons hstart.le hstop.le fun hend => by omega, if_pos hexact]
  rfl

/-- The display ranges of the segments before one, and of that one. -/
theorem display_before {before after : List Segment} {s : Segment}
    (hrow : row.segments = before ++ s :: after) :
    (∀ p ∈ before, p.displayEnd ≤ s.displayStart) ∧ s.displayEnd ≤ row.text.length := by
  obtain ⟨a, b, htiles, hb⟩ := h.display
  have hstop := (htiles.bounds (hrow ▸ (by simp : s ∈ before ++ s :: after))).2.2
  rw [hrow] at htiles
  obtain ⟨c, hbefore, hs⟩ := tiles_append.1 htiles
  exact ⟨fun p hp => hs.1 ▸ (hbefore.bounds hp).2.2, hstop.trans hb⟩

omit h in
theorem sourceForDisplay_eq {anchor : Anchor} {d x : Int} (hd : 0 ≤ d)
    (hlen : d ≤ row.text.length) (hx : sourceIn anchor d none row.segments = some x) :
    row.sourceForDisplay d anchor = x := by
  rw [sourceForDisplay]
  cases hlast : row.segments.getLast? with
  | none =>
    rw [List.getLast?_eq_none_iff.1 hlast] at hx
    cases hx
  | some last =>
    dsimp only
    rw [min_eq_left hlen, max_eq_right hd, hx, Option.getD_some]

/-- Where the first segment starts. -/
theorem sourceForDisplay_first {s : Segment} {after : List Segment}
    (hrow : row.segments = s :: after) (anchor : Anchor) :
    row.sourceForDisplay s.displayStart anchor = s.sourceStart := by
  have hshow := h.shows s (hrow ▸ List.mem_cons_self)
  have hlen := (@display_before row h [] after s hrow).2
  refine sourceForDisplay_eq (by omega) (by omega) ?_
  rw [hrow, sourceIn, if_pos (Or.inl (by omega)), sourceWithin]
  simp

/-- Between two segments. -/
theorem sourceForDisplay_between {before after : List Segment} {s t : Segment}
    (hrow : row.segments = before ++ s :: t :: after) (anchor : Anchor) :
    row.sourceForDisplay s.displayEnd anchor =
      if anchor = .before then s.sourceEnd else t.sourceStart := by
  obtain ⟨hbefore, hlen⟩ := display_before h hrow
  have hshow := h.shows s (hrow ▸ (by simp : s ∈ before ++ s :: t :: after))
  refine sourceForDisplay_eq (by omega) (by omega) ?_
  rw [hrow]
  exact sourceIn_boundary fun p hp => (hbefore p hp).trans_lt hshow

/-- Where the last segment ends. -/
theorem sourceForDisplay_last {before : List Segment} {s : Segment}
    (hrow : row.segments = before ++ [s]) (anchor : Anchor) :
    row.sourceForDisplay s.displayEnd anchor = s.sourceEnd := by
  obtain ⟨hbefore, hlen⟩ := display_before h hrow
  have hs : s ∈ row.segments := hrow ▸ (by simp : s ∈ before ++ [s])
  have hshow := h.shows s hs
  refine sourceForDisplay_eq (by omega) (by omega) ?_
  rw [hrow, sourceIn_within (fun p hp => by have := hbefore p hp; omega) (by omega)
    (Or.inr ⟨rfl, rfl⟩), sourceWithin]
  have hne : (s.displayEnd : Int) ≠ s.displayStart := by omega
  simp only [Option.filter_none, if_neg hne, if_true]
  split
  · next hexact =>
    have := h.exact s hs hexact
    congr 1
    omega
  · rfl

/-- Strictly inside an exact segment. -/
theorem sourceForDisplay_exact {s : Segment} (hs : s ∈ row.segments) (hexact : s.exact = true)
    {d : Int} (hstart : s.displayStart < d) (hstop : d < s.displayEnd) (anchor : Anchor) :
    row.sourceForDisplay d anchor = s.sourceStart + (d - s.displayStart) := by
  obtain ⟨before, after, hrow⟩ := List.append_of_mem hs
  obtain ⟨hbefore, hlen⟩ := display_before h hrow
  refine sourceForDisplay_eq (by omega) (by omega) ?_
  rw [hrow, sourceIn_within (fun p hp => by have := hbefore p hp; omega) hstart (Or.inl hstop),
    sourceWithin]
  simp [hexact]

/-- A segment starts where the row does, or where the one before it ends. -/
theorem start_cases {s : Segment} (hs : s ∈ row.segments) :
    (∃ after, row.segments = s :: after) ∨
      ∃ before p after, row.segments = before ++ p :: s :: after ∧ p.displayEnd = s.displayStart := by
  obtain ⟨before, after, hrow⟩ := List.append_of_mem hs
  rcases List.eq_nil_or_concat before with rfl | ⟨init, p, rfl⟩
  · exact Or.inl ⟨after, hrow⟩
  · rw [List.concat_eq_append, List.append_assoc, List.singleton_append] at hrow
    obtain ⟨a, b, htiles, -⟩ := h.display
    rw [hrow] at htiles
    obtain ⟨c, -, hp⟩ := tiles_append.1 htiles
    exact Or.inr ⟨init, p, after, hrow, hp.2.2.1.symm⟩

/-- Between two segments either side shows at the boundary. -/
theorem display_between {before after : List Segment} {s t : Segment}
    (hrow : row.segments = before ++ s :: t :: after) (hst : s.displayEnd = t.displayStart)
    (anchor : Anchor) :
    row.displayForSource (row.sourceForDisplay s.displayEnd anchor) = ((s.displayEnd : Int), false) := by
  rw [sourceForDisplay_between h hrow]
  split
  · exact displayForSource_stop h (by rw [hrow]; simp)
  · rw [displayForSource_start h (by rw [hrow]; simp), hst]

end

/-- A display offset between segments, at an end of the row's text or in an exact segment. -/
def AtDisplay (row : ProjectedRow) (d : Int) : Prop :=
  ∃ s ∈ row.segments, d = s.displayStart ∨ d = s.displayEnd ∨
    s.exact = true ∧ s.displayStart < d ∧ d < s.displayEnd

/-- A source offset at an end of a segment or in an exact one. -/
def AtSource (row : ProjectedRow) (x : Int) : Prop :=
  ∃ s ∈ row.segments, x = s.sourceStart ∨ x = s.sourceEnd ∨
    s.exact = true ∧ s.sourceStart < x ∧ x < s.sourceEnd

/-- From a display offset to source and back nothing is lost, for both anchors; from a source
    offset to display and back nothing is lost, for one of them. -/
theorem display_source_round_trip {row : ProjectedRow} (h : row.Chained) :
    (∀ d, row.AtDisplay d → ∀ anchor,
      row.displayForSource (row.sourceForDisplay d anchor) = (d, false)) ∧
    ∀ x, row.AtSource x → ∃ anchor, row.sourceForDisplay (row.displayForSource x).1 anchor = x := by
  constructor
  -- At the start of a segment, at its end, or within an exact one.
  · rintro d ⟨s, hs, rfl | rfl | ⟨hexact, hstart, hstop⟩⟩ anchor
    · rcases start_cases h hs with ⟨after, hrow⟩ | ⟨before, p, after, hrow, hp⟩
      · rw [sourceForDisplay_first h hrow, displayForSource_start h hs]
      · rw [← hp]
        exact display_between h hrow hp anchor
    · obtain ⟨before, after, hrow⟩ := List.append_of_mem hs
      cases after with
      | nil => rw [sourceForDisplay_last h hrow, displayForSource_stop h hs]
      | cons t after =>
        obtain ⟨a, b, htiles, -⟩ := h.display
        rw [hrow] at htiles
        obtain ⟨c, -, hp⟩ := tiles_append.1 htiles
        exact display_between h hrow hp.2.2.1.symm anchor
    · have hlength := h.exact s hs hexact
      rw [sourceForDisplay_exact h hs hexact hstart hstop,
        displayForSource_exact h hs hexact (by omega) (by omega)]
      congr 1
      omega
  · rintro x ⟨s, hs, rfl | rfl | ⟨hexact, hstart, hstop⟩⟩
    · -- After the boundary, where there is a segment before.
      refine ⟨.after, ?_⟩
      rw [displayForSource_start h hs]
      rcases start_cases h hs with ⟨after, hrow⟩ | ⟨before, p, after, hrow, hp⟩
      · exact sourceForDisplay_first h hrow .after
      · rw [← hp, sourceForDisplay_between h hrow, if_neg (by decide)]
    · refine ⟨.before, ?_⟩
      rw [displayForSource_stop h hs]
      obtain ⟨before, after, hrow⟩ := List.append_of_mem hs
      cases after with
      | nil => exact sourceForDisplay_last h hrow .before
      | cons t after => rw [sourceForDisplay_between h hrow, if_pos rfl]
    · refine ⟨.after, ?_⟩
      have hlength := h.exact s hs hexact
      rw [displayForSource_exact h hs hexact hstart hstop,
        sourceForDisplay_exact h hs hexact (by omega) (by omega)]
      omega

/-- A row that shows the letter of an emphasis and the one behind it: the delimiters are hidden,
    before the one and between the two. -/
def emphasisRow : ProjectedRow where
  kind := .paragraph
  block := 1
  firstLine := 0
  lineCount := 1
  text := Text.ofString "ab"
  segments := [⟨0, 1, 1, 2, Style.emphasis, true, 0, false⟩, ⟨1, 2, 3, 4, 0, true, 1, false⟩]
  shells := []
  sourceStart := 0
  sourceEnd := 4
  contentStarts := [0]
  contentEnds := [4]
  prefixStarts := [0]

theorem display_source_round_trip_emphasis :
    emphasisRow.displayForSource (emphasisRow.sourceForDisplay 1 .before) = (1, false) ∧
      ∃ anchor, emphasisRow.sourceForDisplay (emphasisRow.displayForSource 3).1 anchor = 3 := by
  have h : emphasisRow.Chained := {
    display := ⟨0, 2, by simp [Tiles, emphasisRow], by decide⟩
    source := by decide
    shows := by decide
    covers := by decide
    exact := by decide }
  have hround := display_source_round_trip h
  exact ⟨hround.1 1 ⟨_, List.mem_cons_self, Or.inr (Or.inl rfl)⟩ .before,
    hround.2 3 ⟨⟨1, 2, 3, 4, 0, true, 1, false⟩, by decide, Or.inl rfl⟩⟩

end ProjectedRow

end Flark
