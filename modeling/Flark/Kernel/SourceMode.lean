import Flark.Kernel.Admission
import Flark.Kernel.CaretWalk

/-!
# The caret in source mode

The source shown as it is, where the caret's places are the grapheme boundaries
(`FlarkSourceSnapshot` of `kernel/snapshot.dart`), with the movements and deletions there
(`_moveSource` and `_sourceDelete` of `kernel/editor.dart`). The scan for a word works on code
units, and its end is made legal.

* `SourceSnapshot`: a source with a selection between boundaries;
* `SourceSnapshot.moveSource`, `SourceSnapshot.sourceDelete`: as the source has them;
* `legalSourceOffset_cases`: where an offset is made legal;
* `SourceSnapshot.further_legalize_wordEdge_iff`: when the edge of a word is made legal past the
  caret;
* `SourceSnapshot.exists_wordProgress`: movements and deletions by a word then make progress.
-/

namespace Flark

/-! ## Words -/

namespace Text

/-- The last unit of the first `n`. -/
theorem getLast?_take_of_le {t : Text} {n : Nat} (hn : n ≤ t.length) {u : UInt16}
    (h : (t.take n).getLast? = some u) : 0 < n ∧ t[n - 1]? = some u := by
  rw [List.getLast?_take] at h
  split at h
  · cases h
  next hne =>
  have hpos := Nat.pos_of_ne_zero hne
  rw [List.getElem?_eq_getElem (by omega), Option.some_or] at h
  exact ⟨hpos, h ▸ List.getElem?_eq_getElem (by omega)⟩

/-- A word, with the white space before it, has a unit of any text that is left. -/
theorem length_word_lt {t : Text} (ht : t ≠ []) :
    ((t.dropWhile isWordSpace).dropWhile fun u => !isWordSpace u).length < t.length := by
  obtain ⟨u, rest, rfl⟩ := List.exists_cons_of_ne_nil ht
  refine Nat.lt_succ_of_le ?_
  by_cases hu : isWordSpace u = true
  · rw [List.dropWhile_cons_of_pos hu]
    exact (List.dropWhile_suffix _).length_le.trans (List.dropWhile_suffix _).length_le
  · rw [List.dropWhile_cons_of_neg hu, List.dropWhile_cons_of_pos (by simp [hu])]
    exact (List.dropWhile_suffix _).length_le

/-- The end of a word is behind the offset, in the text. -/
theorem lt_wordEnd {t : Text} {c : Nat} (hc : c < t.length) :
    (c : Int) < t.wordEnd c ∧ t.wordEnd c ≤ t.length := by
  have hlt := @length_word_lt (t.drop c)
    (List.ne_nil_of_length_pos (by rw [List.length_drop]; omega))
  rw [List.length_drop] at hlt
  rw [wordEnd, Int.toNat_natCast]
  omega

/-- The start of a word is before the offset, in the text. -/
theorem wordStart_lt {t : Text} {c : Nat} (hpos : 0 < c) (hc : c ≤ t.length) :
    0 ≤ t.wordStart c ∧ t.wordStart c < c := by
  have hlength : (t.take c).reverse.length = c := by
    rw [List.length_reverse, List.length_take, Nat.min_eq_left hc]
  have hlt := @length_word_lt (t.take c).reverse (List.ne_nil_of_length_pos (by omega))
  rw [wordStart, Int.toNat_natCast]
  omega

end Text

/-! ## Boundaries -/

namespace Graphemes

theorem mem_ends_of_mem_spansFrom {start : Nat} {l : List Text} {s : Nat × Nat}
    (h : s ∈ spansFrom start l) : s.1 ∈ start :: ends start l ∧ s.2 ∈ start :: ends start l := by
  induction l generalizing start with
  | nil => cases h
  | cons g rest ih =>
    rw [ends]
    rcases List.mem_cons.1 h with rfl | h
    · exact ⟨List.mem_cons_self, List.mem_cons_of_mem _ List.mem_cons_self⟩
    · exact ⟨List.mem_cons_of_mem _ (ih h).1, List.mem_cons_of_mem _ (ih h).2⟩

/-- Between two places where pieces end there is a piece. -/
theorem exists_span_between {start a b : Nat} {l : List Text} (hne : ∀ g ∈ l, g ≠ [])
    (ha : a ∈ start :: ends start l) (hb : b ∈ start :: ends start l) (hlt : a < b) :
    ∃ s ∈ spansFrom start l, a ≤ s.1 ∧ s.1 < s.2 ∧ s.2 ≤ b := by
  induction l generalizing start with
  | nil =>
    rw [ends, List.mem_singleton] at ha hb
    omega
  | cons g rest ih =>
    obtain ⟨hg, hrest⟩ := List.forall_mem_cons.1 hne
    have hpos := List.length_pos_of_ne_nil hg
    rw [ends] at ha hb
    have hb : b ∈ (start + g.length) :: ends (start + g.length) rest := by
      rcases List.mem_cons.1 hb with rfl | hb
      · rcases List.mem_cons.1 ha with rfl | ha
        · exact absurd hlt (lt_irrefl a)
        · have := start_le_of_mem_ends (l := g :: rest) ha
          omega
      · exact hb
    rcases List.mem_cons.1 ha with rfl | ha
    · have hle : a + g.length ≤ b := by
        rcases List.mem_cons.1 hb with rfl | hb
        · exact le_rfl
        · exact start_le_of_mem_ends hb
      exact ⟨(a, a + g.length), List.mem_cons_self, le_rfl, Nat.lt_add_of_pos_right hpos, hle⟩
    · obtain ⟨s, hs, h⟩ := ih hrest ha hb
      exact ⟨s, List.mem_cons_of_mem _ hs, h⟩

variable {gs : Graphemes} {t : Text}

theorem zero_mem_boundaries : 0 ∈ gs.boundaries t := List.mem_cons_self

theorem length_mem_boundaries : t.length ∈ gs.boundaries t := by
  rw [← gs.rangeAt_eq_none le_rfl, Option.eq_none_iff_forall_not_mem]
  intro s hs
  obtain ⟨hmem, -, hlt⟩ := gs.rangeAt_eq_some.1 hs
  exact absurd (gs.stop_le_of_mem_spans hmem) (not_le.2 hlt)

/-- The ends of a grapheme are boundaries. -/
theorem mem_boundaries_of_mem_spans {s : Nat × Nat} (hs : s ∈ gs.spans t) :
    s.1 ∈ gs.boundaries t ∧ s.2 ∈ gs.boundaries t :=
  mem_ends_of_mem_spansFrom hs

/-- No boundary is strictly inside a grapheme. -/
theorem not_inside_of_mem_boundaries {c : Nat} {s : Nat × Nat} (hc : c ∈ gs.boundaries t)
    (hs : s ∈ gs.spans t) : c ≤ s.1 ∨ s.2 ≤ c := by
  by_contra h
  rw [not_or, not_le, not_le] at h
  have hnone := (gs.rangeAt_eq_none (gs.le_length_of_mem_boundaries hc)).2 hc
  rw [gs.rangeAt_eq_some.2 ⟨hs, h⟩] at hnone
  cases hnone

/-- Between two boundaries there is a whole grapheme. -/
theorem exists_grapheme_between {a b : Nat} (ha : a ∈ gs.boundaries t) (hb : b ∈ gs.boundaries t)
    (hlt : a < b) : ∃ s ∈ gs.spans t, a ≤ s.1 ∧ s.1 < s.2 ∧ s.2 ≤ b :=
  exists_span_between (gs.ne_nil t) ha hb hlt

/-- No boundary is between the two units of a line break or of one code point, as
    `package:characters` has it. -/
def KeepsPairs (gs : Graphemes) (t : Text) : Prop :=
  ∀ i u v, t[i]? = some u → t[i + 1]? = some v → IsPair u v → i + 1 ∉ gs.boundaries t

/-- A source that is admitted still is without what is between two boundaries. -/
theorem KeepsPairs.refusal_cut {a b limit : Nat} (hkeeps : gs.KeepsPairs t)
    (ha : a ∈ gs.boundaries t) (hb : b ∈ gs.boundaries t) (hle : a ≤ b)
    (h : flarkSourceRefusal t limit = none) :
    flarkSourceRefusal (t.replaceRange a b []) limit = none := by
  have hrest : (t.drop a).take (b - a) ++ t.drop b = t.drop a := by
    conv_rhs =>
      rw [← List.take_append_drop (b - a) (t.drop a), List.drop_drop, Nat.add_sub_cancel' hle]
  have hsplit {n : Nat} (hn : n ∈ gs.boundaries t) {u v : UInt16} (hu : t[n - 1]? = some u)
      (hv : t[n]? = some v) (hpos : 0 < n) : ¬IsPair u v := fun hpair =>
    hkeeps (n - 1) u v hu (by rwa [Nat.sub_add_cancel hpos]) hpair
      (by rwa [Nat.sub_add_cancel hpos])
  rw [Text.replaceRange, List.append_nil]
  refine @flarkSourceRefusal_cut _ ((t.drop a).take (b - a)) _ _ ?_ (fun u v hu hv => ?_)
    fun u v hu hv => ?_
  · rwa [hrest, List.take_append_drop]
  · rw [hrest, List.head?_drop] at hv
    obtain ⟨hpos, hu⟩ := Text.getLast?_take_of_le (gs.le_length_of_mem_boundaries ha) hu
    exact hsplit ha hu hv hpos
  · rw [List.head?_drop] at hv
    have hb' := gs.le_length_of_mem_boundaries hb
    obtain ⟨hpos, hu⟩ := Text.getLast?_take_of_le (by rw [List.length_drop]; omega) hu
    rw [List.getElem?_drop, show a + (b - a - 1) = b - 1 by omega] at hu
    exact hsplit hb hu hv (by omega)

end Graphemes

/-! ## Legal offsets -/

/-- `_legalSourceOffset`. -/
def legalSourceOffset (gs : Graphemes) (source : Text) (offset : Int) : Int :=
  let target := max 0 (min offset source.length)
  if target = 0 ∨ target = source.length then target
  else
    match gs.rangeAt source target.toNat with
    | none => target
    | some (before, after) => if (after : Int) - target < target - before then after else before

section

variable {gs : Graphemes} {source : Text}

/-- A boundary is legal. -/
theorem legalSourceOffset_of_mem {b : Nat} (hb : b ∈ gs.boundaries source) :
    legalSourceOffset gs source b = b := by
  have hle := gs.le_length_of_mem_boundaries hb
  have htarget : max 0 (min (b : Int) source.length) = b := by omega
  rw [legalSourceOffset]
  rw [htarget, Int.toNat_natCast, (gs.rangeAt_eq_none hle).2 hb, ite_self]

/-- Where an offset of the source is made legal: where it is if that is a boundary, else at the
    end of its grapheme that is nearer, the earlier one of two at one distance. -/
theorem legalSourceOffset_cases {o : Nat} (ho : o ≤ source.length) :
    o ∈ gs.boundaries source ∧ legalSourceOffset gs source o = o ∨
      ∃ s ∈ gs.spans source, s.1 < o ∧ o < s.2 ∧
        legalSourceOffset gs source o = if s.2 - o < o - s.1 then s.2 else s.1 := by
  by_cases hmem : o ∈ gs.boundaries source
  · exact Or.inl ⟨hmem, legalSourceOffset_of_mem hmem⟩
  · right
    obtain ⟨s, hs⟩ : ∃ s, gs.rangeAt source o = some s :=
      Option.ne_none_iff_exists'.1 fun h => hmem ((gs.rangeAt_eq_none ho).1 h)
    obtain ⟨hspan, hlt, hlt'⟩ := gs.rangeAt_eq_some.1 hs
    have hzero : o ≠ 0 := fun h => hmem (h ▸ Graphemes.zero_mem_boundaries)
    have hlength : o ≠ source.length := fun h => hmem (h ▸ Graphemes.length_mem_boundaries)
    have htarget : max 0 (min (o : Int) source.length) = o := by omega
    refine ⟨s, hspan, hlt, hlt', ?_⟩
    rw [legalSourceOffset]
    rw [htarget, if_neg (by omega), Int.toNat_natCast, hs]
    dsimp only
    split_ifs <;> omega

/-- An offset is made legal at a boundary. -/
theorem legalSourceOffset_boundary (gs : Graphemes) (source : Text) (offset : Int) :
    ∃ b ∈ gs.boundaries source, legalSourceOffset gs source offset = b := by
  obtain ⟨o, ho, heq⟩ : ∃ o : Nat, o ≤ source.length ∧
      legalSourceOffset gs source offset = legalSourceOffset gs source o := by
    refine ⟨(max 0 (min offset source.length)).toNat, by omega, ?_⟩
    have htarget : max 0 (min ((max 0 (min offset source.length)).toNat : Int) source.length) =
        max 0 (min offset source.length) := by omega
    rw [legalSourceOffset, legalSourceOffset]
    rw [htarget]
  rcases legalSourceOffset_cases ho with ⟨hmem, h⟩ | ⟨s, hs, -, -, h⟩
  · exact ⟨o, hmem, heq.trans h⟩
  · obtain ⟨hfirst, hlast⟩ := Graphemes.mem_boundaries_of_mem_spans hs
    rw [heq, h]
    split_ifs
    · exact ⟨s.2, hlast, rfl⟩
    · exact ⟨s.1, hfirst, rfl⟩

theorem legalSourceOffset_idem (gs : Graphemes) (source : Text) (offset : Int) :
    legalSourceOffset gs source (legalSourceOffset gs source offset) =
      legalSourceOffset gs source offset := by
  obtain ⟨b, hb, heq⟩ := legalSourceOffset_boundary gs source offset
  rw [heq, legalSourceOffset_of_mem hb]

end

/-! ## Snapshots -/

/-- `FlarkSourceSnapshot`: the ends of the selection are legal. -/
structure SourceSnapshot (gs : Graphemes) where
  source : Text
  selection : Selection
  base_legal : legalSourceOffset gs source selection.base = selection.base
  extent_legal : legalSourceOffset gs source selection.extent = selection.extent
  deriving DecidableEq

/-- What a deletion asks to commit. -/
structure SourceCommit where
  source : Text
  selection : Selection
  coalesce : Bool
  deriving DecidableEq

namespace SourceSnapshot

variable {gs : Graphemes} (s : SourceSnapshot gs)

/-- The snapshot that the factory makes. -/
def of (gs : Graphemes) (source : Text) (selection : Selection) : SourceSnapshot gs where
  source := source
  selection :=
    ⟨legalSourceOffset gs source selection.base, legalSourceOffset gs source selection.extent, none⟩
  base_legal := legalSourceOffset_idem gs source selection.base
  extent_legal := legalSourceOffset_idem gs source selection.extent

/-- `_withSelection`. -/
def withSelection (selection : Selection) : SourceSnapshot gs := .of gs s.source selection

/-- `_legalize`. -/
def legalize (offset : Int) : Int := legalSourceOffset gs s.source offset

/-- `_previousGraphemeBoundary`: the start of the grapheme before. -/
def previousGraphemeBoundary (offset : Int) : Int :=
  let target := s.legalize offset
  if target = 0 then 0
  else ((gs.spans s.source).find? fun g => decide ((g.2 : Int) = target)).elim target fun g => g.1

/-- `_nextGraphemeBoundary`: the end of the grapheme behind. -/
def nextGraphemeBoundary (offset : Int) : Int :=
  let target := s.legalize offset
  if target = s.source.length then target
  else ((gs.spans s.source).find? fun g => decide ((g.1 : Int) = target)).elim target fun g => g.2

/-- `_sourceLineStart`. -/
def sourceLineStart (offset : Int) : Int :=
  if offset ≤ 0 then 0
  else offset - ((s.source.take offset.toNat).reverse.takeWhile (· != 0x0A)).length

/-- `_sourceLineEnd`. -/
def sourceLineEnd (offset : Int) : Int :=
  let stop := offset + ((s.source.drop offset.toNat).takeWhile (· != 0x0A)).length
  if 0 < stop ∧ s.source.codeUnitAt (stop - 1) = 0x0D then stop - 1 else stop

/-- `_selectSource`: the snapshot, and whether its selection changed. -/
def selectSource (selection : Selection) : SourceSnapshot gs × Bool :=
  let next := s.withSelection selection
  if next.selection = s.selection then (s, false) else (next, true)

/-- The offset that a movement by a unit goes to. -/
def moveTarget (current : Int) (forward : Bool) : MoveUnit → Int
  | .grapheme =>
    if forward then s.nextGraphemeBoundary current else s.previousGraphemeBoundary current
  | .word => s.legalize (if forward then s.source.wordEnd current else s.source.wordStart current)
  | .line => if forward then s.sourceLineEnd current else s.sourceLineStart current
  | .row => current

/-- `_moveSource`: the snapshot, and whether its selection changed. -/
def moveSource (forward : Bool) (unit : MoveUnit) (extend : Bool) : SourceSnapshot gs × Bool :=
  if unit = .row then (s, false)
  else
    let sel := s.selection
    let target :=
      if !extend && !sel.isCollapsed && decide (unit = .grapheme) then
        if forward then sel.stop else sel.start
      else s.moveTarget sel.extent forward unit
    s.selectSource (if extend then ⟨sel.base, target, none⟩ else .collapsed target)

/-- The range that a deletion takes. -/
def deletedRange (backward word : Bool) : Int × Int :=
  let sel := s.selection
  if !sel.isCollapsed then (sel.start, sel.stop)
  else if backward then
    (if word then s.legalize (s.source.wordStart sel.extent)
      else s.previousGraphemeBoundary sel.extent, sel.stop)
  else
    (sel.start, if word then s.legalize (s.source.wordEnd sel.extent)
      else s.nextGraphemeBoundary sel.extent)

/-- `_sourceDelete`: what is committed, if anything. -/
def sourceDelete (backward word : Bool) : Option SourceCommit :=
  let (first, last) := s.deletedRange backward word
  if first = last then none
  else some {
    source := s.source.replaceRange first.toNat last.toNat []
    selection := .collapsed first
    coalesce := s.selection.isCollapsed && !word }

end SourceSnapshot

/-! ## The edge of a word -/

section

variable {gs : Graphemes} {source : Text}

/-- An offset behind a boundary is made legal behind it, but where it is in the grapheme that starts
    there and no farther from that start than from the end. -/
theorem lt_legalSourceOffset_iff {c w : Nat} (hc : c ∈ gs.boundaries source)
    (hw : w ≤ source.length) (hlt : c < w) : (c : Int) < legalSourceOffset gs source w ↔
      ¬∃ g ∈ gs.spans source, g.1 = c ∧ w < g.2 ∧ w - c ≤ g.2 - w := by
  rcases @legalSourceOffset_cases gs source w hw with ⟨hmem, h⟩ | ⟨g, hg, hstart, hstop, h⟩
  · refine iff_of_true (by omega) ?_
    rintro ⟨g, hg, hstart, hstop, -⟩
    have := Graphemes.not_inside_of_mem_boundaries hmem hg
    omega
  · have hle := Graphemes.not_inside_of_mem_boundaries hc hg
    have honly : ∀ g' ∈ gs.spans source, g'.1 = c → w < g'.2 → g' = g :=
      fun g' hg' hstart' hstop' => Option.some_inj.1
        ((gs.rangeAt_eq_some.2 ⟨hg', by omega, hstop'⟩).symm.trans
          (gs.rangeAt_eq_some.2 ⟨hg, hstart, hstop⟩))
    constructor
    · rintro hfurther ⟨g', hg', hstart', hstop', hnear⟩
      obtain rfl := honly g' hg' hstart' hstop'
      rw [h, if_neg (by omega)] at hfurther
      omega
    · intro hnone
      by_cases hat : g.1 = c
      · have hfar : ¬w - c ≤ g.2 - w := fun hnear => hnone ⟨g, hg, hat, hstop, hnear⟩
        rw [h, if_pos (by omega)]
        omega
      · rw [h]
        split_ifs <;> omega

/-- An offset before a boundary is made legal before it, but where it is in the grapheme that ends
    there and nearer to that end than to the start. -/
theorem legalSourceOffset_lt_iff {c w : Nat} (hc : c ∈ gs.boundaries source) (hw : w < c) :
    legalSourceOffset gs source w < c ↔
      ¬∃ g ∈ gs.spans source, g.2 = c ∧ g.1 < w ∧ c - w < w - g.1 := by
  have hle := gs.le_length_of_mem_boundaries hc
  rcases @legalSourceOffset_cases gs source w (hw.le.trans hle) with
    ⟨hmem, h⟩ | ⟨g, hg, hstart, hstop, h⟩
  · refine iff_of_true (by omega) ?_
    rintro ⟨g, hg, hstop, hstart, -⟩
    have := Graphemes.not_inside_of_mem_boundaries hmem hg
    omega
  · have hle := Graphemes.not_inside_of_mem_boundaries hc hg
    have honly : ∀ g' ∈ gs.spans source, g'.2 = c → g'.1 < w → g' = g :=
      fun g' hg' hstop' hstart' => Option.some_inj.1
        ((gs.rangeAt_eq_some.2 ⟨hg', hstart', by omega⟩).symm.trans
          (gs.rangeAt_eq_some.2 ⟨hg, hstart, hstop⟩))
    constructor
    · rintro hfurther ⟨g', hg', hstop', hstart', hnear⟩
      obtain rfl := honly g' hg' hstop' hstart'
      rw [h, if_pos (by omega)] at hfurther
      omega
    · intro hnone
      by_cases hat : g.2 = c
      · have hfar : ¬c - w < w - g.1 := fun hnear => hnone ⟨g, hg, hat, hstart, hnear⟩
        rw [h, if_neg (by omega)]
        omega
      · rw [h]
        split_ifs <;> omega

end

namespace SourceSnapshot

variable {gs : Graphemes} (s : SourceSnapshot gs)

/-- The edge of the word at an offset. -/
def wordEdge (forward : Bool) (c : Int) : Int :=
  if forward then s.source.wordEnd c else s.source.wordStart c

/-- The word's edge is inside the grapheme at the caret and made legal at the caret again: the end
    of that grapheme nearer to the edge, or its start where both are at one distance. -/
def EdgeFallsBack (forward : Bool) (c : Nat) : Prop :=
  ∃ g ∈ gs.spans s.source,
    if forward then
      g.1 = c ∧ s.wordEdge true c < g.2 ∧ s.wordEdge true c - c ≤ g.2 - s.wordEdge true c
    else g.2 = c ∧ g.1 < s.wordEdge false c ∧ c - s.wordEdge false c < s.wordEdge false c - g.1

instance (forward : Bool) (c : Nat) : Decidable (s.EdgeFallsBack forward c) := by
  delta EdgeFallsBack
  infer_instance

/-- The caret is not the end of the source in a direction. -/
def HasAhead (forward : Bool) (c : Nat) : Prop := if forward then c < s.source.length else 0 < c

instance (forward : Bool) (c : Nat) : Decidable (s.HasAhead forward c) := by
  delta HasAhead
  infer_instance

variable {s}

/-- The edge of a word is an offset further on. -/
theorem wordEdge_eq {forward : Bool} {c : Nat} (hc : c ∈ gs.boundaries s.source)
    (h : s.HasAhead forward c) : ∃ w : Nat, s.wordEdge forward c = w ∧ w ≤ s.source.length ∧
      Document.Further forward c w := by
  cases forward with
  | true =>
    obtain ⟨hlt, hle⟩ := @Text.lt_wordEnd s.source c h
    obtain ⟨w, hw⟩ := Int.eq_ofNat_of_zero_le (by omega : 0 ≤ s.source.wordEnd c)
    exact ⟨w, hw, by omega, show (c : Int) < w by omega⟩
  | false =>
    have hle := gs.le_length_of_mem_boundaries hc
    obtain ⟨hge, hlt⟩ := @Text.wordStart_lt s.source c h hle
    obtain ⟨w, hw⟩ := Int.eq_ofNat_of_zero_le hge
    exact ⟨w, hw, by omega, show (w : Int) < c by omega⟩

/-- The edge of a word is made legal further on exactly where it does not fall back. -/
theorem further_legalize_wordEdge_iff {forward : Bool} {c : Nat} (hc : c ∈ gs.boundaries s.source)
    (h : s.HasAhead forward c) :
    Document.Further forward c (s.legalize (s.wordEdge forward c)) ↔
      ¬s.EdgeFallsBack forward c := by
  obtain ⟨w, hw, hle, hfurther⟩ := wordEdge_eq hc h
  rw [legalize, hw, EdgeFallsBack]
  cases forward with
  | true =>
    have hlt : c < w := Int.ofNat_lt.1 hfurther
    refine (lt_legalSourceOffset_iff hc hle hlt).trans (not_congr (exists_congr fun g => ?_))
    simp only [if_true, hw]
    exact and_congr_right fun _ => by omega
  | false =>
    have hlt : w < c := Int.ofNat_lt.1 hfurther
    refine (legalSourceOffset_lt_iff hc hlt).trans (not_congr (exists_congr fun g => ?_))
    simp only [Bool.false_eq_true, if_false, hw]
    exact and_congr_right fun _ => by omega

/-! ## Progress -/

theorem selectSource_selection (selection : Selection) :
    (s.selectSource selection).1.selection = (s.withSelection selection).selection := by
  rw [selectSource]
  split
  · next h => exact h.symm
  · rfl

/-- From the caret to an offset further on by a word: a movement takes the caret there, and a
    deletion asks for the source without what is between, at least one whole grapheme. The editor
    admits that source if it admits this one. -/
structure WordProgress (s : SourceSnapshot gs) (forward : Bool) (c b : Nat) : Prop where
  boundary : b ∈ gs.boundaries s.source
  further : Document.Further forward c b
  moves : ∀ extend, (s.moveSource forward .word extend).1.selection =
    if extend then ⟨c, b, none⟩ else .collapsed b
  deletes : s.sourceDelete (!forward) true = some
    ⟨s.source.replaceRange (min c b) (max c b) [], .collapsed (min c b : Nat), false⟩
  grapheme : ∃ g ∈ gs.spans s.source, min c b ≤ g.1 ∧ g.1 < g.2 ∧ g.2 ≤ max c b
  admitted : gs.KeepsPairs s.source → ∀ limit, flarkSourceRefusal s.source limit = none →
    flarkSourceRefusal (s.source.replaceRange (min c b) (max c b) []) limit = none

/-- A word forward or backward makes progress where its edge does not fall back. -/
theorem exists_wordProgress {forward : Bool} {c : Nat} (hcaret : s.selection = .collapsed c)
    (h : s.HasAhead forward c) (hedge : ¬s.EdgeFallsBack forward c) :
    ∃ b, s.WordProgress forward c b := by
  have hc : c ∈ gs.boundaries s.source := by
    obtain ⟨b, hb, heq⟩ := legalSourceOffset_boundary gs s.source s.selection.extent
    rw [s.extent_legal, hcaret] at heq
    exact Int.ofNat_inj.1 heq ▸ hb
  obtain ⟨b, hb, heq⟩ := legalSourceOffset_boundary gs s.source (s.wordEdge forward c)
  have hfurther : Document.Further forward c b :=
    heq ▸ (further_legalize_wordEdge_iff hc h).2 hedge
  -- The edge of the word is not the caret, so that there is a grapheme between them to delete.
  have hlt : min c b < max c b := by
    rw [min_lt_max]
    rintro rfl
    cases forward <;> exact lt_irrefl (c : Int) hfurther
  have hmin : min c b ∈ gs.boundaries s.source := by rcases min_choice c b with h | h <;> rwa [h]
  have hmax : max c b ∈ gs.boundaries s.source := by rcases max_choice c b with h | h <;> rwa [h]
  refine ⟨b, hb, hfurther, fun extend => ?_, ?_, ?_, fun hkeeps limit hadmits =>
    hkeeps.refusal_cut hmin hmax min_le_max hadmits⟩
  · have htarget : s.moveTarget c forward .word = b := by
      rw [moveTarget, ← wordEdge, legalize, heq]
    rw [moveSource, if_neg (by decide), selectSource_selection]
    simp only [hcaret, Selection.collapsed, Selection.isCollapsed, decide_false, Bool.and_false,
      htarget, Bool.false_eq_true, if_false, reduceCtorEq]
    cases extend
    · simp [withSelection, of, legalSourceOffset_of_mem hb]
    · simp [withSelection, of, legalSourceOffset_of_mem hb, legalSourceOffset_of_mem hc]
  · have hrange : s.deletedRange (!forward) true =
        (((min c b : Nat) : Int), ((max c b : Nat) : Int)) := by
      rw [deletedRange, hcaret]
      cases forward with
      | true =>
        have hle : c ≤ b := (Int.ofNat_lt.1 hfurther).le
        simp [Selection.collapsed, Selection.isCollapsed, Selection.start, hle, ← heq, legalize,
          wordEdge]
      | false =>
        have hle : b ≤ c := (Int.ofNat_lt.1 hfurther).le
        simp [Selection.collapsed, Selection.isCollapsed, Selection.stop, hle, ← heq, legalize,
          wordEdge]
    rw [sourceDelete, hrange]
    simp only [Int.ofNat_inj, if_neg hlt.ne, Int.toNat_natCast, Bool.not_true, Bool.and_false]
  · exact Graphemes.exists_grapheme_between hmin hmax hlt

end SourceSnapshot

end Flark
