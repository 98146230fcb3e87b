import Flark.Kernel.Edits
import Flark.Kernel.Painting

/-!
# Hidden text

Whether a later document paints source that the current one hides (`_revealsHiddenText` of
`kernel/editor.dart`). The check passes over a row carried over from the current projection by its
two ends, over a segment by its two ends and one walk along the segments that paint what lies
between, and finds the row that can paint an offset by a binary search.

* `Edits.backFrom_lt`, `Edits.backFrom_shift`: offsets of the current source keep their order, and
  their distance where no edit lies between them;
* `painted_iff`: an offset is painted where the search says so;
* `Document.revealsHiddenText_iff`: what the check decides.
-/

namespace Flark

/-! ## Offsets of the current source -/

/-- An edit inside a range of the source, away from its ends. -/
def Edit.Inside (e : Edit) (start stop : Int) : Prop := start < e.start ∧ e.stop < stop

namespace Edits

variable {n c shift : Int} {es : List Edit}

/-- What lies behind the start of the edits comes from there or from behind. -/
theorem le_backFrom (h : Fits n c es) {p : Int} (hp : c + shift ≤ p)
    (hback : 0 ≤ backFrom p shift es) : c ≤ backFrom p shift es := by
  induction es generalizing c shift with
  | nil =>
    rw [backFrom_nil] at hback ⊢
    omega
  | cons e es ih =>
    obtain ⟨hstart, hle, hrest⟩ := h
    rw [backFrom_cons] at hback ⊢
    split_ifs at hback ⊢ with hbefore hinside
    · omega
    · omega
    · have hgrowth : e.stop + (shift + e.growth) ≤ p := by
        rw [Edit.growth]
        omega
      exact (hstart.trans hle).trans (ih hrest hgrowth hback)

/-- Offsets that come from the source keep their order. -/
theorem backFrom_lt (h : Fits n c es) {p q : Int} (hpq : p < q) (hp : 0 ≤ backFrom p shift es)
    (hq : 0 ≤ backFrom q shift es) : backFrom p shift es < backFrom q shift es := by
  induction es generalizing c shift with
  | nil =>
    rw [backFrom_nil, backFrom_nil]
    omega
  | cons e es ih =>
    obtain ⟨-, hle, hrest⟩ := h
    rw [backFrom_cons] at hp hq ⊢
    rw [backFrom_cons]
    split_ifs at hp hq ⊢ with hbefore hbefore' hinside' hinside <;> try omega
    · have hgrowth : e.stop + (shift + e.growth) ≤ q := by
        rw [Edit.growth]
        omega
      have := le_backFrom hrest hgrowth hq
      omega
    · exact ih hrest hp hq

/-- Between two offsets that came from one distance away, with no edit between, all did. -/
theorem backFrom_shift (h : Fits n c es) {x y o delta : Int} (hxo : x ≤ o) (hoy : o ≤ y)
    (hx : backFrom x shift es = x - delta) (hy : backFrom y shift es = y - delta)
    (hzero : 0 ≤ x - delta) (hnone : ∀ e ∈ es, ¬e.Inside (x - delta) (y - delta + 1)) :
    backFrom o shift es = o - delta := by
  induction es generalizing c shift with
  | nil =>
    rw [backFrom_nil] at hx ⊢
    omega
  | cons e es ih =>
    obtain ⟨-, -, hrest⟩ := h
    obtain ⟨hnone, hnone'⟩ := List.forall_mem_cons.1 hnone
    rw [Edit.Inside] at hnone
    rw [backFrom_cons] at hx hy ⊢
    by_cases hbefore : x < e.start + shift
    · -- The first offset is before the edit; were the last one behind it, the edit lay between.
      rw [if_pos hbefore] at hx
      by_cases hbefore' : y < e.start + shift
      · rw [if_pos (by omega)]
        omega
      · rw [if_neg hbefore'] at hy
        split_ifs at hy with hinside
        · omega
        · have hgrowth : e.stop + (shift + e.growth) ≤ y := by
            rw [Edit.growth]
            omega
          have := le_backFrom hrest hgrowth (by omega)
          omega
    · rw [if_neg hbefore] at hx
      rw [if_neg (by omega)] at hy ⊢
      split_ifs at hx with hinside
      · omega
      · rw [if_neg (by omega)] at hy ⊢
        exact ih hrest hx hy hnone'

end Edits

/-! ## What the current projection paints -/

namespace ProjectedRow

/-- The walk along the segments from `at_` on: where those that paint on from where the last ended
    stop, or behind `to_`. -/
def coveredTo (to_ : Int) : (at_ : Int) → List Segment → Int
  | at_, [] => at_
  | at_, s :: segments =>
    if at_ ≤ to_ then
      if at_ < s.sourceStart then at_
      else coveredTo to_ (if !s.lineBreak && decide (at_ < s.sourceEnd) then s.sourceEnd else at_)
        segments
    else at_

/-- The segments of a row paint `from_` through `to_`, those from the first that ends past
    `from_`. -/
def paints (row : ProjectedRow) (from_ to_ : Int) : Bool :=
  let lo := Bisect.bisectFirst (fun k => row.segments[k]?.any fun s => s.sourceEnd ≤ from_) 0
    row.segments.length
  decide (to_ < coveredTo to_ from_ (row.segments.drop lo))

end ProjectedRow

/-- `painted`: the projection of the rows paints `from_` through `to_`, or `shown` allows it. The
    last row with text that starts at or before `from_` is the one that can. -/
def painted (rows : List ProjectedRow) (shown : Option (Int × Int)) (from_ to_ : Int) : Bool :=
  (shown.any fun range => decide (range.1 ≤ from_) && decide (to_ < range.2)) ||
    let n := Bisect.bisectClosed (fun r => rows[r]?.any fun row => row.sourceStart ≤ from_) 0
      rows.length
    ((rows.take n).reverse.find? fun row => decide (row.sourceStart < row.sourceEnd)).any
      fun row => row.paints from_ to_

/-- Rows in source order whose extents do not overlap. -/
def RowsApart (rows : List ProjectedRow) : Prop :=
  rows.Pairwise fun r r' => r.sourceStart ≤ r'.sourceStart ∧ r.sourceEnd ≤ r'.sourceStart

/-- A segment of the rows other than a line break paints the offset. -/
def PaintedBy (rows : List ProjectedRow) (o : Int) : Prop :=
  ∃ row ∈ rows, ∃ s ∈ row.segments, s.lineBreak = false ∧ s.Covers o

/-- The offset is in the range that is allowed to appear. -/
def Allowed (shown : Option (Int × Int)) (o : Int) : Prop :=
  ∃ range ∈ shown, range.1 ≤ o ∧ o < range.2

section

variable {lo hi from_ to_ o : Int} {segments : List Segment} {row : ProjectedRow}

/-- Up to where the walk comes, a segment paints each offset. -/
theorem covers_of_lt_coveredTo (hfrom : from_ ≤ o)
    (ho : o < ProjectedRow.coveredTo to_ from_ segments) :
    ∃ s ∈ segments, s.lineBreak = false ∧ s.Covers o := by
  induction segments generalizing from_ with
  | nil => exact absurd (hfrom.trans_lt ho) (lt_irrefl _)
  | cons s segments ih =>
    rw [ProjectedRow.coveredTo] at ho
    split_ifs at ho with hto hstart hpaints
    · omega
    · simp only [Bool.and_eq_true, Bool.not_eq_true', decide_eq_true_eq] at hpaints
      by_cases hhere : o < s.sourceEnd
      · exact ⟨s, List.mem_cons_self, hpaints.1, by omega, hhere⟩
      · obtain ⟨t, ht, hcovers⟩ := ih (not_lt.1 hhere) ho
        exact ⟨t, List.mem_cons_of_mem _ ht, hcovers⟩
    · obtain ⟨t, ht, hcovers⟩ := ih hfrom ho
      exact ⟨t, List.mem_cons_of_mem _ ht, hcovers⟩
    · omega

/-- The walk goes on forward. -/
theorem le_coveredTo : from_ ≤ ProjectedRow.coveredTo to_ from_ segments := by
  induction segments generalizing from_ with
  | nil => exact le_rfl
  | cons s segments ih =>
    rw [ProjectedRow.coveredTo]
    split_ifs with hto hstart hpaints
    · exact le_rfl
    · simp only [Bool.and_eq_true, Bool.not_eq_true', decide_eq_true_eq] at hpaints
      exact hpaints.2.le.trans ih
    · exact ih
    · exact le_rfl

/-- The walk comes past an offset that a segment paints. -/
theorem lt_coveredTo (halong : Along lo hi segments)
    (h : ∃ s ∈ segments, s.lineBreak = false ∧ s.Covers o) :
    o < ProjectedRow.coveredTo o o segments := by
  induction segments with
  | nil =>
    obtain ⟨s, hs, -⟩ := h
    cases hs
  | cons s segments ih =>
    obtain ⟨-, hwithin⟩ := List.forall_mem_cons.1 halong.within
    obtain ⟨hbehind, hordered⟩ := List.pairwise_cons.1 halong.ordered
    obtain ⟨-, hforward, -⟩ := halong.within s List.mem_cons_self
    have hstart : s.sourceStart ≤ o := by
      obtain ⟨t, ht, -, hcovers⟩ := h
      rcases List.mem_cons.1 ht with rfl | ht
      · exact hcovers.1
      · exact (hforward.trans (hbehind t ht)).trans hcovers.1
    rw [ProjectedRow.coveredTo, if_pos le_rfl, if_neg (not_lt.2 hstart)]
    split_ifs with hpaints
    · simp only [Bool.and_eq_true, Bool.not_eq_true', decide_eq_true_eq] at hpaints
      exact hpaints.2.trans_le le_coveredTo
    · refine ih ⟨hwithin, hordered⟩ ?_
      obtain ⟨t, ht, hbreak, hcovers⟩ := h
      rcases List.mem_cons.1 ht with rfl | ht
      · exact absurd (by simp [hbreak, hcovers.2]) hpaints
      · exact ⟨t, ht, hbreak, hcovers⟩

/-- What the walk from the first segment that can paint `from_` says is painted is. -/
theorem covers_of_paints (h : row.paints from_ to_ = true) (hfrom : from_ ≤ o) (hto : o ≤ to_) :
    ∃ s ∈ row.segments, s.lineBreak = false ∧ s.Covers o := by
  obtain ⟨s, hs, hcovers⟩ := covers_of_lt_coveredTo hfrom (hto.trans_lt (of_decide_eq_true h))
  exact ⟨s, List.mem_of_mem_drop hs, hcovers⟩

/-- A row paints an offset that one of its segments paints. -/
theorem paints_of_covers (halong : Along lo hi row.segments)
    (h : ∃ s ∈ row.segments, s.lineBreak = false ∧ s.Covers o) : row.paints o o = true := by
  obtain ⟨s, hs, hbreak, hcovers⟩ := h
  obtain ⟨j, hj, rfl⟩ := List.mem_iff_getElem.1 hs
  have hends : ∀ i k, 0 ≤ i → i ≤ k → k < row.segments.length →
      (row.segments[k]?.any fun s => s.sourceEnd ≤ o) = true →
      (row.segments[i]?.any fun s => s.sourceEnd ≤ o) = true := by
    intro i k _ hik hk
    rw [List.getElem?_eq_getElem hk, List.getElem?_eq_getElem (hik.trans_lt hk), Option.any_some,
      Option.any_some, decide_eq_true_eq, decide_eq_true_eq]
    exact (halong.sourceEnd_mono hik (hik.trans_lt hk) hk).trans
  obtain ⟨-, -, hfirst⟩ := Bisect.bisectFirst_spec (Nat.zero_le _) hends
  rw [ProjectedRow.paints]
  generalize Bisect.bisectFirst _ 0 row.segments.length = first at hfirst
  -- The segments that the search passes over end before the one that paints `o`.
  have hle : first ≤ j := by
    by_contra hlt
    have hpast := (hfirst j (Nat.zero_le j) hj).2 (not_le.1 hlt)
    rw [List.getElem?_eq_getElem hj, Option.any_some, decide_eq_true_eq] at hpast
    exact absurd hcovers.2 (not_lt.2 hpast)
  refine decide_eq_true (@lt_coveredTo lo hi o _ ?_ ⟨row.segments[j], ?_, hbreak, hcovers⟩)
  · exact ⟨fun t ht => halong.within t (List.mem_of_mem_drop ht),
      halong.ordered.sublist (List.drop_sublist _ _)⟩
  · refine List.mem_iff_getElem.2 ⟨j - first, by rw [List.length_drop]; omega, ?_⟩
    rw [List.getElem_drop]
    congr 1
    omega

end

section

variable {rows : List ProjectedRow} {shown : Option (Int × Int)} {from_ to_ o : Int}

/-- What is said to be painted is, or is allowed. -/
theorem paintedBy_of_painted (h : painted rows shown from_ to_ = true) (hfrom : from_ ≤ o)
    (hto : o ≤ to_) : PaintedBy rows o ∨ Allowed shown o := by
  rcases Bool.or_eq_true_iff.1 h with h | h
  · obtain ⟨range, hrange, hin⟩ := (Option.any_eq_true _ _).1 h
    rw [Bool.and_eq_true, decide_eq_true_eq, decide_eq_true_eq] at hin
    exact Or.inr ⟨range, hrange, hin.1.trans hfrom, hto.trans_lt hin.2⟩
  · obtain ⟨row, hrow, hpaints⟩ := (Option.any_eq_true _ _).1 h
    have hmem := List.mem_of_mem_take (List.mem_reverse.1 (List.mem_of_find?_eq_some hrow))
    obtain ⟨s, hs, hcovers⟩ := covers_of_paints hpaints hfrom hto
    exact Or.inl ⟨row, hmem, s, hs, hcovers⟩

/-- An offset is painted where the search says so. -/
theorem painted_iff (halong : ∀ r ∈ rows, Along r.sourceStart r.sourceEnd r.segments)
    (hrows : RowsApart rows) :
    painted rows shown o o = true ↔ PaintedBy rows o ∨ Allowed shown o := by
  refine ⟨fun h => paintedBy_of_painted h le_rfl le_rfl, fun h => Bool.or_eq_true_iff.2 ?_⟩
  rcases h with ⟨row, hrow, s, hs, hbreak, hcovers⟩ | ⟨range, hrange, hin⟩
  swap
  · refine Or.inl ((Option.any_eq_true _ _).2 ⟨range, hrange, ?_⟩)
    rw [Bool.and_eq_true, decide_eq_true_eq, decide_eq_true_eq]
    exact hin
  refine Or.inr ?_
  obtain ⟨hstart, -, hstop⟩ := (halong row hrow).within s hs
  have hpaints := paints_of_covers (halong row hrow) ⟨s, hs, hbreak, hcovers⟩
  have hhere : row.sourceStart ≤ o := hstart.trans hcovers.1
  have hpast : o < row.sourceEnd := hcovers.2.trans_le hstop
  obtain ⟨j, hj, rfl⟩ := List.mem_iff_getElem.1 hrow
  have hpairs := List.pairwise_iff_getElem.1 hrows
  have hstarts : ∀ i k, 0 ≤ i → i ≤ k → k < rows.length →
      (rows[k]?.any fun row => row.sourceStart ≤ o) = true →
      (rows[i]?.any fun row => row.sourceStart ≤ o) = true := by
    intro i k _ hik hk
    rw [List.getElem?_eq_getElem hk, List.getElem?_eq_getElem (hik.trans_lt hk), Option.any_some,
      Option.any_some, decide_eq_true_eq, decide_eq_true_eq]
    rcases Nat.eq_or_lt_of_le hik with rfl | hlt
    · exact id
    · exact (hpairs i k (hik.trans_lt hk) hk hlt).1.trans
  obtain ⟨-, hlength, hlast⟩ := Bisect.bisectClosed_spec (Nat.zero_le _) hstarts
  dsimp only
  generalize Bisect.bisectClosed _ 0 rows.length = n at hlength hlast ⊢
  -- Rows behind the one that paints `o` start behind `o`, so the search stops at it.
  have hn : n = j + 1 := by
    refine le_antisymm ?_ ?_
    · by_contra hlt
      have hnext : j + 1 < rows.length := by omega
      have hstarted := (hlast (j + 1) (Nat.zero_le _) hnext).2 (by omega)
      rw [List.getElem?_eq_getElem hnext, Option.any_some, decide_eq_true_eq] at hstarted
      exact absurd (hpast.trans_le ((hpairs j (j + 1) hj hnext j.lt_succ_self).2.trans hstarted))
        (lt_irrefl _)
    · refine (hlast j (Nat.zero_le j) hj).1 ?_
      rw [List.getElem?_eq_getElem hj, Option.any_some, decide_eq_true_eq]
      exact hhere
  have hextent : decide (rows[j].sourceStart < rows[j].sourceEnd) = true :=
    decide_eq_true (hhere.trans_lt hpast)
  rw [hn, ← List.take_append_getElem hj, List.reverse_append, List.reverse_singleton,
    List.singleton_append, List.find?_cons, hextent, Option.any_some]
  exact hpaints

end

/-! ## The check -/

/-- `reusedFrom`: the row of the earlier projection that a row carries over; `reuses` says whether
    the later projection was built from that one. -/
def Projection.reusedFrom (previous : Projection) (reuses : Bool) (row : ProjectedRow) :
    Option ProjectedRow :=
  if 0 ≤ row.origin ∧ reuses then previous.rows[row.origin.toNat]? else none

namespace Segment

/-- What a segment of a row shows. -/
def shows (s : Segment) (row : ProjectedRow) : Text :=
  row.text.substring s.displayStart s.displayEnd

/-- A segment that is not exact shows only the end of its source, as an escaped pipe of a table
    cell shows its pipe. -/
def ShowsEnd (s : Segment) (row : ProjectedRow) (src : Text) : Prop :=
  s.exact = false ∧ ((s.shows row).length : Int) < s.sourceEnd - s.sourceStart ∧
    src.startsWith (s.shows row) (s.sourceEnd - (s.shows row).length) = true

instance (s : Segment) (row : ProjectedRow) (src : Text) : Decidable (s.ShowsEnd row src) :=
  inferInstanceAs (Decidable (_ ∧ _ ∧ _))

/-- Where the source that a segment paints starts. -/
def paintStart (s : Segment) (row : ProjectedRow) (src : Text) : Int :=
  if s.ShowsEnd row src then s.sourceEnd - (s.shows row).length else s.sourceStart

end Segment

namespace Document

variable (current next : Document) (reuses : Bool) (old : Int → Int) (shown : Option (Int × Int))
  (whitespace : Bool)

/-- The turn of the check for the offset `o` that a segment paints. -/
def revealsAt (o : Int) : Bool :=
  if !whitespace && Text.isWordSpace (next.source.codeUnitAt o) then false
  else
    decide (0 ≤ old o) && decide (old o < current.source.length) &&
      !painted current.projection.rows shown (old o) (old o)

/-- The turn of the check for a segment of a row. -/
def segmentReveals (row : ProjectedRow) (s : Segment) : Bool :=
  if s.lineBreak ∨ s.sourceEnd ≤ s.sourceStart then false
  else
    let a := s.paintStart row next.source
    let b := s.sourceEnd
    if a = b then false
    else if 0 ≤ old a ∧ old (b - 1) - old a = b - 1 - a ∧
        painted current.projection.rows shown (old a) (old (b - 1)) then false
    else (List.range (b - a).toNat).any fun i => current.revealsAt next old shown whitespace (a + i)

/-- Whether a row was carried over and paints what it painted, moved with it. -/
def carriedOver (row : ProjectedRow) : Bool :=
  (current.projection.reusedFrom reuses row).any fun was =>
    !row.text.isEmpty && decide (row.sourceStart < row.sourceEnd) &&
      decide (old row.sourceStart = was.sourceStart) &&
      decide (old (row.sourceEnd - 1) = was.sourceEnd - 1)

/-- `_revealsHiddenText`. -/
def revealsHiddenText : Bool :=
  next.projection.rows.any fun row =>
    !current.carriedOver reuses old row &&
      row.segments.any (current.segmentReveals next old shown whitespace row)

end Document

namespace Segment

/-- A segment other than a line break paints the offset: within its source, or, where it shows only
    the end of it, within that end. -/
def Paints (s : Segment) (row : ProjectedRow) (src : Text) (o : Int) : Prop :=
  s.lineBreak = false ∧ s.Covers o ∧ (s.ShowsEnd row src → s.sourceEnd - (s.shows row).length ≤ o)

/-- A segment that paints paints from where its painting starts to its end. -/
theorem paints_iff {s : Segment} {row : ProjectedRow} {src : Text} {o : Int} :
    s.Paints row src o ↔ s.lineBreak = false ∧ s.paintStart row src ≤ o ∧ o < s.sourceEnd := by
  rw [Paints, Covers, paintStart]
  refine and_congr_right fun _ => ?_
  split_ifs with hend
  · have hshort := hend.2.1
    exact ⟨fun ⟨h, h'⟩ => ⟨h' hend, h.2⟩, fun ⟨h, h'⟩ => ⟨⟨by omega, h'⟩, fun _ => h⟩⟩
  · exact ⟨fun ⟨h, _⟩ => h, fun h => ⟨h, fun hends => absurd hends hend⟩⟩

theorem sourceStart_le_paintStart (s : Segment) (row : ProjectedRow) (src : Text) :
    s.sourceStart ≤ s.paintStart row src := by
  rw [paintStart]
  split_ifs with hend
  · have := hend.2.1
    omega
  · exact le_rfl

end Segment

namespace Document

/-- The offset is one of the current source that no row of the current projection paints, and that
    is not allowed to appear. -/
def Hides (current : Document) (shown : Option (Int × Int)) (p : Int) : Prop :=
  0 ≤ p ∧ p < current.source.length ∧ ¬PaintedBy current.projection.rows p ∧ ¬Allowed shown p

/-- What `_revealsHiddenText` is to decide: whether a segment of the next document paints a
    character, not white space unless that counts, that comes from source that the current one
    hides. -/
def Reveals (current next : Document) (old : Int → Int) (shown : Option (Int × Int))
    (whitespace : Bool) : Prop :=
  ∃ row ∈ next.projection.rows, ∃ s ∈ row.segments, ∃ o, s.Paints row next.source o ∧
    (whitespace = true ∨ Text.isWordSpace (next.source.codeUnitAt o) = false) ∧
    current.Hides shown (old o)

section

variable {current next : Document} {reuses : Bool} {shown : Option (Int × Int)} {whitespace : Bool}
  (halong : ∀ r ∈ current.projection.rows, Along r.sourceStart r.sourceEnd r.segments)
  (hrows : RowsApart current.projection.rows)

include halong hrows

theorem revealsAt_iff {old : Int → Int} {o : Int} :
    current.revealsAt next old shown whitespace o = true ↔
      (whitespace = true ∨ Text.isWordSpace (next.source.codeUnitAt o) = false) ∧
        current.Hides shown (old o) := by
  have hpainted : painted current.projection.rows shown (old o) (old o) = false ↔
      ¬PaintedBy current.projection.rows (old o) ∧ ¬Allowed shown (old o) := by
    rw [← not_or, ← painted_iff halong hrows, Bool.not_eq_true]
  rw [revealsAt, Hides]
  cases whitespace <;> cases Text.isWordSpace (next.source.codeUnitAt o) <;>
    simp [hpainted, and_assoc]

/-- The turn for a segment finds the offset where it paints what was hidden. -/
theorem segmentReveals_iff {edits : Edits} (hedits : Edits.Within edits.list current.source.length)
    {row : ProjectedRow} {s : Segment} :
    current.segmentReveals next edits.back shown whitespace row s = true ↔
      ∃ o, s.Paints row next.source o ∧
        (whitespace = true ∨ Text.isWordSpace (next.source.codeUnitAt o) = false) ∧
        current.Hides shown (edits.back o) := by
  simp only [Segment.paints_iff]
  have hstart := s.sourceStart_le_paintStart row next.source
  have hfits := Edits.fits (Int.natCast_nonneg _) hedits
  rw [segmentReveals]
  dsimp only
  -- Nothing is painted, nothing of it has been in the source before, all of it has been painted
  -- already, or every offset is asked.
  generalize s.paintStart row next.source = a at hstart ⊢
  split_ifs with hnothing hempty hcovered
  · refine iff_of_false (by simp) ?_
    rintro ⟨o, ⟨hbreak, hao, hob⟩, -⟩
    rcases hnothing with h | h
    · rw [hbreak] at h
      cases h
    · omega
  · refine iff_of_false (by simp) ?_
    rintro ⟨o, ⟨-, hao, hob⟩, -⟩
    omega
  · -- What the segment paints came from between the two ends, which is painted.
    obtain ⟨hfirst, hlast, hpainted⟩ := hcovered
    refine iff_of_false (by simp) ?_
    rintro ⟨o, ⟨-, hao, hob⟩, -, hzero, -, hnot, hnot'⟩
    have hmono : ∀ x y, x ≤ y → 0 ≤ edits.back x → 0 ≤ edits.back y →
        edits.back x ≤ edits.back y := by
      intro x y hxy hx hy
      rcases hxy.eq_or_lt with rfl | hlt
      · exact le_rfl
      · exact (Edits.backFrom_lt hfits hlt hx hy).le
    rcases paintedBy_of_painted hpainted (hmono a o hao hfirst hzero)
      (hmono o (s.sourceEnd - 1) (by omega) hzero (by omega)) with h | h
    · exact hnot h
    · exact hnot' h
  · simp only [List.any_eq_true, List.mem_range, revealsAt_iff halong hrows]
    rw [not_or, Bool.not_eq_true] at hnothing
    constructor
    · rintro ⟨i, hi, hreveals⟩
      exact ⟨a + i, ⟨hnothing.1, by omega, by omega⟩, hreveals⟩
    · rintro ⟨o, ⟨-, hao, hob⟩, hreveals⟩
      refine ⟨(o - a).toNat, by omega, ?_⟩
      rw [show a + ((o - a).toNat : Int) = o by omega]
      exact hreveals

omit hrows in
/-- A row that was carried over paints nothing that was hidden. -/
theorem not_reveals_of_carriedOver {gs : Graphemes} (hd : current.Live gs)
    (hbuilt : reuses = true → ∃ options, next.projection =
      Projection.of gs next.model next.source options (some current.projection))
    {edits : Edits} (hedits : Edits.Within edits.list current.source.length) {row : ProjectedRow}
    (hrow : row ∈ next.projection.rows)
    (hkept : ∀ was, current.projection.reusedFrom reuses row = some was →
      ∀ e ∈ edits.list, ¬e.Inside was.sourceStart was.sourceEnd)
    (hcarried : current.carriedOver reuses edits.back row = true) {s : Segment}
    (hs : s ∈ row.segments) {o : Int} (hpaints : s.Paints row next.source o) :
    ¬current.Hides shown (edits.back o) := by
  obtain ⟨was, hwas, hends⟩ := (Option.any_eq_true _ _).1 hcarried
  have hkept := hkept was hwas
  simp only [Bool.and_eq_true, decide_eq_true_eq] at hends
  obtain ⟨⟨⟨-, hlong⟩, hfirst⟩, hlast⟩ := hends
  rw [Projection.reusedFrom] at hwas
  split_ifs at hwas with horigin
  obtain ⟨options, hnext⟩ := hbuilt horigin.2
  obtain ⟨was', delta, hwas', hstart, hstop, runDelta, hsegments⟩ :=
    movedFrom_of_origin hd.built (hnext ▸ hrow) horigin.1
  obtain rfl := Option.some.inj (hwas'.symm.trans hwas)
  have hmem := List.mem_of_getElem? hwas
  have hzero := hd.built.sourceStart_nonneg _ hmem
  rw [hsegments] at hs
  obtain ⟨t, ht, rfl⟩ := List.mem_map.1 hs
  obtain ⟨hbreak, hcovers, -⟩ := hpaints
  have hcovers : t.sourceStart + delta ≤ o ∧ o < t.sourceEnd + delta := hcovers
  obtain ⟨hlow, -, hhigh⟩ := (halong _ hmem).within t ht
  -- All of the row came from one distance away.
  have hback : edits.back o = o - delta := by
    refine Edits.backFrom_shift (x := row.sourceStart) (y := row.sourceEnd - 1)
      (Edits.fits (Int.natCast_nonneg _) hedits) (by omega) (by omega) ?_ ?_ (by omega) ?_
    · exact hfirst.trans (by omega)
    · exact hlast.trans (by omega)
    · intro e he
      rw [show row.sourceStart - delta = was'.sourceStart by omega,
        show row.sourceEnd - 1 - delta + 1 = was'.sourceEnd by omega]
      exact hkept e he
  rintro ⟨-, -, hnot, -⟩
  refine hnot ⟨was', hmem, t, ht, hbreak, ?_⟩
  rw [hback]
  exact ⟨by omega, by omega⟩

end

/-- The check decides whether the next document paints what the current one hides: for a live
    document whose rows are in source order and do not overlap, and edits of its source, none inside
    a row that the next projection carries over. -/
theorem revealsHiddenText_iff {gs : Graphemes} {current next : Document} (hd : current.Live gs)
    (hinline : ∀ b < current.model.blockCount,
      RenderModel.isInline (current.model.blockKind b) = true →
      current.model.InlineConforms current.source b)
    (hrows : RowsApart current.projection.rows) {reuses : Bool}
    (hbuilt : reuses = true → ∃ options, next.projection =
      Projection.of gs next.model next.source options (some current.projection))
    {edits : Edits} (hedits : Edits.Within edits.list current.source.length)
    (hkept : ∀ row ∈ next.projection.rows, ∀ was,
      current.projection.reusedFrom reuses row = some was →
      ∀ e ∈ edits.list, ¬e.Inside was.sourceStart was.sourceEnd)
    (shown : Option (Int × Int)) (whitespace : Bool) :
    current.revealsHiddenText next reuses edits.back shown whitespace = true ↔
      current.Reveals next edits.back shown whitespace := by
  have halong := hd.built.along hd.conforms hinline
  simp only [revealsHiddenText, List.any_eq_true, Bool.and_eq_true, Bool.not_eq_true',
    segmentReveals_iff halong hrows hedits]
  constructor
  · rintro ⟨row, hrow, -, s, hs, o, hreveals⟩
    exact ⟨row, hrow, s, hs, o, hreveals⟩
  · rintro ⟨row, hrow, s, hs, o, hpaints, hspace, hhides⟩
    refine ⟨row, hrow, ?_, s, hs, o, hpaints, hspace, hhides⟩
    rw [← Bool.not_eq_true]
    exact fun hcarried => not_reveals_of_carriedOver halong hd hbuilt hedits hrow
      (hkept row hrow) hcarried hs hpaints hhides

/-- A model of a paragraph of two lines: a letter with an asterisk, and a letter. -/
def unpaired : RenderModel where
  bytes := []
  words :=
    [0x354B4C46, 5, 4, 4, 2, 2, 2, 3, 0, 0, 0, 0] ++ [0, 3] ++
    [0, 0xFFFFFFFF, 0, 4, 0, 2, 0, 0, 0, 0xFFFFFFFF] ++
    [1, 0, 0, 4, 0, 2, 0, 0, 0, 0xFFFFFFFF] ++
    [0, 2, 0, 0] ++ [3, 4, 3, 1] ++
    [0, 2, 0, 1] ++ [2, 3, 1, 12] ++ [3, 4, 0, 1]

/-- A document of an emphasized letter and a line. -/
def starred : Document :=
  ⟨Projection.of .units emphasized (Text.ofString "*a*\nb") {} none, .collapsed 1⟩

theorem starred_live : starred.Live .units :=
  ⟨Built.anew emphasized_schemaConforms.toConforms {}, emphasized_schemaConforms⟩

theorem starred_inline : ∀ b < starred.model.blockCount,
    RenderModel.isInline (starred.model.blockKind b) = true →
      starred.model.InlineConforms starred.source b := by
  have hblocks : ∀ b < starred.model.blockCount,
      RenderModel.isInline (starred.model.blockKind b) = true → b = 1 := by decide
  intro b hb hinline
  obtain rfl := hblocks b hb hinline
  exact emphasized_inlineConforms

instance (rows : List ProjectedRow) : Decidable (RowsApart rows) :=
  inferInstanceAs (Decidable (List.Pairwise _ rows))

/-- Without the opening delimiter the closing one appears. -/
theorem revealsHiddenText_iff_starred :
    starred.Reveals ⟨Projection.of .units unpaired (Text.ofString "a*\nb") {}
      (some starred.projection), .collapsed 0⟩ (Edits.mk [⟨0, 1, []⟩] rfl).back none false := by
  have hrows : RowsApart starred.projection.rows := by decide
  have hkept : ∀ row ∈ (Projection.of .units unpaired (Text.ofString "a*\nb") {}
      (some starred.projection)).rows, ∀ was,
      starred.projection.reusedFrom true row = some was →
      ∀ e ∈ [(⟨0, 1, []⟩ : Edit)], ¬e.Inside was.sourceStart was.sourceEnd := by
    intro row hrow was hwas
    have hnone : ∀ row ∈ (Projection.of .units unpaired (Text.ofString "a*\nb") {}
        (some starred.projection)).rows, starred.projection.reusedFrom true row = none := by
      decide
    rw [hnone row hrow] at hwas
    cases hwas
  refine (@revealsHiddenText_iff .units starred _ starred_live starred_inline hrows true
    (fun _ => ⟨{}, rfl⟩) ⟨[⟨0, 1, []⟩], rfl⟩ ?_ hkept none false).1 (by decide)
  exact List.forall_mem_singleton.2 (by decide)

end Document

end Flark
