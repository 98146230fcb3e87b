import Flark.Kernel.Shape

/-!
# Legal carets

Caret legality has one meaning. `Projection.CaretAt` states it: a grapheme boundary of the
source, in a caret span, strictly inside no hidden delimiter, escape or atomic display unit.

* `mem_hiddenPairs`, `mem_escapePairs`, `mem_rowAtomicPairs`: the interval lists hold what
  they are to hold;
* `mem_considerAll`: the linear merge of the boundaries with the two interval lists;
* `Projection.caret_legality`: what `isLegal` decides by search, and what `legalOffsets` lists,
  is `CaretAt`.
-/

namespace Flark

/-! ## Hidden syntax and escapes -/

namespace Projection

/-- The delimiters of a run, and its range up to the end of its content. -/
def openingOf (m : RenderModel) (r : Nat) : Int × Int := (↑(m.runStart r), ↑(m.runContentStart r))
def closingOf (m : RenderModel) (r : Nat) : Int × Int := (↑(m.runContentEnd r), ↑(m.runEnd r))
def escapeOf (m : RenderModel) (r : Nat) : Int × Int := (↑(m.runStart r), ↑(m.runContentEnd r))

/-- The delimiters of the runs before `n` that are not empty. -/
def HiddenBefore (m : RenderModel) (n : Nat) (x : Int × Int) : Prop :=
  ∃ r < n, (x = openingOf m r ∨ x = closingOf m r) ∧ x.1 < x.2

/-- The escapes before run `n`. -/
def EscapeBefore (m : RenderModel) (n : Nat) (x : Int × Int) : Prop :=
  ∃ r < n, m.runKind r = RunKind.escape ∧ x = escapeOf m r ∧ x.1 < x.2

/-- Flushing takes pending intervals to the hidden ones. -/
theorem mem_flush {position : Int} {pending : List (Int × Int)} {hidden : Pairs}
    {x : Int × Int} :
    x ∈ (flush position pending hidden).1 ∨ x ∈ (flush position pending hidden).2.list ↔
      x ∈ pending ∨ x ∈ hidden.list := by
  induction pending generalizing hidden with
  | nil => rfl
  | cons q pending ih =>
    rw [flush]
    split
    · rw [ih, Pairs.addByStart, Pairs.add, List.mem_append, List.mem_singleton, List.mem_cons]
      tauto
    · rfl

/-- Where everything pending starts at the position or before it, nothing stays pending. -/
theorem flush_eq_nil {position : Int} {pending : List (Int × Int)} {hidden : Pairs}
    (h : ∀ q ∈ pending, q.1 ≤ position) : (flush position pending hidden).1 = [] := by
  induction pending generalizing hidden with
  | nil => rfl
  | cons q pending ih =>
    rw [flush, if_pos (h q List.mem_cons_self)]
    exact ih fun q' hq' => h q' (List.mem_cons_of_mem _ hq')

section

variable {m : RenderModel}

/-- The walk over the first `n` runs. -/
def walkTo (m : RenderModel) (n : Nat) : RunWalk :=
  (List.range n).foldl (runStep m) ⟨Pairs.empty, [], []⟩

theorem walkTo_succ (n : Nat) : walkTo m (n + 1) = runStep m (walkTo m n) n := by
  rw [walkTo, List.range_succ, List.foldl_append]
  rfl

/-- After some runs, what is pending or hidden is what these runs hide. -/
theorem mem_walkTo {n : Nat} {x : Int × Int} :
    x ∈ (walkTo m n).pending ∨ x ∈ (walkTo m n).hidden.list ↔ HiddenBefore m n x := by
  induction n with
  | zero => simp [walkTo, HiddenBefore, Pairs.empty]
  | succ n ih =>
    have hstep : HiddenBefore m (n + 1) x ↔ HiddenBefore m n x ∨
        (x = closingOf m n ∧ x.1 < x.2) ∨ (x = openingOf m n ∧ x.1 < x.2) := by
      simp only [HiddenBefore, Nat.lt_succ_iff_lt_or_eq]
      constructor
      · rintro ⟨r, hr | rfl, hx, hlt⟩
        · exact Or.inl ⟨r, hr, hx, hlt⟩
        · exact Or.inr (hx.symm.imp (⟨·, hlt⟩) (⟨·, hlt⟩))
      · rintro (⟨r, hr, hx⟩ | ⟨hx, hlt⟩ | ⟨hx, hlt⟩)
        · exact ⟨r, Or.inl hr, hx⟩
        · exact ⟨n, Or.inr rfl, Or.inr hx, hlt⟩
        · exact ⟨n, Or.inr rfl, Or.inl hx, hlt⟩
    have hflush := @mem_flush (m.runStart n) (walkTo m n).pending (walkTo m n).hidden x
    rw [hstep, ← ih, ← hflush, walkTo_succ, runStep]
    dsimp only
    generalize flush (m.runStart n) (walkTo m n).pending (walkTo m n).hidden = flushed
    -- Each delimiter is added where it is not empty.
    have hopen : (x ∈ (if (m.runStart n : Int) < m.runContentStart n then
        flushed.2.addByStart (openingOf m n) else flushed.2).list) ↔
        x ∈ flushed.2.list ∨ (x = openingOf m n ∧ x.1 < x.2) := by
      split
      · next hlt =>
        rw [Pairs.addByStart, Pairs.add, List.mem_append, List.mem_singleton]
        refine or_congr_right ⟨fun h => ⟨h, ?_⟩, And.left⟩
        rw [h]
        exact hlt
      · next hle =>
        refine ⟨Or.inl, fun h => h.resolve_right fun h' => hle ?_⟩
        rw [h'.1] at h'
        exact h'.2
    have hclose : (x ∈ (if (m.runContentEnd n : Int) < m.runEnd n then
        closingOf m n :: flushed.1 else flushed.1)) ↔
        x ∈ flushed.1 ∨ (x = closingOf m n ∧ x.1 < x.2) := by
      split
      · next hlt =>
        rw [List.mem_cons, or_comm]
        refine or_congr_right ⟨fun h => ⟨h, ?_⟩, And.left⟩
        rw [h]
        exact hlt
      · next hle =>
        refine ⟨Or.inl, fun h => h.resolve_right fun h' => hle ?_⟩
        rw [h'.1] at h'
        exact h'.2
    exact (or_congr hclose hopen).trans or_or_or_comm

/-- What is pending begins at the end of a run's content. -/
theorem pending_walkTo {n : Nat} {x : Int × Int} (h : x ∈ (walkTo m n).pending) :
    ∃ r < n, x.1 = m.runContentEnd r := by
  induction n with
  | zero => cases h
  | succ n ih =>
    have hflush : ∀ (pending : List (Int × Int)) (hidden : Pairs),
        x ∈ (flush (m.runStart n) pending hidden).1 → x ∈ pending := by
      intro pending
      induction pending with
      | nil => exact fun _ h => h
      | cons q pending ihp =>
        intro hidden h
        rw [flush] at h
        split at h
        · exact List.mem_cons_of_mem _ (ihp _ h)
        · exact h
    rw [walkTo_succ, runStep] at h
    dsimp only at h
    have hold : x ∈ (walkTo m n).pending → ∃ r < n + 1, x.1 = m.runContentEnd r := fun h => by
      obtain ⟨r, hr, hx⟩ := ih h
      exact ⟨r, hr.trans (Nat.lt_succ_self n), hx⟩
    split at h
    · rcases List.mem_cons.1 h with rfl | h
      · exact ⟨n, Nat.lt_succ_self n, rfl⟩
      · exact hold (hflush _ _ h)
    · exact hold (hflush _ _ h)

/-- After some runs, the escapes are those of these runs. -/
theorem mem_escapes_walkTo {n : Nat} {x : Int × Int} :
    x ∈ (walkTo m n).escapes ↔ EscapeBefore m n x := by
  induction n with
  | zero => simp [walkTo, EscapeBefore]
  | succ n ih =>
    rw [walkTo_succ, runStep]
    simp only [EscapeBefore, Nat.lt_succ_iff_lt_or_eq] at ih ⊢
    by_cases hn : m.runKind n = RunKind.escape ∧ (m.runStart n : Int) < m.runContentEnd n
    · rw [if_pos hn, List.mem_append, List.mem_singleton, ih]
      constructor
      · rintro (⟨r, hr, hx⟩ | rfl)
        · exact ⟨r, Or.inl hr, hx⟩
        · exact ⟨n, Or.inr rfl, hn.1, rfl, hn.2⟩
      · rintro ⟨r, hr | rfl, hx⟩
        · exact Or.inl ⟨r, hr, hx⟩
        · exact Or.inr hx.2.1
    · rw [if_neg hn, ih]
      constructor
      · rintro ⟨r, hr, hx⟩
        exact ⟨r, Or.inl hr, hx⟩
      · rintro ⟨r, hr | rfl, hkind, rfl, hlt⟩
        · exact ⟨r, hr, hkind, rfl, hlt⟩
        · exact absurd ⟨hkind, hlt⟩ hn

/-- Runs in document order list their escapes by start. -/
theorem byStart_escapes_walkTo {n : Nat}
    (horder : ∀ r < n, ∀ q < r, m.runStart q ≤ m.runStart r) :
    Intervals.ByStart (walkTo m n).escapes := by
  induction n with
  | zero => exact List.Pairwise.nil
  | succ n ih =>
    have ih := ih fun r hr => horder r (hr.trans (Nat.lt_succ_self n))
    rw [walkTo_succ, runStep]
    dsimp only
    split
    · refine List.pairwise_append.2 ⟨ih, List.pairwise_singleton _ _, fun x hx y hy => ?_⟩
      obtain ⟨r, hr, _, rfl, _⟩ := mem_escapes_walkTo.1 hx
      rw [List.mem_singleton.1 hy]
      exact Int.ofNat_le.2 (horder n (Nat.lt_succ_self n) r hr)
    · exact ih

end

/-- What is hidden is what some run hides. -/
theorem mem_hiddenPairs {p : Projection} (hm : p.model.SchemaConforms p.source)
    {x : Int × Int} : x ∈ p.hiddenPairs ↔ HiddenBefore p.model p.model.runCount x := by
  have hpending : ∀ q ∈ p.runWalk.pending, q.1 ≤ p.source.length := by
    intro q hq
    obtain ⟨r, hr, hx⟩ := pending_walkTo hq
    have := hm.runRange r hr
    omega
  have hflush := @mem_flush p.source.length p.runWalk.pending p.runWalk.hidden x
  rw [flush_eq_nil hpending] at hflush
  rw [hiddenPairs, Pairs.mem_ordered, ← mem_walkTo]
  exact (or_iff_right List.not_mem_nil).symm.trans hflush

theorem mem_escapePairs {p : Projection} {x : Int × Int} :
    x ∈ p.escapePairs ↔ EscapeBefore p.model p.model.runCount x :=
  mem_escapes_walkTo

/-! ## Atomic display units -/

/-- A source range that stands for one displayed unit of a row: that of a replacement, or the
    source of a displayed grapheme that crosses the end of a segment, from the segment that
    displays its first unit to the one that displays its last. -/
inductive AtomicUnit (gs : Graphemes) (row : ProjectedRow) : Int × Int → Prop
  | replacement {s : Segment} (hs : s ∈ row.segments) (hexact : s.exact = false) :
    AtomicUnit gs row (s.sourceStart, s.sourceEnd)
  | joined {crossed first last : Segment} {g : Nat × Nat} (hg : g ∈ gs.spans row.text)
    (hcrossed : crossed ∈ row.segments) (hlt : g.1 < crossed.displayEnd)
    (hlt' : crossed.displayEnd < g.2) (hfirst : first ∈ row.segments) (hshows : first.Shows g.1)
    (hlast : last ∈ row.segments) (hshows' : last.Shows (g.2 - 1)) :
    AtomicUnit gs row (unitStart first g.1, unitEnd last g.2)

/-- The source of a displayed grapheme that crosses the end of segment `i`. -/
def JoinedAt (gs : Graphemes) (row : ProjectedRow) (i : Nat) (x : Int × Int) : Prop :=
  ∃ crossed, row.segments[i]? = some crossed ∧ ∃ g ∈ gs.spans row.text,
    g.1 < crossed.displayEnd ∧ crossed.displayEnd < g.2 ∧ ∃ first ∈ row.segments, first.Shows g.1 ∧
      ∃ last ∈ row.segments, last.Shows (g.2 - 1) ∧ x = (unitStart first g.1, unitEnd last g.2)

/-- What the caret cannot go into is a segment that is not exact, or a grapheme joined over
    segments. -/
theorem atomicUnit_iff {gs : Graphemes} {row : ProjectedRow} {x : Int × Int} :
    AtomicUnit gs row x ↔
      (∃ s ∈ row.segments, s.exact = false ∧ x = (s.sourceStart, s.sourceEnd)) ∨
        ∃ i < row.segments.length, JoinedAt gs row i x := by
  constructor
  · intro h
    cases h with
    | replacement hs hexact => exact Or.inl ⟨_, hs, hexact, rfl⟩
    | joined hg hcrossed hlt hlt' hfirst hshows hlast hshows' =>
      obtain ⟨i, hi, hcrossed⟩ := List.getElem_of_mem hcrossed
      exact Or.inr ⟨i, hi, _, List.getElem?_eq_some_iff.2 ⟨hi, hcrossed⟩, _, hg, hlt, hlt', _,
        hfirst, hshows, _, hlast, hshows', rfl⟩
  · rintro (⟨s, hs, hexact, rfl⟩ | ⟨i, _, crossed, hi, g, hg, hlt, hlt', first, hfirst, hshows, last,
      hlast, hshows', rfl⟩)
    · exact AtomicUnit.replacement hs hexact
    · exact AtomicUnit.joined hg (List.mem_of_getElem? hi) hlt hlt' hfirst hshows hlast hshows'

/-- The segment of a unit is the first that ends behind it. -/
theorem firstIndex_eq {l₁ l₂ : List Segment} {s : Segment} {u : Nat}
    (h₁ : ∀ t ∈ l₁, t.displayEnd ≤ u) (hs : u < s.displayEnd)
    (h₂ : ∀ t ∈ l₂, u < t.displayEnd) {i : Nat} (hi : l₁.length ≤ i)
    (hi' : i < (l₁ ++ s :: l₂).length) : firstIndex (l₁ ++ s :: l₂) u i = l₁.length := by
  induction i with
  | zero => exact (Nat.le_zero.1 hi).symm
  | succ i ih =>
    rw [firstIndex, List.getElem?_eq_getElem (by omega), Option.any_some]
    rcases Nat.lt_or_eq_of_le hi with hlt | heq
    · have hmem : u < (l₁ ++ s :: l₂)[i].displayEnd := by
        rw [List.getElem_append_right (by omega)]
        rcases List.mem_cons.1 (List.getElem_mem (l := s :: l₂) (n := i - l₁.length) (by
          rw [List.length_append] at hi'; omega)) with h | h
        · rw [h]
          exact hs
        · exact h₂ _ h
      rw [if_pos (decide_eq_true hmem)]
      exact ih (by omega) (by omega)
    · rw [if_neg, heq]
      rw [List.getElem_append_left (by omega), decide_eq_true_eq, not_lt]
      exact h₁ _ (List.getElem_mem _)

section

variable {gs : Graphemes} {row : ProjectedRow} (htiles : Tiles 0 row.segments row.text.length)

include htiles

/-- The segments that the loop finds for a grapheme that crosses a segment's end. -/
theorem found_segments {i : Nat} {crossed : Segment} (hi : row.segments[i]? = some crossed)
    {g : Nat × Nat} (hg : g ∈ gs.spans row.text) (hlt : g.1 < crossed.displayEnd)
    (hlt' : crossed.displayEnd < g.2) :
    ∃ first ∈ row.segments, first.Shows g.1 ∧ ∃ last ∈ row.segments, last.Shows (g.2 - 1) ∧
      row.segments[firstIndex row.segments g.1 i]? = some first ∧
      ((row.segments.drop (firstIndex row.segments g.1 i)).find? fun s => g.2 ≤ s.displayEnd) =
        some last := by
  have hstop := gs.stop_le_of_mem_spans hg
  obtain ⟨hlen, hcrossed⟩ := List.getElem?_eq_some_iff.1 hi
  obtain ⟨l₁, first, l₂, hsplit, hshows, h₁, h₂⟩ :=
    htiles.exists_split (Nat.zero_le g.1) (by omega)
  -- The segment that shows the grapheme's first unit is the crossed one, or an earlier one.
  have hindex : l₁.length ≤ i := by
    by_contra hlt''
    have hmem : crossed ∈ l₁ := by
      rw [← hcrossed, List.getElem_of_eq hsplit, List.getElem_append_left (by omega)]
      exact List.getElem_mem _
    have := h₁ crossed hmem
    omega
  have hfound : firstIndex row.segments g.1 i = l₁.length := by
    rw [hsplit] at hlen ⊢
    exact firstIndex_eq h₁ hshows.2 (fun t ht => (h₂ t ht).1.trans_le (h₂ t ht).2) hindex hlen
  rw [hsplit] at htiles
  obtain ⟨c, -, htail⟩ := tiles_append.1 htiles
  obtain ⟨k₁, last, k₂, hsplit', hshows', hk₁, -⟩ :=
    htail.exists_split (u := g.2 - 1) (by have := htail.1; have := hshows.1; omega) (by omega)
  have hmem : ∀ s ∈ first :: l₂, s ∈ row.segments := fun s hs =>
    hsplit ▸ List.mem_append_right _ hs
  refine ⟨first, hmem _ List.mem_cons_self, hshows, last,
    hmem _ (hsplit' ▸ List.mem_append_right _ List.mem_cons_self), hshows', ?_, ?_⟩
  · rw [hfound, hsplit, List.getElem?_append_right le_rfl, Nat.sub_self]
    rfl
  · have hnone : (k₁.find? fun s => decide (g.2 ≤ s.displayEnd)) = none :=
      List.find?_eq_none.2 fun s hs => by
        have := hk₁ s hs
        simp only [decide_eq_true_eq]
        omega
    have hlast : decide (g.2 ≤ last.displayEnd) = true := by
      have := hshows'.2
      exact decide_eq_true (by omega)
    rw [hfound, hsplit, List.drop_left, hsplit', List.find?_append, hnone, Option.none_or]
    exact List.find?_cons_of_pos hlast

/-- A boundary has at most one unit crossing it. -/
theorem joinedAt_unique {i : Nat} {crossed : Segment} (hi : row.segments[i]? = some crossed)
    {g : Nat × Nat} (hg : g ∈ gs.spans row.text) (hlt : g.1 < crossed.displayEnd)
    (hlt' : crossed.displayEnd < g.2) {first last : Segment} (hfirst : first ∈ row.segments)
    (hshows : first.Shows g.1) (hlast : last ∈ row.segments) (hshows' : last.Shows (g.2 - 1))
    {x : Int × Int} :
    JoinedAt gs row i x ↔ x = (unitStart first g.1, unitEnd last g.2) := by
  constructor
  · rintro ⟨crossed', hi', g', hg', hlt₁, hlt₂, first', hfirst', hshows₁, last', hlast', hshows₂, rfl⟩
    obtain rfl : crossed = crossed' := Option.some_inj.1 (hi.symm.trans hi')
    obtain rfl : g = g' := Option.some_inj.1
      ((gs.rangeAt_eq_some.2 ⟨hg, hlt, hlt'⟩).symm.trans (gs.rangeAt_eq_some.2 ⟨hg', hlt₁, hlt₂⟩))
    rw [htiles.shows_unique hfirst hfirst' hshows hshows₁,
      htiles.shows_unique hlast hlast' hshows' hshows₂]
  · rintro rfl
    exact ⟨crossed, hi, g, hg, hlt, hlt', first, hfirst, hshows, last, hlast, hshows', rfl⟩

/-- What the loop over the segment boundaries keeps, before boundary `i`: the units found are
    those that cross an earlier boundary, and `handled` is the end of the last one. -/
structure Handled (gs : Graphemes) (row : ProjectedRow) (replaced : Pairs) (i : Nat)
    (st : Pairs × Nat) : Prop where
  mem : ∀ x, x ∈ st.1.list ↔ x ∈ replaced.list ∨ ∃ j < i, JoinedAt gs row j x ∧ x.1 < x.2
  handled : st.2 = 0 ∨ ∃ j < i, ∃ crossed, row.segments[j]? = some crossed ∧
    ∃ g ∈ gs.spans row.text, g.1 < crossed.displayEnd ∧ crossed.displayEnd < g.2 ∧ g.2 = st.2

/-- The step of one boundary handles it: joined with the last pair, replaced or put on its own. -/
theorem handled_boundaryStep {replaced : Pairs} {i : Nat} {st : Pairs × Nat}
    (hi : i < row.segments.length) (h : Handled gs row replaced i st) :
    Handled gs row replaced (i + 1) (boundaryStep gs row st i) := by
  obtain ⟨pairs, handled⟩ := st
  obtain ⟨hmem, hhandled⟩ := h
  have hcrossed : row.segments[i]? = some row.segments[i] := List.getElem?_eq_getElem hi
  generalize row.segments[i] = crossed at hcrossed
  -- Nothing new crosses the boundary, or what does was found at an earlier one.
  have hkeep : (∀ x, JoinedAt gs row i x → x.1 < x.2 → x ∈ pairs.list) →
      Handled gs row replaced (i + 1) (pairs, handled) := by
    intro hold
    refine ⟨fun x => ?_, ?_⟩
    · constructor
      · intro hx
        rcases (hmem x).1 hx with hx | ⟨j, hj, hx⟩
        · exact Or.inl hx
        · exact Or.inr ⟨j, hj.trans (Nat.lt_succ_self i), hx⟩
      · rintro (hx | ⟨j, hj, hx⟩)
        · exact (hmem x).2 (Or.inl hx)
        · rcases Nat.lt_succ_iff_lt_or_eq.1 hj with hj | rfl
          · exact (hmem x).2 (Or.inr ⟨j, hj, hx⟩)
          · exact hold x hx.1 hx.2
    · rcases hhandled with h0 | ⟨j, hj, hrest⟩
      · exact Or.inl h0
      · exact Or.inr ⟨j, hj.trans (Nat.lt_succ_self i), hrest⟩
  rw [boundaryStep]
  simp only [hcrossed, Option.map_some, Option.getD_some]
  split
  · next hskip =>
    refine hkeep fun x hx hlt => ?_
    obtain ⟨crossed', hi', g, hg, hg₁, hg₂, first, hfirst, hshows, last, hlast, hshows', rfl⟩ := hx
    obtain rfl : crossed = crossed' := Option.some_inj.1 (hcrossed.symm.trans hi')
    have hstop := gs.stop_le_of_mem_spans hg
    rcases hskip with h0 | hlen | hbefore
    · omega
    · omega
    · -- The boundary lies in the grapheme handled last, which crosses an earlier one.
      rcases hhandled with h0 | ⟨j, hj, old, hold, g', hg', hlt₁, hlt₂, hend⟩
      · have h0 : handled = 0 := h0
        omega
      · have horder : old.displayEnd ≤ crossed.displayEnd := by
          obtain ⟨hlen, rfl⟩ := List.getElem?_eq_some_iff.1 hold
          obtain ⟨hlen', rfl⟩ := List.getElem?_eq_some_iff.1 hcrossed
          exact htiles.displayEnd_mono hj.le hlen'
        obtain rfl : g = g' := Option.some_inj.1 ((gs.rangeAt_eq_some.2 ⟨hg, hg₁, hg₂⟩).symm.trans
          (gs.rangeAt_eq_some.2 ⟨hg', hlt₁.trans_le horder, hend ▸ hbefore⟩))
        exact (hmem _).2 (Or.inr ⟨j, hj, ⟨old, hold, g, hg', hlt₁, hlt₂, first, hfirst, hshows, last,
          hlast, hshows', rfl⟩, hlt⟩)
  · split
    · next hlow =>
      refine hkeep fun x hx _ => ?_
      obtain ⟨crossed', hi', g, hg, hg₁, hg₂, -⟩ := hx
      obtain rfl : crossed = crossed' := Option.some_inj.1 (hcrossed.symm.trans hi')
      simp only [keepsApart, Bool.and_eq_true, Bool.or_eq_true, decide_eq_true_eq, bne_iff_ne,
        ne_eq] at hlow
      have := gs.low_of_mem_spans hg hg₁ hg₂ hlow.1.1 hlow.1.2
      rcases hlow.2 with h | h
      · exact absurd this.1 h
      · exact absurd this.2 h
    · cases hrange : gs.rangeAt row.text crossed.displayEnd with
      | none =>
        refine hkeep fun x hx _ => ?_
        obtain ⟨crossed', hi', g, hg, hg₁, hg₂, -⟩ := hx
        obtain rfl : crossed = crossed' := Option.some_inj.1 (hcrossed.symm.trans hi')
        have := gs.rangeAt_eq_some.2 ⟨hg, hg₁, hg₂⟩
        rw [hrange] at this
        cases this
      | some g =>
        obtain ⟨hg, hlt, hlt'⟩ := gs.rangeAt_eq_some.1 hrange
        obtain ⟨first, hfirst, hshows, last, hlast, hshows', hfound, hfound'⟩ :=
          found_segments htiles hcrossed hg hlt hlt'
        simp only [hfound, hfound']
        refine ⟨fun x => ?_, Or.inr ⟨i, Nat.lt_succ_self i, crossed, hcrossed, g, hg, hlt, hlt', rfl⟩⟩
        have hunit := @joinedAt_unique gs row htiles i crossed hcrossed g hg hlt hlt' first last
          hfirst hshows hlast hshows' x
        have hadd : (x ∈ (if unitStart first g.1 < unitEnd last g.2 then
            pairs.addByEnds (unitStart first g.1, unitEnd last g.2) else pairs).list) ↔
            x ∈ pairs.list ∨ (JoinedAt gs row i x ∧ x.1 < x.2) := by
          rw [hunit]
          split
          · next hne =>
            rw [Pairs.addByEnds, Pairs.add, List.mem_append, List.mem_singleton]
            refine or_congr_right ⟨fun h => ⟨h, ?_⟩, And.left⟩
            rw [h]
            exact hne
          · next hne =>
            refine ⟨Or.inl, fun h => h.resolve_right fun h' => hne ?_⟩
            rw [h'.1] at h'
            exact h'.2
        refine hadd.trans ?_
        rw [hmem, or_assoc]
        refine or_congr_right ⟨?_, ?_⟩
        · rintro (⟨j, hj, hx⟩ | hx)
          · exact ⟨j, hj.trans (Nat.lt_succ_self i), hx⟩
          · exact ⟨i, Nat.lt_succ_self i, hx⟩
        · rintro ⟨j, hj, hx⟩
          rcases Nat.lt_succ_iff_lt_or_eq.1 hj with hj | rfl
          · exact Or.inl ⟨j, hj, hx⟩
          · exact Or.inr hx

/-- The units of a row are added to those before. -/
theorem mem_rowUnits {pairs : Pairs} {x : Int × Int} :
    x ∈ (rowUnits gs pairs row).list ↔ x ∈ pairs.list ∨ (AtomicUnit gs row x ∧ x.1 < x.2) := by
  have hreplaced : ∀ (segments : List Segment) (pairs : Pairs),
      x ∈ (segments.foldl (fun pairs s =>
        if s.exact = false ∧ s.sourceStart < s.sourceEnd then
          pairs.addByEnds (s.sourceStart, s.sourceEnd)
        else pairs) pairs).list ↔ x ∈ pairs.list ∨
          (∃ s ∈ segments, s.exact = false ∧ x = (s.sourceStart, s.sourceEnd)) ∧ x.1 < x.2 := by
    intro segments
    induction segments with
    | nil => simp
    | cons s segments ih =>
      intro pairs
      rw [List.foldl_cons, ih, List.exists_mem_cons_iff, or_and_right, ← or_assoc]
      refine or_congr_left ?_
      by_cases hs : s.exact = false ∧ s.sourceStart < s.sourceEnd
      · rw [if_pos hs, Pairs.addByEnds, Pairs.add, List.mem_append, List.mem_singleton]
        refine or_congr_right ⟨?_, fun h => h.1.2⟩
        rintro rfl
        exact ⟨⟨hs.1, rfl⟩, hs.2⟩
      · rw [if_neg hs]
        refine ⟨Or.inl, fun h => h.resolve_right ?_⟩
        rintro ⟨⟨hexact, rfl⟩, hlt⟩
        exact hs ⟨hexact, hlt⟩
  -- What the loop adds is said by the segments it has been through.
  have hwalk : ∀ n ≤ row.segments.length, ∀ replaced : Pairs, Handled gs row replaced n
      ((List.range n).foldl (boundaryStep gs row) (replaced, 0)) := by
    intro n
    induction n with
    | zero =>
      intro _ replaced
      exact ⟨fun x => by simp, Or.inl rfl⟩
    | succ n ih =>
      intro hn replaced
      rw [List.range_succ, List.foldl_append]
      exact handled_boundaryStep htiles hn (ih (Nat.le_of_succ_le hn) replaced)
  rw [rowUnits, (hwalk _ le_rfl _).mem, hreplaced, atomicUnit_iff, or_and_right, or_assoc]
  refine or_congr_right (or_congr_right ?_)
  constructor
  · rintro ⟨j, hj, hx, hlt⟩
    exact ⟨⟨j, hj, hx⟩, hlt⟩
  · rintro ⟨⟨j, hj, hx⟩, hlt⟩
    exact ⟨j, hj, hx, hlt⟩

end

/-- The pairs of rows are what the caret cannot go into, where that is not empty. -/
theorem mem_rowAtomicPairs {gs : Graphemes} {p : Projection}
    (hrows : ∀ r ∈ p.rows, r.Shape p.model) {x : Int × Int} :
    x ∈ p.rowAtomicPairs gs ↔ (∃ row ∈ p.rows, AtomicUnit gs row x) ∧ x.1 < x.2 := by
  have hfold : ∀ (rows : List ProjectedRow) (pairs : Pairs), (∀ r ∈ rows, r.Shape p.model) →
      (x ∈ (rows.foldl (rowUnits gs) pairs).list ↔
        x ∈ pairs.list ∨ (∃ row ∈ rows, AtomicUnit gs row x) ∧ x.1 < x.2) := by
    intro rows
    induction rows with
    | nil => simp
    | cons row rows ih =>
      intro pairs hall
      rw [List.foldl_cons, ih _ fun r hr => hall r (List.mem_cons_of_mem _ hr),
        mem_rowUnits (hall row List.mem_cons_self).tiles, List.exists_mem_cons_iff, or_and_right,
        or_assoc]
  rw [rowAtomicPairs, Pairs.mem_ordered, hfold _ _ hrows]
  exact or_iff_right List.not_mem_nil

/-! ## Blocked intervals -/

section

variable {gs : Graphemes} {p : Projection} (hm : p.model.SchemaConforms p.source)
  (hrows : ∀ r ∈ p.rows, r.Shape p.model)

include hm

/-- The three lists of blocked pairs are sorted by their starts. -/
theorem sorted_blocked :
    ∀ s ∈ [p.hiddenPairs, p.escapePairs, p.rowAtomicPairs gs], Intervals.ByStart s := by
  intro s hs
  simp only [List.mem_cons, List.not_mem_nil, or_false] at hs
  rcases hs with rfl | rfl | rfl
  · exact Pairs.byStart_ordered _
  · exact byStart_escapes_walkTo hm.runOrder
  · exact Pairs.byStart_ordered _

include hrows

/-- The three lists of blocked pairs go forward. -/
theorem forward_blocked :
    ∀ s ∈ [p.hiddenPairs, p.escapePairs, p.rowAtomicPairs gs], Intervals.Forward s := by
  intro s hs x hx
  simp only [List.mem_cons, List.not_mem_nil, or_false] at hs
  rcases hs with rfl | rfl | rfl
  · obtain ⟨_, _, _, hlt⟩ := (mem_hiddenPairs hm).1 hx
    exact hlt.le
  · obtain ⟨_, _, _, _, hlt⟩ := mem_escapePairs.1 hx
    exact hlt.le
  · exact ((mem_rowAtomicPairs hrows).1 hx).2.le

/-- The blocked intervals do not overlap. -/
theorem apart_blockedPairs : Intervals.Apart false (p.blockedPairs gs) :=
  (Intervals.apart_merge false (sorted_blocked hm) (forward_blocked hm hrows)).1

/-- No caret is strictly inside a blocked interval exactly when it is inside no hidden delimiter
    of a run, no escape and no atomic unit. -/
theorem strictlyInside_blockedPairs {o : Int} :
    Intervals.StrictlyInside o (p.blockedPairs gs) ↔ ∃ x : Int × Int, (x.1 < o ∧ o < x.2) ∧
      ((∃ r < p.model.runCount, x = openingOf p.model r ∨ x = closingOf p.model r) ∨
        (∃ r < p.model.runCount, p.model.runKind r = RunKind.escape ∧ x = escapeOf p.model r) ∨
        ∃ row ∈ p.rows, AtomicUnit gs row x) := by
  rw [blockedPairs, Intervals.strictlyInside_merge (sorted_blocked hm)]
  simp only [List.mem_cons, List.not_mem_nil, or_false, exists_eq_or_imp, exists_eq_left,
    Intervals.StrictlyInside, mem_hiddenPairs hm, mem_escapePairs, mem_rowAtomicPairs hrows,
    HiddenBefore, EscapeBefore]
  constructor
  · rintro (⟨x, ⟨r, hr, hx, _⟩, ho⟩ | ⟨x, ⟨r, hr, hk, hx, _⟩, ho⟩ | ⟨x, ⟨hx, _⟩, ho⟩)
    · exact ⟨x, ho, Or.inl ⟨r, hr, hx⟩⟩
    · exact ⟨x, ho, Or.inr (Or.inl ⟨r, hr, hk, hx⟩)⟩
    · exact ⟨x, ho, Or.inr (Or.inr hx)⟩
  · rintro ⟨x, ho, ⟨r, hr, hx⟩ | ⟨r, hr, hk, hx⟩ | hx⟩
    · exact Or.inl ⟨x, ⟨r, hr, hx, ho.1.trans ho.2⟩, ho⟩
    · exact Or.inr (Or.inl ⟨x, ⟨r, hr, hk, hx, ho.1.trans ho.2⟩, ho⟩)
    · exact Or.inr (Or.inr ⟨x, ⟨hx, ho.1.trans ho.2⟩, ho⟩)

end

/-! ## Caret spans -/

/-- A span of a line is one of a row. -/
theorem mem_lineSpans {p : Projection} {line : Nat} {x : Int × Int} (h : x ∈ p.lineSpans line) :
    ∃ row ∈ p.rows, x ∈ rowSpans p.model line row := by
  obtain ⟨r, _, hr⟩ := List.mem_flatMap.1 ((List.mem_insertionSort _).1 h)
  cases hrow : p.rows[r]? with
  | none =>
    rw [hrow] at hr
    cases hr
  | some row =>
    rw [hrow] at hr
    exact ⟨row, List.mem_of_getElem? hrow, hr⟩

/-- The caret spans of a line are forward, and lie on the line. -/
theorem rowSpans_onLine {m : RenderModel} {row : ProjectedRow} (hrow : row.Shape m) {line : Nat}
    {x : Int × Int} (h : x ∈ rowSpans m line row) :
    x.1 ≤ x.2 ∧ ∀ o, x.1 ≤ o → o ≤ x.2 → m.lineAt o = line := by
  rw [rowSpans] at h
  split at h
  swap
  · cases h
  next hline =>
  have honLine := hrow.lines.onLine (line - row.firstLine)
  rw [Nat.add_sub_cancel' hline.1] at honLine
  rcases List.mem_append.1 h with h | h
  · split at h
    swap
    · cases h
    next hs =>
    rw [List.mem_singleton.1 h]
    generalize row.contentStarts.getD (line - row.firstLine) (-1) = s at *
    generalize row.contentEnds.getD (line - row.firstLine) (-1) = e at *
    have hmax : (if e < s then s else e) = max s e := by
      by_cases hes : e < s
      · rw [if_pos hes, max_eq_left hes.le]
      · rw [if_neg hes, max_eq_right (not_lt.1 hes)]
    rw [hmax]
    exact ⟨le_max_left _ _, honLine hs⟩
  · split at h
    swap
    · cases h
    next hanchor =>
    -- The anchor of a fenced block with no body line.
    rw [List.mem_singleton.1 h]
    exact ⟨le_rfl, fun o h₁ h₂ => by rw [le_antisymm h₂ h₁]; exact hanchor.2.symm⟩

/-- Past the last line there are no spans. -/
theorem lineSpans_of_le {p : Projection} {line : Nat} (h : p.rowsByLine.length ≤ line) :
    p.lineSpans line = [] := by
  rw [lineSpans, List.getD_eq_default _ _ h]
  rfl

/-- The caret is held to no spans where no line has any. -/
theorem hasCaretSpans_eq_false {p : Projection} :
    p.hasCaretSpans = false ↔ ∀ line, p.lineSpans line = [] := by
  rw [hasCaretSpans, List.any_eq_false]
  simp only [List.mem_range, Bool.not_eq_true', Bool.not_eq_false, List.isEmpty_iff]
  refine ⟨fun h line => ?_, fun h line _ => h line⟩
  by_cases hline : line < p.rowsByLine.length
  · exact h line hline
  · exact lineSpans_of_le (not_lt.1 hline)

/-- A caret may sit in a span of some line; without any span, at the end of the source. -/
def InSpan (p : Projection) (o : Int) : Prop :=
  (∃ line, Intervals.Inside o (p.lineSpans line)) ∨
    (∀ line, p.lineSpans line = []) ∧ o = p.source.length

section

variable {gs : Graphemes} {p : Projection} (hrows : ∀ r ∈ p.rows, r.Shape p.model)

include hrows

/-- What is inside a line's span is on the line. -/
theorem inside_lineSpans {line : Nat} {o : Int} (h : Intervals.Inside o (p.lineSpans line)) :
    p.model.lineAt o = line := by
  obtain ⟨x, hx, h₁, h₂⟩ := h
  obtain ⟨row, hrow, hmem⟩ := mem_lineSpans hx
  exact (rowSpans_onLine (hrows row hrow) hmem).2 o h₁ h₂

/-- The spans of all lines decide as the spans of the offset's own line do. -/
theorem inSpan_iff {o : Int} : p.InSpan o ↔
    Intervals.Inside o (p.lineSpans (p.model.lineAt o).toNat) ∨
      p.hasCaretSpans = false ∧ o = p.source.length := by
  rw [InSpan, hasCaretSpans_eq_false]
  refine or_congr_left ⟨fun ⟨line, h⟩ => ?_, fun h => ⟨_, h⟩⟩
  rw [inside_lineSpans hrows h, Int.toNat_natCast]
  exact h

/-- The spans of the caret are apart. -/
theorem apart_caretSpans : Intervals.Apart true p.caretSpans := by
  rw [caretSpans]
  split
  · refine (Intervals.apart_merge true (fun s hs => ?_) fun s hs x hx => ?_).1
    · rw [List.mem_singleton.1 hs]
      exact Intervals.byStart_sort _
    · rw [List.mem_singleton.1 hs] at hx
      obtain ⟨line, _, hline⟩ := List.mem_flatMap.1 (Intervals.mem_sort.1 hx)
      obtain ⟨row, hrow, hmem⟩ := mem_lineSpans hline
      exact (rowSpans_onLine (hrows row hrow) hmem).1
  · exact List.pairwise_singleton _ _

omit hrows in
/-- The merged spans of all lines. -/
theorem inside_caretSpans (hcount : p.rowsByLine.length = p.model.lineCount) {o : Int} :
    Intervals.Inside o p.caretSpans ↔ p.InSpan o := by
  rw [caretSpans, InSpan]
  split
  · next hspans =>
    have hnone : ¬((∀ line, p.lineSpans line = []) ∧ o = p.source.length) := fun h => by
      rw [hasCaretSpans_eq_false.2 h.1] at hspans
      cases hspans
    rw [Intervals.inside_merge fun s hs => by
      rw [List.mem_singleton.1 hs]
      exact Intervals.byStart_sort _]
    rw [or_iff_left hnone]
    simp only [List.mem_singleton, exists_eq_left]
    rw [Intervals.inside_congr fun _ => Intervals.mem_sort]
    constructor
    · rintro ⟨x, hx, ho⟩
      obtain ⟨line, _, hline⟩ := List.mem_flatMap.1 hx
      exact ⟨line, x, hline, ho⟩
    · rintro ⟨line, x, hx, ho⟩
      refine ⟨x, List.mem_flatMap.2 ⟨line, List.mem_range.2 ?_, hx⟩, ho⟩
      by_contra hge
      rw [lineSpans_of_le (hcount ▸ not_lt.1 hge)] at hx
      cases hx
  · next hspans =>
    have hempty := hasCaretSpans_eq_false.1 (Bool.eq_false_iff.2 hspans)
    rw [or_iff_right fun ⟨line, h⟩ => by
      rw [hempty line] at h
      exact Intervals.not_inside_nil o h]
    rw [Intervals.inside_cons, or_iff_left (Intervals.not_inside_nil o)]
    exact ⟨fun h => ⟨hempty, le_antisymm h.2 h.1⟩, fun h => ⟨h.2.ge, h.2.le⟩⟩

end

/-! ## The two computations -/

/-- The linear merge lists the boundaries that are strictly inside no blocked interval and in a
    caret span. -/
theorem mem_considerAll {blocked spans : List (Int × Int)} {boundaries : List Int}
    (hblocked : Intervals.Apart false blocked) (hspans : Intervals.Apart true spans)
    (hsorted : boundaries.Pairwise (· ≤ ·)) {o : Int} :
    o ∈ considerAll blocked spans boundaries ↔
      o ∈ boundaries ∧ ¬Intervals.StrictlyInside o blocked ∧ Intervals.Inside o spans := by
  induction boundaries generalizing blocked spans with
  | nil => simp [considerAll]
  | cons x boundaries ih =>
    obtain ⟨hx, hsorted⟩ := List.pairwise_cons.1 hsorted
    have hblocked' : Intervals.Apart false (blocked.dropWhile fun b => b.2 ≤ x) :=
      hblocked.sublist (List.dropWhile_sublist _)
    have hspans' : Intervals.Apart true (spans.dropWhile fun s => s.2 < x) :=
      hspans.sublist (List.dropWhile_sublist _)
    -- The cursors lose nothing for the boundaries that are left.
    have hleft : ∀ y ∈ boundaries, (Intervals.StrictlyInside y (blocked.dropWhile fun b => b.2 ≤ x) ↔
        Intervals.StrictlyInside y blocked) ∧
        (Intervals.Inside y (spans.dropWhile fun s => s.2 < x) ↔ Intervals.Inside y spans) :=
      fun y hy => ⟨Intervals.strictlyInside_dropWhile (hx y hy), Intervals.inside_dropWhile (hx y hy)⟩
    have hhead : ((blocked.dropWhile fun b => b.2 ≤ x).head?.any fun b => b.1 < x ∧ x < b.2) = true ↔
        Intervals.StrictlyInside x blocked := by
      rw [← Intervals.strictlyInside_dropWhile le_rfl]
      cases hd : blocked.dropWhile fun b => decide (b.2 ≤ x) with
      | nil => simp
      | cons b rest =>
        have hiff := Intervals.strictlyInside_iff_head (x := x) hblocked
        rw [← Intervals.strictlyInside_dropWhile le_rfl, hd] at hiff
        have hnot := List.head?_dropWhile_not (fun b : Int × Int => decide (b.2 ≤ x)) blocked
        rw [hd] at hnot
        simp only [List.head?_cons, decide_eq_false_iff_not, not_le] at hnot
        rw [hiff]
        simp [hnot]
    have hhead' : ((spans.dropWhile fun s => s.2 < x).head?.any fun s => s.1 ≤ x) = true ↔
        Intervals.Inside x spans := by
      rw [Intervals.inside_iff_head hspans]
      cases (spans.dropWhile fun s => decide (s.2 < x)).head? <;> simp
    rw [considerAll]
    dsimp only
    rw [List.mem_cons]
    by_cases hin : Intervals.StrictlyInside x blocked
    · rw [if_pos (hhead.2 hin), ih hblocked' hspans hsorted]
      constructor
      · rintro ⟨ho, hb, hs⟩
        exact ⟨Or.inr ho, (hleft o ho).1.not.1 hb, hs⟩
      · rintro ⟨rfl | ho, hb, hs⟩
        · exact absurd hin hb
        · exact ⟨ho, (hleft o ho).1.not.2 hb, hs⟩
    · rw [if_neg (mt hhead.1 hin)]
      have hrest : o ∈ considerAll (blocked.dropWhile fun b => b.2 ≤ x)
          (spans.dropWhile fun s => s.2 < x) boundaries ↔ o ∈ boundaries ∧
            ¬Intervals.StrictlyInside o blocked ∧ Intervals.Inside o spans := by
        rw [ih hblocked' hspans' hsorted]
        refine and_congr_right fun ho => ?_
        rw [(hleft o ho).1, (hleft o ho).2]
      by_cases hspan : Intervals.Inside x spans
      · rw [if_pos (hhead'.2 hspan), List.mem_cons, hrest]
        constructor
        · rintro (rfl | ⟨ho, h⟩)
          · exact ⟨Or.inl rfl, hin, hspan⟩
          · exact ⟨Or.inr ho, h⟩
        · rintro ⟨rfl | ho, h⟩
          · exact Or.inl rfl
          · exact Or.inr ⟨ho, h⟩
      · rw [if_neg (mt hhead'.1 hspan), hrest]
        constructor
        · rintro ⟨ho, h⟩
          exact ⟨Or.inr ho, h⟩
        · rintro ⟨rfl | ho, h⟩
          · exact absurd h.2 hspan
          · exact ⟨ho, h⟩

/-- The search of `isLegal` for a blocked interval around the offset. -/
theorem search_blocked {blocked : List (Int × Int)} (hapart : Intervals.Apart false blocked)
    (hforward : Intervals.Forward blocked) {o : Int} {lo : Nat}
    (hlo : Bisect.bisectFirst (fun mid => (blocked.getD mid (0, 0)).1 < o) 0 blocked.length = lo) :
    0 < lo ∧ o < (blocked.getD (lo - 1) (0, 0)).2 ↔ Intervals.StrictlyInside o blocked := by
  have hget : ∀ i (hi : i < blocked.length), blocked.getD i (0, 0) = blocked[i] :=
    fun i hi => List.getD_eq_getElem _ _ hi
  have hmono : ∀ i j, 0 ≤ i → i ≤ j → j < blocked.length →
      decide ((blocked.getD j (0, 0)).1 < o) = true →
      decide ((blocked.getD i (0, 0)).1 < o) = true := by
    intro i j _ hij hj h
    rw [decide_eq_true_eq, hget _ hj] at h
    rw [decide_eq_true_eq, hget i (by omega)]
    rcases Nat.eq_or_lt_of_le hij with rfl | hlt
    · exact h
    · have hpair := List.pairwise_iff_getElem.1 hapart i j (by omega) hj hlt
      rw [Intervals.joins_false, not_lt] at hpair
      exact (hforward _ (List.getElem_mem _)).trans_lt (hpair.trans_lt h)
  obtain ⟨-, hle, hspec⟩ := Bisect.bisectFirst_spec (Nat.zero_le _) hmono
  rw [hlo] at hle hspec
  rw [Intervals.strictlyInside_iff_find hapart hle
    (fun i hi hlt => by
      have := (hspec i (Nat.zero_le i) hi).2 hlt
      rwa [decide_eq_true_eq, hget i hi] at this)
    fun i hi hge => by
      have := mt (hspec i (Nat.zero_le i) hi).1 (not_lt.2 hge)
      rwa [decide_eq_true_eq, hget i hi, not_lt] at this]
  constructor
  · rintro ⟨hpos, ho⟩
    have hi : lo - 1 < blocked.length := by omega
    exact ⟨_, hpos, List.getElem?_eq_getElem hi, hget _ hi ▸ ho⟩
  · rintro ⟨x, hpos, hx, ho⟩
    refine ⟨hpos, ?_⟩
    rw [List.getD_eq_getElem?_getD, hx]
    exact ho

/-- Where the caret may sit. -/
structure CaretAt (gs : Graphemes) (p : Projection) (o : Int) : Prop where
  nonneg : 0 ≤ o
  le_length : o ≤ p.source.length
  boundary : o.toNat ∈ gs.boundaries p.source
  inSpan : p.InSpan o
  delimiters : ∀ r < p.model.runCount,
    ¬(p.model.runStart r < o ∧ o < p.model.runContentStart r) ∧
      ¬(p.model.runContentEnd r < o ∧ o < p.model.runEnd r)
  escapes : ∀ r < p.model.runCount, p.model.runKind r = RunKind.escape →
    ¬(p.model.runStart r < o ∧ o < p.model.runContentEnd r)
  units : ∀ row ∈ p.rows, ∀ x, AtomicUnit gs row x → ¬(x.1 < o ∧ o < x.2)

section

variable {gs : Graphemes} {p : Projection} (hm : p.model.SchemaConforms p.source)
  (hrows : ∀ r ∈ p.rows, r.Shape p.model)

include hm hrows

/-- A caret can be at a boundary that is in a span and blocked by no pair. -/
theorem caretAt_iff {o : Int} : CaretAt gs p o ↔ (0 ≤ o ∧ o ≤ p.source.length) ∧
    o.toNat ∈ gs.boundaries p.source ∧ p.InSpan o ∧
      ¬Intervals.StrictlyInside o (p.blockedPairs gs) := by
  rw [strictlyInside_blockedPairs hm hrows]
  constructor
  · intro h
    refine ⟨⟨h.nonneg, h.le_length⟩, h.boundary, h.inSpan, ?_⟩
    rintro ⟨x, ho, ⟨r, hr, rfl | rfl⟩ | ⟨r, hr, hkind, rfl⟩ | ⟨row, hrow, hx⟩⟩
    · exact (h.delimiters r hr).1 ho
    · exact (h.delimiters r hr).2 ho
    · exact h.escapes r hr hkind ho
    · exact h.units row hrow x hx ho
  · rintro ⟨⟨h₀, h₁⟩, hboundary, hspan, hnot⟩
    exact {
      nonneg := h₀
      le_length := h₁
      boundary := hboundary
      inSpan := hspan
      delimiters := fun r hr => ⟨fun ho => hnot ⟨openingOf _ r, ho, Or.inl ⟨r, hr, Or.inl rfl⟩⟩,
        fun ho => hnot ⟨closingOf _ r, ho, Or.inl ⟨r, hr, Or.inr rfl⟩⟩⟩
      escapes := fun r hr hkind ho =>
        hnot ⟨escapeOf _ r, ho, Or.inr (Or.inl ⟨r, hr, hkind, rfl⟩)⟩
      units := fun row hrow x hx ho => hnot ⟨x, ho, Or.inr (Or.inr ⟨row, hrow, hx⟩)⟩ }

/-- `isLegal` decides by search, over the spans of the offset's own line. -/
theorem isLegal_iff {o : Int} : p.isLegal gs o = true ↔ CaretAt gs p o := by
  rw [caretAt_iff hm hrows, isLegal]
  by_cases hrange : o < 0 ∨ p.source.length < o
  · rw [if_pos hrange]
    refine ⟨fun h => absurd h Bool.false_ne_true, fun h => ?_⟩
    omega
  rw [if_neg hrange]
  dsimp only
  have hforward : Intervals.Forward (p.blockedPairs gs) :=
    (Intervals.apart_merge false (sorted_blocked hm) (forward_blocked hm hrows)).2
  have hsearch := search_blocked (apart_blockedPairs hm hrows) hforward (o := o) rfl
  by_cases hin : Intervals.StrictlyInside o (p.blockedPairs gs)
  · rw [if_pos (hsearch.2 hin)]
    exact ⟨fun h => absurd h Bool.false_ne_true, fun h => absurd hin h.2.2.2⟩
  rw [if_neg (mt hsearch.1 hin)]
  have hspan : (!((p.lineSpans (p.model.lineAt o).toNat).any fun s => s.1 ≤ o && o ≤ s.2) &&
      (p.hasCaretSpans || o != p.source.length)) = true ↔ ¬p.InSpan o := by
    rw [inSpan_iff hrows]
    cases p.hasCaretSpans <;> simp [Intervals.Inside]
  by_cases hspans : p.InSpan o
  · rw [if_neg (mt hspan.1 (not_not.2 hspans)), Option.isNone_iff_eq_none,
      gs.rangeAt_eq_none (by omega)]
    exact ⟨fun h => ⟨by omega, h, hspans, hin⟩, fun h => h.2.1⟩
  · rw [if_pos (hspan.2 hspans)]
    exact ⟨fun h => absurd h Bool.false_ne_true, fun h => absurd h.2.2.1 hspans⟩

/-- `legalOffsets` lists them by a linear merge over all lines. -/
theorem mem_legalOffsets (hcount : p.rowsByLine.length = p.model.lineCount) {o : Int} :
    o ∈ p.legalOffsets gs ↔ CaretAt gs p o := by
  have hsorted : ((gs.boundaries p.source).map fun (x : Nat) => (x : Int)).Pairwise (· ≤ ·) :=
    List.pairwise_map.2 ((Graphemes.pairwise_ends 0 _).imp Int.ofNat_le.2)
  rw [caretAt_iff hm hrows, legalOffsets,
    mem_considerAll (apart_blockedPairs hm hrows) (apart_caretSpans hrows) hsorted,
    inside_caretSpans hcount, List.mem_map]
  constructor
  · rintro ⟨⟨x, hx, rfl⟩, hin, hspan⟩
    have hle : x ≤ p.source.length := gs.le_length_of_mem_boundaries hx
    exact ⟨⟨Int.natCast_nonneg x, Int.ofNat_le.2 hle⟩, by rwa [Int.toNat_natCast], hspan, hin⟩
  · rintro ⟨⟨h₀, _⟩, hx, hspan, hin⟩
    exact ⟨⟨o.toNat, hx, Int.toNat_of_nonneg h₀⟩, hin, hspan⟩

end

end Projection

/-- A projection that is built has its rows for every line. -/
theorem Built.rowsByLine_length {gs : Graphemes} {p : Projection} (h : Built gs p) :
    p.rowsByLine.length = p.model.lineCount := by
  cases h <;>
  · simp only [Projection.of, Projection.ofRows, List.length_map, List.length_range]

/-- Caret legality has one meaning: where the caret may sit, what `isLegal` decides by search
    and what `legalOffsets` lists agree, for every projection of a conforming model. -/
theorem Projection.caret_legality {gs : Graphemes} {p : Projection} (h : Built gs p)
    (hm : p.model.SchemaConforms p.source) (o : Int) :
    (p.isLegal gs o = true ↔ CaretAt gs p o) ∧ (o ∈ p.legalOffsets gs ↔ CaretAt gs p o) :=
  ⟨isLegal_iff hm (h.shape hm), mem_legalOffsets hm (h.shape hm) h.rowsByLine_length⟩

/-- The model of two paragraphs conforms to the schema. -/
theorem twoParagraphs_schemaConforms :
    (twoParagraphs 5).SchemaConforms (Text.ofString "a\n\nbc") :=
  { twoParagraphs_conforms.2 with
    parent := by decide
    blockStart := by decide
    contentLine := by decide
    lineOrder := by decide
    afterDefinitions := by decide
    runOrder := by decide
    runRange := by decide }

/-- Between the two letters of the second paragraph. -/
theorem Projection.caret_legality_letters :
    CaretAt .units (Projection.of .units (twoParagraphs 5) (Text.ofString "a\n\nbc") {} none) 4 ∧
      4 ∈ (Projection.of .units (twoParagraphs 5) (Text.ofString "a\n\nbc") {} none).legalOffsets
        .units := by
  have hbuilt : Built .units (Projection.of .units (twoParagraphs 5) (Text.ofString "a\n\nbc") {} none) :=
    Built.anew twoParagraphs_conforms.2 {}
  have h := Projection.caret_legality hbuilt twoParagraphs_schemaConforms 4
  have hcaret := h.1.1 (by decide)
  exact ⟨hcaret, h.2.2 hcaret⟩

end Flark
