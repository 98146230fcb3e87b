import Flark.Kernel.LeafRow

/-!
# Rows that move

A leaf whose records are those of another leaf, all moved by the same `Shift`, over source
and lines that the two share there (`Carries`), has that leaf's row, moved: each function
that builds the row commutes with the move.

* `inlineRow_shift`, `literalRow_shift`: the row of a moved leaf.
-/

namespace Flark

/-- How far the records of a leaf move: source offsets, lines and run indexes. -/
structure Shift where
  offset : Int
  line : Int
  run : Int

namespace Shift

variable (s : Shift)

def pair (h : Int × Int) : Int × Int := (h.1 + s.offset, h.2 + s.offset)

def content (c : ContentView) : ContentView :=
  { c with
    line := c.line + s.line
    start := c.start + s.offset
    stop := c.stop + s.offset
    prefixStart := c.prefixStart + s.offset }

def runView (r : RunView) : RunView :=
  { r with
    index := r.index + s.run
    start := r.start + s.offset
    stop := r.stop + s.offset
    contentStart := r.contentStart + s.offset
    contentEnd := r.contentEnd + s.offset
    parent := r.parent.map (· + s.run) }

def leaf (l : LeafRecords) : LeafRecords :=
  { l with
    start := l.start + s.offset
    stop := l.stop + s.offset
    firstLine := l.firstLine + s.line
    content := l.content.map s.content
    runs := l.runs.map s.runView
    codeInfoStart := moveOffset s.offset l.codeInfoStart
    codeInfoEnd := moveOffset s.offset l.codeInfoEnd }

def out (o : Out) : Out := ⟨o.text, o.segments.map (Segment.moved s.offset s.run)⟩

def breaks (b : Breaks) : Breaks where
  starts := b.starts.map fun e => (e.1 + s.line, e.2 + s.offset)
  codes := b.codes.map fun e => (e.1 + s.line, e.2 + s.run)

def styles (styles : List (Int × Nat)) : List (Int × Nat) :=
  styles.map fun e => (e.1 + s.run, e.2)

def context (cx : InlineContext) : InlineContext where
  first := cx.first + s.line
  lineCount := cx.lineCount
  covered := cx.covered.map s.pair
  styles := s.styles cx.styles
  breaks := s.breaks cx.breaks

def inlineState (st : InlineState) : InlineState where
  out := s.out st.out
  sourceStart := moveOffset s.offset st.sourceStart
  sourceEnd := moveOffset s.offset st.sourceEnd
  starts := st.starts.map (moveOffset s.offset)
  ends := st.ends.map (moveOffset s.offset)
  prefixes := st.prefixes.map (moveOffset s.offset)
  covered := st.covered.map s.pair
  runs := st.runs.map s.runView

def literalState (st : LiteralState) : LiteralState where
  out := s.out st.out
  sourceStart := moveOffset s.offset st.sourceStart
  sourceEnd := moveOffset s.offset st.sourceEnd
  starts := st.starts.map (moveOffset s.offset)
  ends := st.ends.map (moveOffset s.offset)
  prefixes := st.prefixes.map (moveOffset s.offset)

@[simp] theorem content_start (c : ContentView) : (s.content c).start = c.start + s.offset := rfl
@[simp] theorem content_stop (c : ContentView) : (s.content c).stop = c.stop + s.offset := rfl
@[simp] theorem context_covered (cx : InlineContext) :
    (s.context cx).covered = cx.covered.map s.pair := rfl
@[simp] theorem context_styles (cx : InlineContext) :
    (s.context cx).styles = s.styles cx.styles := rfl
@[simp] theorem inlineState_out (st : InlineState) :
    (s.inlineState st).out = s.out st.out := rfl
@[simp] theorem inlineState_covered (st : InlineState) :
    (s.inlineState st).covered = st.covered.map s.pair := rfl
@[simp] theorem inlineState_runs (st : InlineState) :
    (s.inlineState st).runs = st.runs.map s.runView := rfl

end Shift

/-- The source and the lines of `src` from `lo` to `hi`, which are `n` lines from `first`, are
    those of `src'` moved. -/
structure Carries (m : RenderModel) (src : Text) (m' : RenderModel) (src' : Text) (s : Shift)
    (lo hi first : Int) (n : Nat) : Prop where
  lo_nonneg : 0 ≤ lo
  lo_nonneg' : 0 ≤ lo + s.offset
  first_nonneg : 0 ≤ first
  first_nonneg' : 0 ≤ first + s.line
  substring : ∀ a b, lo ≤ a → b ≤ hi →
    src'.substring (a + s.offset) (b + s.offset) = src.substring a b
  codeUnitAt : ∀ i, lo ≤ i → i < hi → src'.codeUnitAt (i + s.offset) = src.codeUnitAt i
  lineAt : ∀ x, lo ≤ x → x ≤ hi → m'.lineAt (x + s.offset) = m.lineAt x + s.line
  first_le_lineAt : ∀ x, lo ≤ x → x ≤ hi → first ≤ m.lineAt x
  lineAt_le : ∀ x, lo ≤ x → x ≤ hi → m.lineAt x ≤ first + n
  lineEnd : ∀ l, first ≤ l → l < first + n →
    m'.lineEndOf src' (l + s.line) = m.lineEndOf src l + s.offset
  lo_le_lineEnd : ∀ l, first ≤ l → l < first + n → lo ≤ m.lineEndOf src l
  lines : first + n ≤ m.lineCount
  lines' : first + s.line + n ≤ m'.lineCount

/-- A content record inside a stretch. -/
structure ContentView.Within (c : ContentView) (lo hi : Int) : Prop where
  lo_le_prefix : lo ≤ c.prefixStart
  lo_le : lo ≤ c.start
  start_le : c.start ≤ c.stop
  le_hi : c.stop ≤ hi

instance (c : ContentView) (lo hi : Int) : Decidable (c.Within lo hi) :=
  decidable_of_iff (lo ≤ c.prefixStart ∧ lo ≤ c.start ∧ c.start ≤ c.stop ∧ c.stop ≤ hi)
    ⟨fun ⟨h₁, h₂, h₃, h₄⟩ => ⟨h₁, h₂, h₃, h₄⟩, fun ⟨h₁, h₂, h₃, h₄⟩ => ⟨h₁, h₂, h₃, h₄⟩⟩

/-- A run inside a stretch. -/
structure RunView.Within (r : RunView) (lo hi : Int) : Prop where
  index_nonneg : 0 ≤ r.index
  lo_le : lo ≤ r.start
  start_le : r.start ≤ r.contentStart
  content_le : r.contentStart ≤ r.contentEnd
  le_stop : r.contentEnd ≤ r.stop
  le_hi : r.stop ≤ hi

instance (r : RunView) (lo hi : Int) : Decidable (r.Within lo hi) :=
  decidable_of_iff (0 ≤ r.index ∧ lo ≤ r.start ∧ r.start ≤ r.contentStart ∧
      r.contentStart ≤ r.contentEnd ∧ r.contentEnd ≤ r.stop ∧ r.stop ≤ hi)
    ⟨fun ⟨h₁, h₂, h₃, h₄, h₅, h₆⟩ => ⟨h₁, h₂, h₃, h₄, h₅, h₆⟩,
      fun ⟨h₁, h₂, h₃, h₄, h₅, h₆⟩ => ⟨h₁, h₂, h₃, h₄, h₅, h₆⟩⟩

section

variable {gs : Graphemes} {m m' : RenderModel} {src src' : Text} {s : Shift}
  {lo hi first : Int} {n : Nat}

/-- A place that is there moves along. -/
theorem moveOffset_of_nonneg {delta x : Int} (h : 0 ≤ x) : moveOffset delta x = x + delta :=
  if_neg (not_lt.2 h)

theorem moveOffset_neg_one (delta : Int) : moveOffset delta (-1) = -1 := rfl

/-- An entry of a list of offsets: absent, or in the stretch. -/
def Placed (lo hi x : Int) : Prop := x < 0 ∨ lo ≤ x ∧ x ≤ hi

/-- A place is absent after the move where it was absent before. -/
theorem Carries.moveOffset_neg_iff (h : Carries m src m' src' s lo hi first n) {x : Int}
    (hx : Placed lo hi x) : moveOffset s.offset x < 0 ↔ x < 0 := by
  have := h.lo_nonneg
  have := h.lo_nonneg'
  unfold moveOffset
  unfold Placed at hx
  split <;> omega

/-! ## Hidden ranges, styles and breaks -/

theorem RunView.delimiters_shift (s : Shift) (r : RunView) :
    (s.runView r).delimiters = r.delimiters.map s.pair := by
  simp only [RunView.delimiters, Shift.runView, List.map_append, Int.add_lt_add_iff_right]
  split <;> split <;> rfl

/-- What runs hide moves along with them. -/
theorem hiddenIntervals_shift (s : Shift) (runs : List RunView) :
    hiddenIntervals (runs.map s.runView) = (hiddenIntervals runs).map s.pair := by
  have hflat : (runs.map s.runView).flatMap RunView.delimiters =
      (runs.flatMap RunView.delimiters).map s.pair := by
    rw [List.flatMap_map, List.map_flatMap]
    exact List.flatMap_congr fun r _ => RunView.delimiters_shift s r
  rw [hiddenIntervals, hiddenIntervals, hflat]
  refine (List.map_insertionSort _ _ s.pair _ fun a _ b _ => ?_).symm
  simp [Shift.pair]

theorem max_add_shift (a b d : Int) : max (a + d) (b + d) = max a b + d := by omega

/-- Merging what is covered, from the last interval on, goes with the move. -/
theorem coverFrom_shift (s : Shift) (last : Int × Int) (hidden : List (Int × Int)) :
    coverFrom (s.pair last) (hidden.map s.pair) = (coverFrom last hidden).map s.pair := by
  induction hidden generalizing last with
  | nil => rfl
  | cons h hidden ih =>
    have hext : ((s.pair last).1, max (s.pair last).2 (s.pair h).2) =
        s.pair (last.1, max last.2 h.2) := by
      exact Prod.ext rfl (max_add_shift _ _ _)
    simp only [List.map_cons, coverFrom]
    rw [hext, ih, ih]
    simp only [Shift.pair, Int.add_le_add_iff_right]
    split <;> rfl

/-- What is covered moves along with what is hidden. -/
theorem coverIntervals_shift (s : Shift) (hidden : List (Int × Int)) :
    coverIntervals (hidden.map s.pair) = (coverIntervals hidden).map s.pair := by
  cases hidden with
  | nil => rfl
  | cons h hidden => exact coverFrom_shift s h hidden

/-- Keys and values of a table may move on their own. -/
theorem lookup_map_add {β γ : Type} (k d : Int) (f : β → γ) (l : List (Int × β)) :
    (l.map fun e => (e.1 + d, f e.2)).lookup (k + d) = (l.lookup k).map f := by
  induction l with
  | nil => rfl
  | cons e l ih =>
    have hbeq : (k + d == e.1 + d) = (k == e.1) := by
      rw [Bool.eq_iff_iff, beq_iff_eq, beq_iff_eq, add_left_inj]
    rw [List.map_cons, List.lookup_cons, List.lookup_cons, hbeq, ih]
    cases k == e.1 <;> rfl

/-- What a list is looked up for is in it. -/
theorem mem_of_lookup {β : Type} {k : Int} {v : β} {l : List (Int × β)}
    (h : l.lookup k = some v) : (k, v) ∈ l := by
  induction l with
  | nil => cases h
  | cons e l ih =>
    rw [List.lookup_cons] at h
    split at h
    · next he =>
      obtain rfl := beq_iff_eq.1 he
      cases h
      exact List.mem_cons_self
    · exact List.mem_cons_of_mem _ (ih h)

theorem styleAt_shift (s : Shift) (styles : List (Int × Nat)) (run : Int) :
    styleAt (s.styles styles) (run + s.run) = styleAt styles run := by
  rw [styleAt, styleAt]
  exact congrArg (Option.getD · 0) ((lookup_map_add run s.run id styles).trans (by simp))

/-- The styles of moved runs are those of the runs, under the moved indices. -/
theorem computeStyles_shift (s : Shift) (styles : List (Int × Nat)) (runs : List RunView) :
    computeStyles (s.styles styles) (runs.map s.runView) =
      s.styles (computeStyles styles runs) := by
  induction runs generalizing styles with
  | nil => rfl
  | cons r runs ih =>
    rw [List.map_cons, computeStyles, computeStyles, ← ih]
    refine congrArg (computeStyles · _) ?_
    cases h : r.parent with
    | none => simp [Shift.runView, Shift.styles, h]
    | some parent =>
      simp only [Shift.runView, h, Option.map_some, styleAt_shift]
      rfl

theorem Breaks.set_shift (s : Shift) (b : Breaks) (line start : Int) (codeRun : Option Int) :
    (s.breaks b).set (line + s.line) (start + s.offset) (codeRun.map (· + s.run)) =
      s.breaks (b.set line start codeRun) := by
  cases codeRun <;> rfl

/-- The breaks of a code span's lines move along with the span. -/
theorem codeBreaks_shift (h : Carries m src m' src' s lo hi first n) (run : Int) (k : Nat)
    (line : Int) (b : Breaks) (hline : first ≤ line) (hk : line + k ≤ first + n) :
    codeBreaks m' src' (run + s.run) k (line + s.line) (s.breaks b) =
      s.breaks (codeBreaks m src run k line b) := by
  induction k generalizing line b with
  | zero => rfl
  | succ k ih =>
    rw [codeBreaks, codeBreaks, h.lineEnd line hline (by omega), ← ih _ _ (by omega) (by omega)]
    exact congrArg₂ (codeBreaks m' src' (run + s.run) k) (by omega)
      (Breaks.set_shift s b line _ (some run))

/-- The breaks that a run puts on lines move along with the run. -/
theorem runBreaks_shift (h : Carries m src m' src' s lo hi first n) (b : Breaks) (r : RunView)
    (hr : r.Within lo hi) :
    runBreaks m' src' (s.breaks b) (s.runView r) = s.breaks (runBreaks m src b r) := by
  have hlo := hr.lo_le
  have hstart := hr.start_le
  have hcontent := hr.content_le
  have hstop := hr.le_stop
  have hhi := hr.le_hi
  have hkind : (s.runView r).kind = r.kind := rfl
  rw [runBreaks, runBreaks, hkind]
  simp only [Shift.runView, Int.add_lt_add_iff_right]
  split
  · rw [h.lineAt _ hlo (by omega)]
    refine Eq.trans ?_ (Breaks.set_shift s b _ _ none)
    congr 1
    split <;> rfl
  · split
    · rw [h.lineAt _ (by omega) (by omega), h.lineAt _ (by omega) (by omega),
        show m.lineAt r.contentEnd + s.line - (m.lineAt r.contentStart + s.line) =
          m.lineAt r.contentEnd - m.lineAt r.contentStart by omega]
      have h₁ := h.first_le_lineAt r.contentStart (by omega) (by omega)
      have h₂ := h.lineAt_le r.contentEnd (by omega) (by omega)
      have h₃ := h.lineAt_le r.contentStart (by omega) (by omega)
      refine codeBreaks_shift h _ _ _ _ h₁ ?_
      omega
    · rfl

/-- The breaks that all runs put on lines move along with the runs. -/
theorem runsBreaks_shift (h : Carries m src m' src' s lo hi first n) (b : Breaks)
    (runs : List RunView) (hruns : ∀ r ∈ runs, r.Within lo hi) :
    (runs.map s.runView).foldl (runBreaks m' src') (s.breaks b) =
      s.breaks (runs.foldl (runBreaks m src) b) := by
  induction runs generalizing b with
  | nil => rfl
  | cons r runs ih =>
    rw [List.map_cons, List.foldl_cons, List.foldl_cons,
      runBreaks_shift h b r (hruns r List.mem_cons_self)]
    exact ih _ fun q hq => hruns q (List.mem_cons_of_mem _ hq)

/-- The runs of a leaf are chosen from moved runs as from the runs. -/
theorem leafRuns_shift (s : Shift) (runs : List RunView) :
    leafRuns (runs.map s.runView) = (leafRuns runs).map s.runView := by
  rw [leafRuns, leafRuns, List.filter_map]
  congr 1
  refine List.filter_congr fun r _ => ?_
  have hparent : ∀ q : RunView, (s.runView q).parent = some (s.runView r).index ↔
      q.parent = some r.index := by
    intro q
    cases hq : q.parent with
    | none => simp [Shift.runView, hq]
    | some p => simp [Shift.runView, hq]
  have hkind : (s.runView r).kind = r.kind := rfl
  simp only [Function.comp_apply, List.forall_mem_map, ne_eq, hparent, hkind]

/-! ## Writing -/

/-- A piece is added to what has moved as it was added before the move. -/
theorem Out.add_shift (s : Shift) (o : Out) (piece : Text) (a b : Int) (styles : Nat)
    (exact : Bool) (run run' : Int) (lineBreak : Bool)
    (hrun : run' = if run < 0 then run else run + s.run) :
    (s.out o).add piece (a + s.offset) (b + s.offset) styles exact run' lineBreak =
      s.out (o.add piece a b styles exact run lineBreak) := by
  subst hrun
  simp [Out.add, Shift.out, Segment.moved]

/-- A piece joins the last segment after the move where it did before. -/
theorem Out.joining_shift (s : Shift) (o : Out) (a : Int) :
    (s.out o).joining (a + s.offset) =
      (o.joining a).map (Segment.moved s.offset s.run) := by
  simp only [Out.joining, Shift.out, List.getLast?_map]
  cases o.segments.getLast? with
  | none => rfl
  | some previous =>
    simp only [Option.map_some, Segment.moved, add_left_inj]
    split <;> rfl

/-- Source that is shown as it is, is shown so after the move. -/
theorem emitExact_shift (h : Carries m src m' src' s lo hi first n) (o : Out) {a b : Int}
    (ha : lo ≤ a) (hb : b ≤ hi) (style : Nat) {run run' : Int}
    (hrun : run' = if run < 0 then run else run + s.run) :
    emitExact gs src' (s.out o) (a + s.offset) (b + s.offset) style run' =
      s.out (emitExact gs src o a b style run) := by
  rw [emitExact, emitExact]
  simp only [Int.add_le_add_iff_right, h.substring a b ha hb, Out.joining_shift]
  split
  · rfl
  · cases o.joining a with
    | none => exact Out.add_shift s o _ a b style true run run' false hrun
    | some previous =>
      subst hrun
      have hlen : a + s.offset + (gs.firstLength (src.substring a b) : Int) =
          a + (gs.firstLength (src.substring a b) : Int) + s.offset := by omega
      simp only [Option.map_some, Shift.out, Segment.moved, hlen, Int.add_lt_add_iff_right,
        List.map_append, List.map_dropLast, List.map_cons, List.map_nil,
        apply_ite (List.map (Segment.moved s.offset s.run))]

variable (gs) in
/-- What a gap shows between covered intervals moves along, from any place on. -/
theorem emitGapFrom_shift (h : Carries m src m' src' s lo hi first n) {b : Int} (hb : b ≤ hi)
    (covered : List (Int × Int)) (o : Out) {q : Int} (hq : lo ≤ q) :
    emitGapFrom gs src' (b + s.offset) (covered.map s.pair) (s.out o) (q + s.offset) =
      (s.out (emitGapFrom gs src b covered o q).1, (emitGapFrom gs src b covered o q).2 + s.offset) ∧
    lo ≤ (emitGapFrom gs src b covered o q).2 := by
  induction covered generalizing o q with
  | nil => exact ⟨rfl, hq⟩
  | cons c covered ih =>
    rw [List.map_cons, emitGapFrom, emitGapFrom]
    simp only [Shift.pair, Int.add_le_add_iff_right, Int.add_lt_add_iff_right, max_add_shift]
    split
    · exact ⟨rfl, hq⟩
    · have hstep : (if q < c.1 then
          emitExact gs src' (s.out o) (q + s.offset) (c.1 + s.offset) 0 (-1) else s.out o) =
          s.out (if q < c.1 then emitExact gs src o q c.1 0 (-1) else o) := by
        split
        · exact emitExact_shift h o hq (by omega) 0 rfl
        · rfl
      rw [hstep]
      exact ih _ (hq.trans (le_max_left _ _))

/-- What a gap shows moves along. -/
theorem emitGap_shift (h : Carries m src m' src' s lo hi first n) (covered : List (Int × Int))
    (o : Out) {a b : Int} (ha : lo ≤ a) (hb : b ≤ hi) :
    emitGap gs src' (covered.map s.pair) (s.out o) (a + s.offset) (b + s.offset) =
      s.out (emitGap gs src covered o a b) := by
  have hdrop : ((covered.map s.pair).dropWhile fun h => decide (h.2 ≤ a + s.offset)) =
      (covered.dropWhile fun h => decide (h.2 ≤ a)).map s.pair := by
    rw [List.dropWhile_map]
    congr 2
    funext h
    simp [Shift.pair]
  obtain ⟨hgap, hlo⟩ := emitGapFrom_shift gs h hb
    (covered.dropWhile fun h => decide (h.2 ≤ a)) o ha
  rw [emitGap, emitGap, hdrop, hgap]
  simp only [Int.add_lt_add_iff_right]
  split
  · exact emitExact_shift h _ hlo hb 0 rfl
  · rfl

/-- The gap up to the next piece is filled after the move as before. -/
theorem fillGap_shift (h : Carries m src m' src' s lo hi first n) (covered : List (Int × Int))
    (o : Out) {p b : Int} (hp : lo ≤ p) (hb : b ≤ hi) :
    fillGap gs src' (covered.map s.pair) (s.out o) (p + s.offset) (b + s.offset) =
      s.out (fillGap gs src covered o p b) := by
  simp only [fillGap, Int.add_lt_add_iff_right]
  split
  · exact emitGap_shift h covered o hp hb
  · rfl

/-! ## Code spans -/

/-- The code that is shown aligns with the moved source as with the source. -/
theorem alignedCode_shift (h : Carries m src m' src' s lo hi first n) {stop : Int}
    (hstop : stop ≤ hi) (shown : Text) {i : Int} (hi' : lo ≤ i) :
    alignedCode src' (stop + s.offset) (i + s.offset) shown =
      (alignedCode src stop i shown).map (List.map s.pair) := by
  induction shown generalizing i with
  | nil =>
    simp only [alignedCode, add_left_inj]
    split <;> rfl
  | cons unit shown ih =>
    have h₁ : i + s.offset + 1 = i + 1 + s.offset := by omega
    have h₂ : i + s.offset + 2 = i + 2 + s.offset := by omega
    have hc₁ : (i < stop ∧ src'.codeUnitAt (i + s.offset) = unit) ↔
        (i < stop ∧ src.codeUnitAt i = unit) :=
      and_congr_right fun hlt => by rw [h.codeUnitAt i hi' (by omega)]
    have hc₂ : (i + 1 < stop ∧ src'.codeUnitAt (i + 1 + s.offset) = unit) ↔
        (i + 1 < stop ∧ src.codeUnitAt (i + 1) = unit) :=
      and_congr_right fun hlt => by rw [h.codeUnitAt (i + 1) (by omega) (by omega)]
    simp only [alignedCode, h₁, h₂, Int.add_lt_add_iff_right, hc₁, hc₂,
      ih (show lo ≤ i + 1 by omega), ih (show lo ≤ i + 2 by omega)]
    split
    · cases alignedCode src stop (i + 1) shown <;> rfl
    · split
      · cases alignedCode src stop (i + 2) shown <;> rfl
      · rfl

/-- The units of a code span lie in it. -/
theorem alignedCode_within {stop : Int} (shown : Text) {i : Int} {units : List (Int × Int)}
    (h : alignedCode src stop i shown = some units) :
    ∀ u ∈ units, i ≤ u.1 ∧ u.1 < u.2 ∧ u.2 ≤ stop := by
  induction shown generalizing i units with
  | nil =>
    rw [alignedCode] at h
    split at h
    · cases h
      simp
    · cases h
  | cons unit shown ih =>
    rw [alignedCode] at h
    split at h
    · next hc =>
      obtain ⟨rest, hrest, rfl⟩ := Option.map_eq_some_iff.1 h
      refine List.forall_mem_cons.2 ⟨⟨le_rfl, Int.lt_succ i, by omega⟩, fun u hu => ?_⟩
      have := ih hrest u hu
      omega
    · split at h
      · next hc =>
        obtain ⟨rest, hrest, rfl⟩ := Option.map_eq_some_iff.1 h
        refine List.forall_mem_cons.2 ⟨⟨le_rfl, by omega, by omega⟩, fun u hu => ?_⟩
        have := ih hrest u hu
        omega
      · cases h

/-- A stretch of units shown as they are is cut after the move where it was. -/
theorem spanExact_shift (s : Shift) (last : Int) (units : List (Int × Int)) :
    spanExact (last + s.offset) (units.map s.pair) =
      ((spanExact last units).1 + s.offset, (spanExact last units).2.map s.pair) := by
  induction units generalizing last with
  | nil => rfl
  | cons u units ih =>
    have hwidth : u.2 + s.offset - (u.1 + s.offset) = u.2 - u.1 := by omega
    simp only [List.map_cons, spanExact, Shift.pair, hwidth]
    split
    · exact ih u.2
    · rfl

/-- A stretch that is cut off does not reach past its units, and what is left is of them. -/
theorem spanExact_within {last hi : Int} (units : List (Int × Int)) (hlast : last ≤ hi)
    (h : ∀ u ∈ units, u.2 ≤ hi) :
    (spanExact last units).1 ≤ hi ∧ ∀ u ∈ (spanExact last units).2, u ∈ units := by
  induction units generalizing last with
  | nil => exact ⟨hlast, fun _ => id⟩
  | cons u units ih =>
    rw [spanExact]
    split
    · obtain ⟨h₁, h₂⟩ := ih (h u List.mem_cons_self) fun v hv => h v (List.mem_cons_of_mem _ hv)
      exact ⟨h₁, fun v hv => List.mem_cons_of_mem _ (h₂ v hv)⟩
    · exact ⟨hlast, fun _ => id⟩

/-- The units of a run's text are emitted after the move as before. -/
theorem emitUnits_shift (h : Carries m src m' src' s lo hi first n) (style : Nat) {run : Int}
    (hrun : 0 ≤ run) (fuel : Nat) (units : List (Int × Int)) (o : Out)
    (hunits : ∀ u ∈ units, lo ≤ u.1 ∧ u.1 < u.2 ∧ u.2 ≤ hi) :
    emitUnits gs src' style (run + s.run) fuel (units.map s.pair) (s.out o) =
      s.out (emitUnits gs src style run fuel units o) := by
  have hrun' : run + s.run = if run < 0 then run else run + s.run := (if_neg (by omega)).symm
  induction fuel generalizing units o with
  | zero => cases units <;> rfl
  | succ fuel ih =>
    cases units with
    | nil => rfl
    | cons u units =>
      obtain ⟨hlo, hlt, hhi⟩ := hunits u List.mem_cons_self
      have hrest : ∀ v ∈ units, lo ≤ v.1 ∧ v.1 < v.2 ∧ v.2 ≤ hi :=
        fun v hv => hunits v (List.mem_cons_of_mem _ hv)
      have hwidth : u.2 + s.offset - (u.1 + s.offset) = u.2 - u.1 := by omega
      have hpiece : u.2 + s.offset - 1 = u.2 - 1 + s.offset := by omega
      simp only [List.map_cons, emitUnits, Shift.pair, hwidth, hpiece]
      split
      · rw [h.substring _ _ (by omega) hhi, Out.add_shift s o _ _ _ style false run _ false hrun']
        exact ih _ _ hrest
      · obtain ⟨hlast, hmem⟩ := spanExact_within units hhi fun v hv => (hrest v hv).2.2
        simp only [spanExact_shift]
        rw [emitExact_shift h o hlo hlast style hrun']
        exact ih _ _ fun v hv => hrest v (hmem v hv)

/-! ## One content record -/

/-- A run is emitted after the move as before, one case for each way to show it. -/
theorem emitRun_shift (h : Carries m src m' src' s lo hi first n) (covered : List (Int × Int))
    (styles : List (Int × Nat)) {cs ce : Int} (o : Out) {p : Int} (r : RunView) (hcs : lo ≤ cs)
    (hle : cs ≤ ce) (hce : ce ≤ hi) (hp : lo ≤ p) (hrun : 0 ≤ r.index) (hr : r.contentStart < ce) :
    emitRun gs src' (covered.map s.pair) (s.styles styles) (cs + s.offset) (ce + s.offset)
        (s.out o) (p + s.offset) (s.runView r) =
      (s.out (emitRun gs src covered styles cs ce o p r).1,
        (emitRun gs src covered styles cs ce o p r).2 + s.offset) := by
  have hrun' : r.index + s.run = if r.index < 0 then r.index else r.index + s.run :=
    (if_neg (by omega)).symm
  have ha : (if r.contentStart < cs then cs + s.offset else r.contentStart + s.offset) =
      (if r.contentStart < cs then cs else r.contentStart) + s.offset :=
    (apply_ite (· + s.offset) _ _ _).symm
  have hb : (if ce < r.contentEnd then ce + s.offset else r.contentEnd + s.offset) =
      (if ce < r.contentEnd then ce else r.contentEnd) + s.offset :=
    (apply_ite (· + s.offset) _ _ _).symm
  have hview : (s.runView r).contentStart = r.contentStart + s.offset ∧
      (s.runView r).contentEnd = r.contentEnd + s.offset ∧
      (s.runView r).index = r.index + s.run ∧ (s.runView r).override = r.override ∧
      (s.runView r).kind = r.kind := ⟨rfl, rfl, rfl, rfl, rfl⟩
  obtain ⟨h₁, h₂, h₃, h₄, h₅⟩ := hview
  have hlen : r.contentEnd + s.offset - (r.contentStart + s.offset) =
      r.contentEnd - r.contentStart := by omega
  simp only [emitRun, h₁, h₂, h₃, h₄, h₅, ha, hb, Int.add_lt_add_iff_right,
    Int.add_le_add_iff_right, styleAt_shift, hlen]
  generalize hA : (if r.contentStart < cs then cs else r.contentStart) = a
  generalize hB : (if ce < r.contentEnd then ce else r.contentEnd) = b
  have hloA : lo ≤ a := by split at hA <;> omega
  have hAhi : a ≤ hi := by split at hA <;> omega
  have hBhi : b ≤ hi := by split at hB <;> omega
  -- What is shown of the run's own source, where nothing is shown instead.
  have hpiece : (if a < b then emitExact gs src' (s.out (fillGap gs src covered o p a))
      (a + s.offset) (b + s.offset) (styleAt styles r.index) (r.index + s.run)
      else s.out (fillGap gs src covered o p a)) =
        s.out (if a < b then emitExact gs src (fillGap gs src covered o p a) a b
          (styleAt styles r.index) r.index else fillGap gs src covered o p a) := by
    split
    · exact emitExact_shift h _ hloA hBhi _ hrun'
    · rfl
  rw [fillGap_shift h covered o hp hAhi]
  refine Prod.ext ?_ (by dsimp only; split <;> rfl)
  dsimp only
  cases hov : r.override with
  | none => exact hpiece
  | some shown =>
    dsimp only
    split
    -- The text shown instead of the whole run, whose units may be placed one by one.
    · next hwhole =>
      have hlo : lo ≤ r.contentStart := by omega
      rw [h.substring _ _ hlo (by omega), alignedCode_shift h (by omega) shown hlo]
      have halign : (if r.kind = RunKind.code then
          (alignedCode src r.contentEnd r.contentStart shown).map (List.map s.pair) else none) =
          (if r.kind = RunKind.code then alignedCode src r.contentEnd r.contentStart shown
            else none).map (List.map s.pair) := by
        split <;> rfl
      rw [halign]
      cases hunits : if r.kind = RunKind.code then
          alignedCode src r.contentEnd r.contentStart shown else none with
      | none => exact Out.add_shift s _ shown _ _ _ _ _ _ false hrun'
      | some units =>
        have hwithin : alignedCode src r.contentEnd r.contentStart shown = some units := by
          split at hunits
          · exact hunits
          · cases hunits
        simp only [Option.map_some, List.length_map]
        refine emitUnits_shift h _ hrun _ units _ fun u hu => ?_
        have := alignedCode_within shown hwithin u hu
        omega
    · exact hpiece

/-- Where the text written so far ends only advances. -/
theorem le_emitRun (gs : Graphemes) (src : Text) (covered : List (Int × Int)) (styles : List (Int × Nat))
    (cs ce : Int) (o : Out) (p : Int) (r : RunView) :
    p ≤ (emitRun gs src covered styles cs ce o p r).2 := by
  simp only [emitRun]
  split <;> omega

/-- The place up to which runs are emitted does not go back. -/
theorem le_emitRuns (gs : Graphemes) (src : Text) (covered : List (Int × Int)) (styles : List (Int × Nat))
    (cs ce : Int) (runs : List RunView) (o : Out) (p : Int) :
    p ≤ (emitRuns gs src covered styles cs ce runs o p).2 := by
  induction runs generalizing o p with
  | nil => exact le_rfl
  | cons r runs ih =>
    rw [emitRuns]
    split
    · exact le_rfl
    · split
      · exact ih o p
      · exact (le_emitRun gs src covered styles cs ce o p r).trans
          (ih (emitRun gs src covered styles cs ce o p r).1 _)

/-- Runs are emitted after the move as before, by induction on the runs. -/
theorem emitRuns_shift (h : Carries m src m' src' s lo hi first n) (covered : List (Int × Int))
    (styles : List (Int × Nat)) {cs ce : Int} (hcs : lo ≤ cs) (hle : cs ≤ ce) (hce : ce ≤ hi)
    (runs : List RunView) (o : Out) {p : Int} (hp : lo ≤ p) (hruns : ∀ r ∈ runs, 0 ≤ r.index) :
    emitRuns gs src' (covered.map s.pair) (s.styles styles) (cs + s.offset) (ce + s.offset)
        (runs.map s.runView) (s.out o) (p + s.offset) =
      (s.out (emitRuns gs src covered styles cs ce runs o p).1,
        (emitRuns gs src covered styles cs ce runs o p).2 + s.offset) := by
  induction runs generalizing o p with
  | nil => rfl
  | cons r runs ih =>
    have hrest : ∀ q ∈ runs, 0 ≤ q.index := fun q hq => hruns q (List.mem_cons_of_mem _ hq)
    have h₁ : (s.runView r).contentStart = r.contentStart + s.offset := rfl
    have h₂ : (s.runView r).contentEnd = r.contentEnd + s.offset := rfl
    simp only [List.map_cons, emitRuns, h₁, h₂, Int.add_le_add_iff_right]
    split
    · rfl
    · next hbreak =>
      split
      · exact ih o hp hrest
      · rw [emitRun_shift h covered styles o r hcs hle hce hp (hruns r List.mem_cons_self)
          (by omega)]
        exact ih _ (hp.trans (le_emitRun gs src covered styles cs ce o p r)) hrest

/-- The break in front of a piece moves along with the piece. -/
theorem breakBefore_shift (s : Shift) (cx : InlineContext) (covered : List (Int × Int))
    (previous c : ContentView) :
    breakBefore (s.context cx) (covered.map s.pair) (s.content previous) (s.content c) =
      ((breakBefore cx covered previous c).1.map (· + s.offset),
        (breakBefore cx covered previous c).2.map s.pair) := by
  have hlookup : (s.context cx).breaks.starts.lookup (s.content previous).line =
      (cx.breaks.starts.lookup previous.line).map (· + s.offset) :=
    lookup_map_add previous.line s.line (· + s.offset) cx.breaks.starts
  have hdrop : ((covered.map s.pair).dropWhile fun h => decide (h.2 < c.start + s.offset)) =
      (covered.dropWhile fun h => decide (h.2 < c.start)).map s.pair := by
    rw [List.dropWhile_map]
    congr 2
    funext h
    simp [Shift.pair]
  rw [breakBefore, breakBefore, hlookup]
  cases cx.breaks.starts.lookup previous.line with
  | some start => rfl
  | none =>
    have h₁ : (s.content previous).stop = previous.stop + s.offset := rfl
    have h₂ : (s.content c).start = c.start + s.offset := rfl
    simp only [Option.map_none, h₁, h₂, Int.add_lt_add_iff_right, hdrop]
    split
    · cases covered.dropWhile fun h => decide (h.2 < c.start) with
      | nil => rfl
      | cons k rest =>
        simp only [List.map_cons, Shift.pair, Int.add_le_add_iff_right]
        split <;> rfl
    · rfl

/-- A break is emitted after the move as before. -/
theorem emitBreak_shift (s : Shift) (options : ProjectionOptions) (cx : InlineContext) (o : Out)
    (previous c : ContentView) (start : Int)
    (hcodes : ∀ e ∈ cx.breaks.codes, 0 ≤ e.2) :
    emitBreak options (s.context cx) (s.out o) (s.content previous) (s.content c)
        (start + s.offset) =
      s.out (emitBreak options cx o previous c start) := by
  have hlookup : (s.context cx).breaks.codes.lookup (s.content previous).line =
      (cx.breaks.codes.lookup previous.line).map (· + s.run) :=
    lookup_map_add previous.line s.line (· + s.run) cx.breaks.codes
  rw [emitBreak, emitBreak, hlookup]
  cases hrun : cx.breaks.codes.lookup previous.line with
  | none => exact Out.add_shift s o _ _ _ 0 false _ _ true rfl
  | some run =>
    have hnonneg : 0 ≤ run := hcodes _ (mem_of_lookup hrun)
    have hstyle : styleAt (s.context cx).styles (run + s.run) = styleAt cx.styles run :=
      styleAt_shift s cx.styles run
    simp only [Option.map_some, hstyle]
    exact Out.add_shift s o _ _ _ _ false run _ true (if_neg (by omega)).symm

/-- Columns of a tab taken in part are emitted after the move as before. -/
theorem emitVirtual_shift (s : Shift) (o : Out) (c : ContentView) :
    emitVirtual (s.out o) (s.content c) = s.out (emitVirtual o c) := by
  have h₁ : (s.content c).virtualSpaces = c.virtualSpaces := rfl
  have h₂ : (s.content c).start = c.start + s.offset := rfl
  rw [emitVirtual, emitVirtual, h₁, h₂]
  split
  · exact Out.add_shift s o _ _ _ 0 false _ _ false rfl
  · rfl

/-- A line's place is set after the move where it was set before. -/
theorem setLine_shift (s : Shift) (list : List Int) (first line : Int) (k : Nat) {x : Int}
    (hx : 0 ≤ x) :
    setLine (list.map (moveOffset s.offset)) (first + s.line) (line + s.line) k (x + s.offset) =
      (setLine list first line k x).map (moveOffset s.offset) := by
  have hcond : (first + s.line ≤ line + s.line ∧ line + s.line < first + s.line + k) ↔
      (first ≤ line ∧ line < first + k) := by omega
  have hindex : line + s.line - (first + s.line) = line - first := by omega
  simp only [setLine, hcond, hindex]
  split
  · rw [List.map_set, moveOffset_of_nonneg hx]
  · rfl

/-! ## The walks -/

/-- A piece with the break in front of it moves along. -/
theorem withBreak_shift (s : Shift) (options : ProjectionOptions) (cx : InlineContext)
    (hcodes : ∀ e ∈ cx.breaks.codes, 0 ≤ e.2) (o : Out) (covered : List (Int × Int))
    (previous : Option ContentView) (c : ContentView) :
    withBreak options (s.context cx) (s.out o) (covered.map s.pair) (previous.map s.content)
        (s.content c) =
      (s.out (withBreak options cx o covered previous c).1,
        (withBreak options cx o covered previous c).2.map s.pair) := by
  cases previous with
  | none => rfl
  | some previous =>
    simp only [withBreak, Option.map_some, breakBefore_shift]
    obtain ⟨start, rest⟩ := breakBefore cx covered previous c
    cases start with
    | none => rfl
    | some start =>
      exact Prod.ext (emitBreak_shift s options cx o previous c start hcodes) rfl

/-! ## The walks -/

theorem sourceStart_shift (h : Carries m src m' src' s lo hi first n) {x a : Int}
    (hx : Placed lo hi x) (ha : lo ≤ a) :
    (if moveOffset s.offset x < 0 then a + s.offset else moveOffset s.offset x) =
      moveOffset s.offset (if x < 0 then a else x) := by
  have := h.lo_nonneg
  simp only [h.moveOffset_neg_iff hx]
  split
  · exact (moveOffset_of_nonneg (by omega)).symm
  · rfl

/-- One piece of an inline leaf: its break, its gap and its runs move along. -/
theorem inlineStep_shift (h : Carries m src m' src' s lo hi first n) (options : ProjectionOptions)
    (cx : InlineContext) (hcodes : ∀ e ∈ cx.breaks.codes, 0 ≤ e.2)
    (previous : Option ContentView) (st : InlineState) (c : ContentView) (hc : c.Within lo hi)
    (hsource : Placed lo hi st.sourceStart) (hruns : ∀ r ∈ st.runs, 0 ≤ r.index) :
    inlineStep gs src' options (s.context cx) (previous.map s.content) (s.inlineState st)
        (s.content c) =
      s.inlineState (inlineStep gs src options cx previous st c) := by
  have hlo := h.lo_nonneg
  obtain ⟨hc₀, hc₁, hc₂, hc₃⟩ := hc
  have hdrop : ((st.runs.map s.runView).dropWhile fun r =>
      decide (r.contentEnd ≤ (s.content c).start)) =
      (st.runs.dropWhile fun r => decide (r.contentEnd ≤ c.start)).map s.runView := by
    rw [List.dropWhile_map]
    congr 2
    funext r
    simp [Shift.runView]
  have hdropruns : ∀ r ∈ st.runs.dropWhile fun r => decide (r.contentEnd ≤ c.start),
      0 ≤ r.index :=
    fun r hr => hruns r ((List.dropWhile_sublist _).subset hr)
  have hp := hc₁.trans (le_emitRuns gs src cx.covered cx.styles c.start c.stop
    (st.runs.dropWhile fun r => decide (r.contentEnd ≤ c.start))
    (emitVirtual (withBreak options cx st.out st.covered previous c).1 c) c.start)
  rw [inlineStep, inlineStep, Shift.inlineState_runs, hdrop]
  simp only [Shift.inlineState_out, Shift.inlineState_covered, Shift.content_start, Shift.content_stop,
    Shift.context_covered, Shift.context_styles,
    withBreak_shift s options cx hcodes st.out st.covered previous c, emitVirtual_shift]
  rw [emitRuns_shift h cx.covered cx.styles hc₁ hc₂ hc₃ _ _ hc₁ hdropruns,
    fillGap_shift h cx.covered _ hp hc₃]
  refine InlineState.ext rfl ?_ ?_ ?_ ?_ ?_ rfl rfl
  · exact sourceStart_shift h hsource hc₁
  · exact (moveOffset_of_nonneg (by omega)).symm
  · exact setLine_shift s _ _ _ _ (by omega)
  · exact setLine_shift s _ _ _ _ (by omega)
  · exact setLine_shift s _ _ _ _ (by omega)

variable (gs src) in
/-- One piece leaves the ends of the row absent, or in the leaf. -/
theorem placed_inlineStep (options : ProjectionOptions) (cx : InlineContext)
    (previous : Option ContentView) (st : InlineState) (c : ContentView) (hc : c.Within lo hi)
    (h : Placed lo hi st.sourceStart) :
    Placed lo hi (inlineStep gs src options cx previous st c).sourceStart ∧
      Placed lo hi (inlineStep gs src options cx previous st c).sourceEnd := by
  obtain ⟨_, hc₁, hc₂, hc₃⟩ := hc
  simp only [inlineStep]
  refine ⟨?_, Or.inr ⟨hc₁.trans hc₂, hc₃⟩⟩
  split
  · exact Or.inr ⟨hc₁, hc₂.trans hc₃⟩
  · exact h

variable (gs) in
/-- All pieces of an inline leaf move along, by induction on them. -/
theorem inlineWalk_shift (h : Carries m src m' src' s lo hi first n) (options : ProjectionOptions)
    (cx : InlineContext) (hcodes : ∀ e ∈ cx.breaks.codes, 0 ≤ e.2)
    (content : List ContentView) (previous : Option ContentView) (st : InlineState)
    (hc : ∀ c ∈ content, c.Within lo hi) (hsource : Placed lo hi st.sourceStart)
    (hend : Placed lo hi st.sourceEnd) (hruns : ∀ r ∈ st.runs, 0 ≤ r.index) :
    inlineWalk gs src' options (s.context cx) (previous.map s.content) (s.inlineState st)
        (content.map s.content) =
      s.inlineState (inlineWalk gs src options cx previous st content) ∧
    Placed lo hi (inlineWalk gs src options cx previous st content).sourceStart ∧
    Placed lo hi (inlineWalk gs src options cx previous st content).sourceEnd := by
  induction content generalizing previous st with
  | nil => exact ⟨rfl, hsource, hend⟩
  | cons c content ih =>
    have hfirst := hc c List.mem_cons_self
    rw [List.map_cons, inlineWalk, inlineWalk,
      inlineStep_shift h options cx hcodes previous st c hfirst hsource hruns]
    obtain ⟨hstart', hend'⟩ := placed_inlineStep gs src options cx previous st c hfirst hsource
    exact ih (some c) _ (fun d hd => hc d (List.mem_cons_of_mem _ hd)) hstart' hend'
      fun r hr => hruns r ((List.dropWhile_sublist _).subset hr)

/-- One piece of a literal leaf moves along. -/
theorem literalStep_shift (h : Carries m src m' src' s lo hi first n) (leaf : LeafRecords)
    (previous : Option ContentView) (st : LiteralState) (c : ContentView) (hc : c.Within lo hi)
    (hsource : Placed lo hi st.sourceStart) :
    literalStep src' (s.leaf leaf) (previous.map s.content) (s.literalState st) (s.content c) =
      s.literalState (literalStep src leaf previous st c) := by
  have hlo := h.lo_nonneg
  obtain ⟨hc₀, hc₁, hc₂, hc₃⟩ := hc
  have hbreak : literalBreak (s.literalState st).out (previous.map s.content) (s.content c) =
      s.out (literalBreak st.out previous c) := by
    cases previous with
    | none => rfl
    | some previous => exact Out.add_shift s st.out _ _ _ 0 false _ _ true rfl
  have hkind : (s.leaf leaf).kind = leaf.kind := rfl
  rw [literalStep, literalStep, hbreak, emitVirtual_shift, hkind]
  simp only [Shift.content_start, Shift.content_stop, Int.add_lt_add_iff_right,
    h.substring _ _ hc₁ hc₃]
  refine LiteralState.ext ?_ ?_ ?_ ?_ ?_ ?_
  · dsimp only [Shift.literalState]
    split
    · exact Out.add_shift s _ _ _ _ _ true _ _ false rfl
    · rfl
  · exact sourceStart_shift h hsource hc₁
  · exact (moveOffset_of_nonneg (by omega)).symm
  · exact setLine_shift s _ _ _ _ (by omega)
  · exact setLine_shift s _ _ _ _ (by omega)
  · exact setLine_shift s _ _ _ _ (by omega)

theorem mem_setLine {list : List Int} {first line x y : Int} {k : Nat}
    (h : y ∈ setLine list first line k x) : y ∈ list ∨ y = x := by
  rw [setLine] at h
  split at h
  · exact (List.mem_or_eq_of_mem_set h).imp_right id
  · exact Or.inl h

/-- All pieces of a literal leaf move along, by induction on them. -/
theorem literalWalk_shift (h : Carries m src m' src' s lo hi first n) (leaf : LeafRecords)
    (content : List ContentView) (previous : Option ContentView) (st : LiteralState)
    (hc : ∀ c ∈ content, c.Within lo hi) (hsource : Placed lo hi st.sourceStart)
    (hend : Placed lo hi st.sourceEnd) (hstarts : ∀ x ∈ st.starts, Placed lo hi x) :
    literalWalk src' (s.leaf leaf) (previous.map s.content) (s.literalState st)
        (content.map s.content) =
      s.literalState (literalWalk src leaf previous st content) ∧
    Placed lo hi (literalWalk src leaf previous st content).sourceStart ∧
    Placed lo hi (literalWalk src leaf previous st content).sourceEnd ∧
    ∀ x ∈ (literalWalk src leaf previous st content).starts, Placed lo hi x := by
  induction content generalizing previous st with
  | nil => exact ⟨rfl, hsource, hend, hstarts⟩
  | cons c content ih =>
    have hfirst := hc c List.mem_cons_self
    have hplaced : lo ≤ c.start ∧ c.start ≤ hi := ⟨hfirst.lo_le, hfirst.start_le.trans hfirst.le_hi⟩
    rw [List.map_cons, literalWalk, literalWalk,
      literalStep_shift h leaf previous st c hfirst hsource]
    refine ih (some c) _ (fun d hd => hc d (List.mem_cons_of_mem _ hd)) ?_
      (Or.inr ⟨hfirst.lo_le.trans hfirst.start_le, hfirst.le_hi⟩) fun x hx => ?_
    · simp only [literalStep]
      split
      · exact Or.inr hplaced
      · exact hsource
    · rcases mem_setLine hx with hx | rfl
      · exact hstarts x hx
      · exact Or.inr hplaced

/-! ## The row -/

/-- A leaf whose records lie inside a stretch. -/
structure LeafRecords.Within (leaf : LeafRecords) (lo hi : Int) : Prop where
  lo_le : lo ≤ leaf.start
  content : ∀ c ∈ leaf.content, c.Within lo hi
  runs : ∀ r ∈ leaf.runs, r.Within lo hi

/-- The lines of a row move along with its leaf. -/
theorem rowLines_shift (s : Shift) (leaf : LeafRecords) :
    (s.leaf leaf).rowLines = (leaf.rowLines.1 + s.line, leaf.rowLines.2) := by
  have hkind : (s.leaf leaf).kind = leaf.kind := rfl
  have hfirst : (s.leaf leaf).firstLine = leaf.firstLine + s.line := rfl
  have hcount : (s.leaf leaf).lineCount = leaf.lineCount := rfl
  have hcontent : (s.leaf leaf).content = leaf.content.map s.content := rfl
  rw [LeafRecords.rowLines, LeafRecords.rowLines, hkind, hfirst, hcount, hcontent]
  split
  · rfl
  · cases leaf.content with
    | nil => rfl
    | cons c rest =>
      have hline : (s.content c).line = c.line + s.line := rfl
      have hcond : (leaf.firstLine + s.line < c.line + s.line ∧
          c.line + s.line < leaf.firstLine + s.line + leaf.lineCount) ↔
          (leaf.firstLine < c.line ∧ c.line < leaf.firstLine + leaf.lineCount) := by omega
      have hleft : leaf.firstLine + s.line + leaf.lineCount - (c.line + s.line) =
          leaf.firstLine + leaf.lineCount - c.line := by omega
      simp only [List.map_cons, hline, hcond, hleft]
      split <;> rfl

/-- The lines of the row are lines of the leaf. -/
theorem rowLines_within (leaf : LeafRecords) :
    leaf.firstLine ≤ leaf.rowLines.1 ∧
      leaf.rowLines.1 + leaf.rowLines.2 = leaf.firstLine + leaf.lineCount := by
  rw [LeafRecords.rowLines]
  split
  · exact ⟨le_rfl, rfl⟩
  · split
    · exact ⟨le_rfl, rfl⟩
    · split
      · omega
      · exact ⟨le_rfl, rfl⟩

/-- A line of a code break names a run. -/
theorem codes_codeBreaks {run : Int} (hrun : 0 ≤ run) (k : Nat) (line : Int) (b : Breaks)
    (hb : ∀ e ∈ b.codes, 0 ≤ e.2) : ∀ e ∈ (codeBreaks m src run k line b).codes, 0 ≤ e.2 := by
  induction k generalizing line b with
  | zero => exact hb
  | succ k ih =>
    exact ih _ _ (List.forall_mem_cons.2 ⟨hrun, hb⟩)

theorem codes_runBreaks (b : Breaks) {r : RunView} (hr : 0 ≤ r.index)
    (hb : ∀ e ∈ b.codes, 0 ≤ e.2) : ∀ e ∈ (runBreaks m src b r).codes, 0 ≤ e.2 := by
  rw [runBreaks]
  split
  · exact hb
  · split
    · exact codes_codeBreaks hr _ _ _ hb
    · exact hb

theorem codes_runsBreaks (b : Breaks) (runs : List RunView) (hruns : ∀ r ∈ runs, 0 ≤ r.index)
    (hb : ∀ e ∈ b.codes, 0 ≤ e.2) : ∀ e ∈ (runs.foldl (runBreaks m src) b).codes, 0 ≤ e.2 := by
  induction runs generalizing b with
  | nil => exact hb
  | cons r runs ih =>
    exact ih _ (fun q hq => hruns q (List.mem_cons_of_mem _ hq))
      (codes_runBreaks b (hruns r List.mem_cons_self) hb)

theorem map_replicate_absent (k : Nat) (delta : Int) :
    (List.replicate k (-1)).map (moveOffset delta) = List.replicate k (-1) := by
  rw [List.map_replicate, moveOffset_neg_one]

variable (gs) in
/-- What an inline leaf shows moves along with the leaf. -/
theorem inlineResult_shift {leaf : LeafRecords}
    (h : Carries m src m' src' s lo hi leaf.firstLine leaf.lineCount) (hleaf : leaf.Within lo hi)
    (options : ProjectionOptions) :
    inlineResult gs m' src' options (s.leaf leaf) =
      s.inlineState (inlineResult gs m src options leaf) ∧
    Placed lo hi (inlineResult gs m src options leaf).sourceStart ∧
    Placed lo hi (inlineResult gs m src options leaf).sourceEnd := by
  have hindex : ∀ r ∈ leaf.runs, 0 ≤ r.index := fun r hr => (hleaf.runs r hr).index_nonneg
  have hruns : (s.leaf leaf).runs = leaf.runs.map s.runView := rfl
  have hcontent : (s.leaf leaf).content = leaf.content.map s.content := rfl
  have hstyles : computeStyles [] (leaf.runs.map s.runView) =
      s.styles (computeStyles [] leaf.runs) := computeStyles_shift s [] leaf.runs
  have hbreaks : (leaf.runs.map s.runView).foldl (runBreaks m' src') ⟨[], []⟩ =
      s.breaks (leaf.runs.foldl (runBreaks m src) ⟨[], []⟩) :=
    runsBreaks_shift h ⟨[], []⟩ leaf.runs hleaf.runs
  have hwalk := inlineWalk_shift gs h options
    { first := leaf.rowLines.1
      lineCount := leaf.rowLines.2
      covered := coverIntervals (hiddenIntervals leaf.runs)
      styles := computeStyles [] leaf.runs
      breaks := leaf.runs.foldl (runBreaks m src) ⟨[], []⟩ }
    (codes_runsBreaks _ _ hindex (by simp)) leaf.content none
    { out := ⟨[], []⟩, sourceStart := -1, sourceEnd := -1
      starts := List.replicate leaf.rowLines.2 (-1), ends := List.replicate leaf.rowLines.2 (-1)
      prefixes := List.replicate leaf.rowLines.2 (-1)
      covered := coverIntervals (hiddenIntervals leaf.runs), runs := leafRuns leaf.runs }
    hleaf.content (Or.inl (Int.negSucc_lt_zero 0)) (Or.inl (Int.negSucc_lt_zero 0))
    fun r hr => hindex r (List.mem_of_mem_filter hr)
  refine ⟨?_, hwalk.2⟩
  rw [inlineResult, rowLines_shift, hruns, hcontent, hiddenIntervals_shift, coverIntervals_shift,
    hstyles, hbreaks, leafRuns_shift]
  refine Eq.trans ?_ hwalk.1
  dsimp only [Shift.inlineState]
  rw [map_replicate_absent]
  rfl

/-- Two places of a leaf are the same after the move where they were before. -/
theorem moveOffset_inj (h : Carries m src m' src' s lo hi first n) {x y : Int}
    (hx : Placed lo hi x) (hy : Placed lo hi y) :
    moveOffset s.offset x = moveOffset s.offset y ↔ x = y := by
  have := h.lo_nonneg
  have := h.lo_nonneg'
  unfold Placed at hx hy
  unfold moveOffset
  split <;> split <;> omega

/-- An end of the extent falls back to the leaf's own. -/
theorem extent_shift (h : Carries m src m' src' s lo hi first n) {x : Int} (a : Int)
    (hx : Placed lo hi x) :
    (if moveOffset s.offset x < 0 then a + s.offset else moveOffset s.offset x) =
      (if x < 0 then a else x) + s.offset := by
  have hlo := h.lo_nonneg
  simp only [h.moveOffset_neg_iff hx]
  split
  · rfl
  · exact moveOffset_of_nonneg (by omega)

/-- What the row of a moved leaf shows is what the leaf's row shows, moved. The place of a
    table cell is not the leaf's own. -/
theorem inlineRow_shift {leaf : LeafRecords}
    (h : Carries m src m' src' s lo hi leaf.firstLine leaf.lineCount) (hleaf : leaf.Within lo hi)
    (options : ProjectionOptions) (block block' : Nat) (shells shells' : List Shell)
    (cell cell' : CellFields) (hcell : leaf.kind = BlockKind.heading → cell' = {}) (index : Nat) :
    (inlineRow gs m' src' options block' (s.leaf leaf) shells' cell').content =
      ((inlineRow gs m src options block leaf shells cell).reused index block'
        (s.leaf leaf).rowLines.1.toNat shells' s.offset s.run cell').content := by
  obtain ⟨hresult, hstart, hend⟩ := inlineResult_shift gs h hleaf options
  obtain ⟨hfirst, hcount⟩ := rowLines_within leaf
  have hlo := h.lo_nonneg
  have hlo' := h.lo_nonneg'
  have hstart₀ := hleaf.lo_le
  have hkind : (s.leaf leaf).kind = leaf.kind := rfl
  have hleafstart : (s.leaf leaf).start = leaf.start + s.offset := rfl
  have hleafstop : (s.leaf leaf).stop = leaf.stop + s.offset := rfl
  have hattr : (s.leaf leaf).attr = leaf.attr := rfl
  rw [inlineRow, inlineRow, rowLines_shift, hresult, hkind, hleafstart, hleafstop, hattr]
  generalize inlineResult gs m src options leaf = st at hstart hend
  have h₁ : (s.inlineState st).sourceStart = moveOffset s.offset st.sourceStart := rfl
  have h₂ : (s.inlineState st).sourceEnd = moveOffset s.offset st.sourceEnd := rfl
  -- The row is a bare prefix in both projections or in none.
  have hbare : (leaf.kind = BlockKind.heading ∧ leaf.rowLines.2 = 1 ∧
      (s.inlineState st).sourceStart = (s.inlineState st).sourceEnd ∧
      (s.inlineState st).sourceEnd = m'.lineEndOf src' (leaf.rowLines.1 + s.line) ∧
      (s.inlineState st).sourceEnd - (leaf.start + s.offset) = leaf.attr) ↔
      (leaf.kind = BlockKind.heading ∧ leaf.rowLines.2 = 1 ∧ st.sourceStart = st.sourceEnd ∧
        st.sourceEnd = m.lineEndOf src leaf.rowLines.1 ∧
        st.sourceEnd - leaf.start = leaf.attr) := by
    refine and_congr_right fun _ => and_congr_right fun hone => ?_
    have hline := h.lineEnd leaf.rowLines.1 hfirst (by omega)
    have hlolt := h.lo_le_lineEnd leaf.rowLines.1 hfirst (by omega)
    rw [h₁, h₂, moveOffset_inj h hstart hend, hline]
    refine and_congr_right fun _ => ?_
    unfold moveOffset
    unfold Placed at hend
    split <;> omega
  dsimp only
  simp only [hbare]
  split
  · next hc =>
    have hlolt := h.lo_le_lineEnd leaf.rowLines.1 hfirst (by omega)
    have hhi : lo ≤ st.sourceEnd ∧ st.sourceEnd ≤ hi := by
      rcases hend with hneg | hplaced
      · omega
      · exact hplaced
    have hmoved : moveOffset s.offset st.sourceEnd = st.sourceEnd + s.offset :=
      moveOffset_of_nonneg (by omega)
    have hlen : st.sourceEnd + s.offset - (leaf.start + s.offset) = st.sourceEnd - leaf.start := by
      omega
    rw [h₂, hmoved, hcell hc.1]
    simp only [barePrefixRow, ProjectedRow.content, ProjectedRow.reused,
      h.substring _ _ hstart₀ hhi.2, hlen, List.map_cons, List.map_nil, Segment.moved, hmoved,
      moveOffset_of_nonneg (show 0 ≤ leaf.start by omega), moveOffset_neg_one]
    rfl
  · have hsource : (if (s.inlineState st).sourceStart < 0 then leaf.start + s.offset
        else (s.inlineState st).sourceStart) =
        (if st.sourceStart < 0 then leaf.start else st.sourceStart) + s.offset :=
      extent_shift h leaf.start hstart
    have hsource' : (if (s.inlineState st).sourceEnd < 0 then leaf.stop + s.offset
        else (s.inlineState st).sourceEnd) =
        (if st.sourceEnd < 0 then leaf.stop else st.sourceEnd) + s.offset :=
      extent_shift h leaf.stop hend
    rw [hsource, hsource']
    rfl

theorem length_setLine (list : List Int) (first line x : Int) (k : Nat) :
    (setLine list first line k x).length = list.length := by
  rw [setLine]
  split
  · exact List.length_set
  · rfl

variable (src) in
theorem length_literalWalk (leaf : LeafRecords) (content : List ContentView)
    (previous : Option ContentView) (st : LiteralState) :
    (literalWalk src leaf previous st content).starts.length = st.starts.length ∧
      (literalWalk src leaf previous st content).ends.length = st.ends.length ∧
      (literalWalk src leaf previous st content).prefixes.length = st.prefixes.length := by
  induction content generalizing previous st with
  | nil => exact ⟨rfl, rfl, rfl⟩
  | cons c content ih =>
    obtain ⟨h₁, h₂, h₃⟩ := ih (some c) (literalStep src leaf previous st c)
    exact ⟨h₁.trans (length_setLine _ _ _ _ _), h₂.trans (length_setLine _ _ _ _ _),
      h₃.trans (length_setLine _ _ _ _ _)⟩

/-- The ends of lines that no piece set are filled in after the move as before. -/
theorem fillLineEnds_shift (h : Carries m src m' src' s lo hi first n) {starts list : List Int}
    (hstarts : ∀ x ∈ starts, Placed lo hi x) (hlen : starts.length = n) (hlen' : list.length = n) :
    fillLineEnds m' src' (first + s.line) (starts.map (moveOffset s.offset))
        (list.map (moveOffset s.offset)) =
      (fillLineEnds m src first starts list).map (moveOffset s.offset) := by
  have hlo := h.lo_nonneg
  have hlines := h.lines
  have hlines' := h.lines'
  refine List.ext_getElem? fun i => ?_
  simp only [fillLineEnds, List.getElem?_mapIdx, List.getElem?_map, Option.map_map]
  rcases Nat.lt_or_ge i n with hi | hi
  · rw [List.getElem?_eq_getElem (by omega)]
    have hget : starts.getD i 0 = starts[i] := List.getD_eq_getElem _ _ _
    have hget' : (starts.map (moveOffset s.offset)).getD i 0 = moveOffset s.offset starts[i] := by
      rw [List.getD_eq_getElem _ _ (by simpa [hlen] using hi), List.getElem_map]
    have hneg := h.moveOffset_neg_iff (hstarts starts[i] (List.getElem_mem _))
    have hline : first + s.line + (i : Int) = first + i + s.line := by omega
    have hcond : (0 ≤ moveOffset s.offset starts[i] ∨
        (m'.lineCount : Int) ≤ first + i + s.line) ↔
        (0 ≤ starts[i] ∨ (m.lineCount : Int) ≤ first + i) := by omega
    have hend := h.lo_le_lineEnd (first + i) (by omega) (by omega)
    simp only [Option.map_some, Function.comp_apply, hget, hget', hline, hcond,
      h.lineEnd (first + i) (by omega) (by omega)]
    split
    · rfl
    · rw [moveOffset_of_nonneg (show 0 ≤ m.lineEndOf src (first + i) by omega)]
  · rw [List.getElem?_eq_none (by omega)]
    rfl

/-- The lines of fences are cleared after the move as before. -/
theorem clearFences_shift (s : Shift) (closed : Bool) (list : List Int) :
    clearFences closed (list.map (moveOffset s.offset)) =
      (clearFences closed list).map (moveOffset s.offset) := by
  have habsent : (-1 : Int) = moveOffset s.offset (-1) := rfl
  rw [clearFences, clearFences, List.length_map]
  split
  · rw [List.map_set, List.map_set, ← habsent]
  · rw [List.map_set, ← habsent]

/-- The places of a literal leaf's lines move along. -/
theorem literalLines_shift {leaf : LeafRecords}
    (h : Carries m src m' src' s lo hi leaf.firstLine leaf.lineCount) {starts list : List Int}
    (hstarts : ∀ x ∈ starts, Placed lo hi x) (hlen : starts.length = leaf.lineCount)
    (hlen' : list.length = leaf.lineCount) :
    literalLines m' src' (s.leaf leaf) (starts.map (moveOffset s.offset))
        (list.map (moveOffset s.offset)) =
      (literalLines m src leaf starts list).map (moveOffset s.offset) := by
  have hfill := fillLineEnds_shift h hstarts hlen hlen'
  have hfirst : (s.leaf leaf).firstLine = leaf.firstLine + s.line := rfl
  have hfenced : (s.leaf leaf).fenced = leaf.fenced := rfl
  have hflags : (s.leaf leaf).flags = leaf.flags := rfl
  rw [literalLines, literalLines, hfirst, hfill, hfenced, hflags, clearFences_shift]
  split <;> rfl

/-- What the row of a moved leaf shows is what the leaf's row shows, moved. -/
theorem literalRow_shift {leaf : LeafRecords}
    (h : Carries m src m' src' s lo hi leaf.firstLine leaf.lineCount) (hleaf : leaf.Within lo hi)
    (hkind : leaf.kind ≠ BlockKind.paragraph ∧ leaf.kind ≠ BlockKind.heading)
    (block block' : Nat) (shells shells' : List Shell) (index : Nat) :
    (literalRow m' src' block' (s.leaf leaf) shells').content =
      ((literalRow m src block leaf shells).reused index block'
        (s.leaf leaf).rowLines.1.toNat shells' s.offset s.run {}).content := by
  have hlo := h.lo_nonneg
  have hstart₀ := hleaf.lo_le
  have hlines : (s.leaf leaf).rowLines.1 = (s.leaf leaf).firstLine :=
    congrArg Prod.fst (if_pos hkind)
  have habsent : ∀ x ∈ List.replicate leaf.lineCount (-1 : Int), Placed lo hi x :=
    fun x hx => Or.inl (by rw [List.eq_of_mem_replicate hx]; exact Int.negSucc_lt_zero 0)
  obtain ⟨hwalk, hstart, hend, hstarts⟩ := literalWalk_shift h leaf leaf.content none
    { out := ⟨[], []⟩, sourceStart := -1, sourceEnd := -1
      starts := List.replicate leaf.lineCount (-1), ends := List.replicate leaf.lineCount (-1)
      prefixes := List.replicate leaf.lineCount (-1) } hleaf.content
    (Or.inl (Int.negSucc_lt_zero 0)) (Or.inl (Int.negSucc_lt_zero 0)) habsent
  obtain ⟨hlen₁, hlen₂, hlen₃⟩ := length_literalWalk src leaf leaf.content none
    { out := ⟨[], []⟩, sourceStart := -1, sourceEnd := -1
      starts := List.replicate leaf.lineCount (-1), ends := List.replicate leaf.lineCount (-1)
      prefixes := List.replicate leaf.lineCount (-1) }
  simp only [List.length_replicate] at hlen₁ hlen₂ hlen₃
  have hresult : literalResult src' (s.leaf leaf) = s.literalState (literalResult src leaf) := by
    refine Eq.trans ?_ hwalk
    dsimp only [Shift.literalState]
    rw [map_replicate_absent]
    rfl
  rw [literalRow, literalRow, hresult, hlines]
  change Placed lo hi (literalResult src leaf).sourceStart at hstart
  change Placed lo hi (literalResult src leaf).sourceEnd at hend
  change ∀ x ∈ (literalResult src leaf).starts, Placed lo hi x at hstarts
  change (literalResult src leaf).starts.length = _ at hlen₁
  change (literalResult src leaf).ends.length = _ at hlen₂
  change (literalResult src leaf).prefixes.length = _ at hlen₃
  generalize literalResult src leaf = st at *
  -- The row's ends, and the places of its lines, are moved each by its own rule: an absent one
  -- stays absent.
  have hsource : (if (s.literalState st).sourceStart < 0 then (s.leaf leaf).start
      else (s.literalState st).sourceStart) =
      (if st.sourceStart < 0 then leaf.start else st.sourceStart) + s.offset :=
    extent_shift h leaf.start hstart
  have hsource' : (if (s.literalState st).sourceEnd < 0 then (s.leaf leaf).stop
      else (s.literalState st).sourceEnd) =
      (if st.sourceEnd < 0 then leaf.stop else st.sourceEnd) + s.offset :=
    extent_shift h leaf.stop hend
  have hlists : ∀ list : List Int, list.length = leaf.lineCount →
      literalLines m' src' (s.leaf leaf) (s.literalState st).starts
        (list.map (moveOffset s.offset)) =
      (literalLines m src leaf st.starts list).map (moveOffset s.offset) :=
    fun list hlen => literalLines_shift h hstarts hlen₁ hlen
  have h₁ : literalLines m' src' (s.leaf leaf) (s.literalState st).starts
      (s.literalState st).starts = _ := hlists st.starts hlen₁
  have h₂ : literalLines m' src' (s.leaf leaf) (s.literalState st).starts
      (s.literalState st).ends = _ := hlists st.ends hlen₂
  have h₃ : literalLines m' src' (s.leaf leaf) (s.literalState st).starts
      (s.literalState st).prefixes = _ := hlists st.prefixes hlen₃
  rw [hsource, hsource', h₁, h₂, h₃]
  rfl

end

end Flark
