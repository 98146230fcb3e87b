import Flark.Kernel.Document
import Flark.Kernel.Reuse

/-!
# The shape of rows

What every row of a conforming model keeps to, whatever it shows (`ProjectedRow.Shape`): its
segments cover its text one after the other, and where the caret may sit on a line of the row
lies on that line of the source.

* `shape_buildRows`: the rows built anew have this shape;
* `Built.shape`: so do those of every projection built.
-/

namespace Flark

/-! ## Segments in a row -/

/-- The segments cover the display text from `a` to `b`, one after the other. -/
def Tiles : (a : Nat) → List Segment → (b : Nat) → Prop
  | a, [], b => a = b
  | a, s :: segments, b => s.displayStart = a ∧ a ≤ s.displayEnd ∧ Tiles s.displayEnd segments b

/-- Segments tile a stretch where their two parts tile the two parts of it. -/
theorem tiles_append {a c : Nat} {l l' : List Segment} :
    Tiles a (l ++ l') c ↔ ∃ b, Tiles a l b ∧ Tiles b l' c := by
  induction l generalizing a with
  | nil => simp [Tiles]
  | cons s l ih =>
    simp only [List.cons_append, Tiles, ih]
    exact ⟨fun ⟨h₁, h₂, b, h₃, h₄⟩ => ⟨b, ⟨h₁, h₂, h₃⟩, h₄⟩,
      fun ⟨b, ⟨h₁, h₂, h₃⟩, h₄⟩ => ⟨h₁, h₂, b, h₃, h₄⟩⟩

theorem tiles_singleton {a b : Nat} {s : Segment} :
    Tiles a [s] b ↔ s.displayStart = a ∧ a ≤ s.displayEnd ∧ s.displayEnd = b := Iff.rfl

/-- A stretch that is tiled does not end before it starts. -/
theorem Tiles.le {a b : Nat} {l : List Segment} (h : Tiles a l b) : a ≤ b := by
  induction l generalizing a with
  | nil => exact Nat.le_of_eq h
  | cons s l ih => exact h.2.1.trans (ih h.2.2)

/-- Every segment of a tiling lies in the stretch. -/
theorem Tiles.bounds {a b : Nat} {l : List Segment} (h : Tiles a l b) {t : Segment} (ht : t ∈ l) :
    a ≤ t.displayStart ∧ t.displayStart ≤ t.displayEnd ∧ t.displayEnd ≤ b := by
  induction l generalizing a with
  | nil => cases ht
  | cons s l ih =>
    obtain ⟨hstart, hle, hrest⟩ := h
    rcases List.mem_cons.1 ht with rfl | ht
    · exact ⟨hstart.ge, hstart.trans_le hle, hrest.le⟩
    · obtain ⟨h₁, h₂⟩ := ih hrest ht
      exact ⟨hle.trans h₁, h₂⟩

/-- Later segments end no earlier. -/
theorem Tiles.pairwise {a b : Nat} {l : List Segment} (h : Tiles a l b) :
    l.Pairwise fun s t => s.displayEnd ≤ t.displayEnd := by
  induction l generalizing a with
  | nil => exact List.Pairwise.nil
  | cons s l ih =>
    refine List.pairwise_cons.2 ⟨fun t ht => ?_, ih h.2.2⟩
    obtain ⟨h₁, h₂, _⟩ := h.2.2.bounds ht
    exact h₁.trans h₂

/-- The segments of a tiling end in their order. -/
theorem Tiles.displayEnd_mono {a b : Nat} {l : List Segment} (h : Tiles a l b) {i j : Nat}
    (hij : i ≤ j) (hj : j < l.length) : l[i].displayEnd ≤ l[j].displayEnd := by
  rcases Nat.eq_or_lt_of_le hij with rfl | hlt
  · exact le_rfl
  · exact List.pairwise_iff_getElem.1 h.pairwise i j _ _ hlt

/-- The segment displays the unit `u` of the text. -/
def Segment.Shows (s : Segment) (u : Nat) : Prop := s.displayStart ≤ u ∧ u < s.displayEnd

/-- One segment displays a unit; those before it end at the unit or before, those after it start
    behind. -/
theorem Tiles.exists_split {a b u : Nat} {l : List Segment} (h : Tiles a l b) (ha : a ≤ u)
    (hb : u < b) : ∃ l₁ s l₂, l = l₁ ++ s :: l₂ ∧ s.Shows u ∧ (∀ t ∈ l₁, t.displayEnd ≤ u) ∧
      ∀ t ∈ l₂, u < t.displayStart ∧ t.displayStart ≤ t.displayEnd := by
  induction l generalizing a with
  | nil => exact absurd (h ▸ ha) (not_le.2 hb)
  | cons s l ih =>
    obtain ⟨hstart, hle, hrest⟩ := h
    by_cases hu : u < s.displayEnd
    · refine ⟨[], s, l, rfl, ⟨hstart.trans_le ha, hu⟩, by simp, fun t ht => ?_⟩
      obtain ⟨h₁, h₂, _⟩ := hrest.bounds ht
      exact ⟨hu.trans_le h₁, h₂⟩
    · obtain ⟨l₁, t, l₂, rfl, ht, h₁, h₂⟩ := ih hrest (not_lt.1 hu)
      exact ⟨s :: l₁, t, l₂, rfl, ht, List.forall_mem_cons.2 ⟨not_lt.1 hu, h₁⟩, h₂⟩

/-- Of the segments of a tiling, one shows a unit. -/
theorem Tiles.shows_unique {a b u : Nat} {l : List Segment} (h : Tiles a l b) {s t : Segment}
    (hs : s ∈ l) (ht : t ∈ l) (hsu : s.Shows u) (htu : t.Shows u) : s = t := by
  obtain ⟨ha, -, hb⟩ := h.bounds hs
  obtain ⟨l₁, r, l₂, rfl, -, h₁, h₂⟩ := h.exists_split (ha.trans hsu.1) (hsu.2.trans_le hb)
  have hr : ∀ q ∈ l₁ ++ r :: l₂, q.Shows u → q = r := by
    intro q hq hqu
    rcases List.mem_append.1 hq with hq | hq
    · exact absurd hqu.2 (not_lt.2 (h₁ q hq))
    · rcases List.mem_cons.1 hq with rfl | hq
      · rfl
      · exact absurd (h₂ q hq).1 (not_lt.2 hqu.1)
  rw [hr s hs hsu, hr t ht htu]

namespace Out

/-- What is written so far is covered by its segments. -/
def Tiled (out : Out) : Prop := Tiles 0 out.segments out.text.length

variable {out : Out}

theorem tiled_nil : Tiled ⟨[], []⟩ := rfl

/-- A piece that is added goes on with the tiling. -/
theorem Tiled.add (h : out.Tiled) (piece : Text) (a b : Int) (styles : Nat) (exact : Bool)
    (run : Int) (lineBreak : Bool) : (out.add piece a b styles exact run lineBreak).Tiled := by
  refine tiles_append.2 ⟨_, h, tiles_singleton.2 ⟨rfl, Nat.le_add_right _ _, ?_⟩⟩
  simp only [Out.add, List.length_append]

/-- A piece joins the last segment only, which is empty and at the end of the text. -/
theorem joining_eq_some {a : Int} {previous : Segment} (h : out.joining a = some previous) :
    out.segments.getLast? = some previous ∧ previous.displayEnd = previous.displayStart ∧
      previous.displayEnd = out.text.length := by
  rw [joining] at h
  split at h
  · next last hlast =>
    split at h
    · next hjoins =>
      cases h
      exact ⟨hlast, hjoins.2.1, hjoins.2.2.1⟩
    · cases h
  · cases h

end Out

theorem Graphemes.firstLength_le (gs : Graphemes) (t : Text) : gs.firstLength t ≤ t.length := by
  have h := congrArg List.length (gs.flatten_split t)
  rw [firstLength]
  cases hs : gs.split t with
  | nil => exact Nat.zero_le _
  | cons g rest =>
    rw [hs, List.flatten_cons, List.length_append] at h
    exact h ▸ Nat.le_add_right _ _

section

variable {gs : Graphemes} {m : RenderModel} {src : Text} {out : Out}

/-- Source that is shown as it is keeps the tiling, as a segment of its own or joined to the last.
    -/
theorem tiled_emitExact (h : out.Tiled) (a b : Int) (style : Nat) (run : Int) :
    (emitExact gs src out a b style run).Tiled := by
  rw [emitExact]
  by_cases hab : b ≤ a
  · rw [if_pos hab]
    exact h
  rw [if_neg hab]
  dsimp only
  cases hjoin : out.joining a with
  | none => exact h.add _ _ _ _ _ _ _
  | some previous =>
    obtain ⟨hlast, hempty, hend⟩ := Out.joining_eq_some hjoin
    have hsplit := List.dropLast_append_getLast? previous hlast
    rw [Out.Tiled, ← hsplit] at h
    obtain ⟨c, hinit, hstart, -, -⟩ := tiles_append.1 h
    have hfirst := gs.firstLength_le (src.substring a b)
    have hpiece := src.length_substring_le a b
    dsimp only
    rw [Out.Tiled, List.append_assoc]
    refine tiles_append.2 ⟨c, hinit, hstart, by dsimp only; omega, ?_⟩
    dsimp only
    rw [List.length_append]
    split
    · exact tiles_singleton.2 ⟨rfl, by dsimp only; omega, rfl⟩
    · -- The first grapheme is all of the piece.
      change _ = _
      omega

/-- What the walk over an inline leaf keeps while it writes at offsets that `from_` allows: a piece
    may be added there, and the source be written from there. With an offset all later ones are
    allowed. -/
structure Out.Kept (gs : Graphemes) (src : Text) (from_ : Int → Prop) (keeps : Out → Prop) :
    Prop where
  later : ∀ {a b : Int}, from_ a → a ≤ b → from_ b
  add : ∀ {out : Out} {a : Int}, from_ a → keeps out → ∀ piece b styles exact run lineBreak,
    keeps (out.add piece a b styles exact run lineBreak)
  source : ∀ {out : Out} {a : Int}, from_ a → keeps out → ∀ b style run,
    keeps (emitExact gs src out a b style run)

/-- The units that are aligned with the source from `i` on start there or behind. -/
theorem alignedCode_start_le {stop i : Int} {shown : Text} {units : List (Int × Int)}
    (h : alignedCode src stop i shown = some units) : ∀ u ∈ units, i ≤ u.1 := by
  induction shown generalizing i units with
  | nil =>
    rw [alignedCode] at h
    split at h
    · cases h
      exact fun _ hu => absurd hu List.not_mem_nil
    · cases h
  | cons unit shown ih =>
    rw [alignedCode] at h
    have hmap : ∀ {j k : Int}, i ≤ j →
        (alignedCode src stop j shown).map ((i, k) :: ·) = some units → ∀ u ∈ units, i ≤ u.1 := by
      intro j k hij h
      obtain ⟨rest, hrest, rfl⟩ := Option.map_eq_some_iff.1 h
      exact List.forall_mem_cons.2 ⟨le_rfl, fun u hu => hij.trans (ih hrest u hu)⟩
    split at h
    · exact hmap (by omega) h
    · split at h
      · exact hmap (by omega) h
      · cases h

/-- What is left of the units are some of them. -/
theorem mem_of_mem_spanExact {last : Int} {units : List (Int × Int)} {u : Int × Int}
    (h : u ∈ (spanExact last units).2) : u ∈ units := by
  induction units generalizing last with
  | nil => exact h
  | cons v units ih =>
    rw [spanExact] at h
    split at h
    · exact List.mem_cons_of_mem _ (ih h)
    · exact h

namespace Out.Kept

variable {from_ : Int → Prop} {keeps : Out → Prop} (k : Out.Kept gs src from_ keeps)

include k

/-- A gap keeps what a piece keeps, and ends no earlier than where it started. -/
theorem emitGapFrom (b : Int) (covered : List (Int × Int)) {q : Int} (hq : from_ q)
    (h : keeps out) : keeps (emitGapFrom gs src b covered out q).1 ∧
      from_ (Flark.emitGapFrom gs src b covered out q).2 := by
  induction covered generalizing out q with
  | nil => exact ⟨h, hq⟩
  | cons c covered ih =>
    rw [Flark.emitGapFrom]
    split
    · exact ⟨h, hq⟩
    · refine ih (k.later hq (le_max_left _ _)) ?_
      split
      · exact k.source hq h _ _ _
      · exact h

/-- The gap up to the next piece keeps what a piece keeps. -/
theorem fillGap (covered : List (Int × Int)) {p : Int} (hp : from_ p) (h : keeps out) (b : Int) :
    keeps (fillGap gs src covered out p b) := by
  rw [Flark.fillGap]
  split
  · rw [emitGap]
    obtain ⟨hgap, hq⟩ := k.emitGapFrom b (covered.dropWhile fun h => h.2 ≤ p) hp h
    dsimp only
    split
    · exact k.source hq hgap _ _ _
    · exact hgap
  · exact h

/-- The units of a run's text keep what a piece keeps. -/
theorem emitUnits (style : Nat) (run : Int) (fuel : Nat) {units : List (Int × Int)}
    (hunits : ∀ u ∈ units, from_ u.1) (h : keeps out) :
    keeps (emitUnits gs src style run fuel units out) := by
  induction fuel generalizing units out with
  | zero => exact h
  | succ fuel ih =>
    cases units with
    | nil => exact h
    | cons u units =>
      obtain ⟨hu, hunits⟩ := List.forall_mem_cons.1 hunits
      rw [Flark.emitUnits]
      split
      · exact ih hunits (k.add hu h _ _ _ _ _ _)
      · exact ih (fun v hv => hunits v (mem_of_mem_spanExact hv)) (k.source hu h _ _ _)

/-- A run keeps what a piece keeps, one case for each way to show it. -/
theorem emitRun (covered : List (Int × Int)) (styles : List (Int × Nat)) {cs p : Int} (ce : Int)
    (hcs : from_ cs) (hp : from_ p) (h : keeps out) (r : RunView) :
    keeps (emitRun gs src covered styles cs ce out p r).1 ∧
      from_ (Flark.emitRun gs src covered styles cs ce out p r).2 := by
  rw [Flark.emitRun]
  dsimp only
  generalize (if ce < r.contentEnd then ce else r.contentEnd) = b
  have ha : from_ (if r.contentStart < cs then cs else r.contentStart) := by
    split
    · exact hcs
    · exact k.later hcs (by omega)
  generalize (if r.contentStart < cs then cs else r.contentStart) = a at ha ⊢
  have hgap : keeps (Flark.fillGap gs src covered out p a) := k.fillGap covered hp h a
  refine ⟨?_, ?_⟩
  · split
    · split
      · exact k.source ha hgap _ _ _
      · exact hgap
    · split
      -- What is shown instead of the run starts where its content does, which is within.
      · next hwhole =>
        have hrs : from_ r.contentStart := k.later hcs hwhole.1
        split
        · next units hunits =>
          have haligned : ∃ shown,
              alignedCode src r.contentEnd r.contentStart shown = some units := by
            split at hunits
            · exact ⟨_, hunits⟩
            · cases hunits
          obtain ⟨shown, haligned⟩ := haligned
          have hstarts : ∀ u ∈ units, from_ u.1 :=
            fun u hu => k.later hrs (alignedCode_start_le haligned u hu)
          exact k.emitUnits _ _ _ hstarts hgap
        · exact k.add hrs hgap _ _ _ _ _ _
      · split
        · exact k.source ha hgap _ _ _
        · exact hgap
  · split
    · next hlt => exact k.later hp hlt.le
    · exact hp

/-- All runs keep what a piece keeps. -/
theorem emitRuns (covered : List (Int × Int)) (styles : List (Int × Nat)) {cs p : Int} (ce : Int)
    (runs : List RunView) (hcs : from_ cs) (hp : from_ p) (h : keeps out) :
    keeps (emitRuns gs src covered styles cs ce runs out p).1 ∧
      from_ (Flark.emitRuns gs src covered styles cs ce runs out p).2 := by
  induction runs generalizing out p with
  | nil => exact ⟨h, hp⟩
  | cons r runs ih =>
    rw [Flark.emitRuns]
    split
    · exact ⟨h, hp⟩
    · split
      · exact ih hp h
      · obtain ⟨hrun, hp'⟩ := k.emitRun covered styles ce hcs hp h r
        exact ih hp' hrun

/-- A break in front of a piece keeps what a piece keeps. -/
theorem withBreak (options : ProjectionOptions) (cx : InlineContext) (covered : List (Int × Int))
    {previous : Option ContentView} {c : ContentView}
    (hbreak : ∀ p ∈ previous, ∀ start, (breakBefore cx covered p c).1 = some start → from_ start)
    (h : keeps out) : keeps (withBreak options cx out covered previous c).1 := by
  cases previous with
  | none => exact h
  | some previous =>
    rw [Flark.withBreak]
    split
    · exact h
    · next start covered' hstart =>
      have hfrom := hbreak previous rfl start (by rw [hstart])
      rw [emitBreak]
      split <;> exact k.add hfrom h _ _ _ _ _ _

/-- The columns of a tab keep what a piece keeps. -/
theorem emitVirtual {c : ContentView} (hc : from_ c.start) (h : keeps out) :
    keeps (emitVirtual out c) := by
  rw [Flark.emitVirtual]
  split
  · exact k.add hc h _ _ _ _ _ _
  · exact h

/-- A walk over records and breaks that start at allowed offsets. -/
theorem inlineWalk (options : ProjectionOptions) (cx : InlineContext) {content : List ContentView}
    (hcontent : ∀ c ∈ content, from_ c.start) {previous : Option ContentView}
    (hbreak : ∀ p ∈ previous.toList ++ content, ∀ c ∈ content, ∀ covered start,
      (breakBefore cx covered p c).1 = some start → from_ start)
    {st : InlineState} (h : keeps st.out) :
    keeps (inlineWalk gs src options cx previous st content).out := by
  induction content generalizing previous st with
  | nil => exact h
  | cons c content ih =>
    obtain ⟨hc, hcontent⟩ := List.forall_mem_cons.1 hcontent
    have hfirst : keeps (Flark.withBreak options cx st.out st.covered previous c).1 :=
      k.withBreak options cx st.covered (fun p hp start hstart =>
        hbreak p (List.mem_append_left _ (Option.mem_toList.2 hp)) c List.mem_cons_self _ start
          hstart) h
    obtain ⟨hruns, hp⟩ := k.emitRuns cx.covered cx.styles c.stop
      (st.runs.dropWhile fun r => r.contentEnd ≤ c.start) hc hc (k.emitVirtual hc hfirst)
    refine ih hcontent (fun p hp c' hc' => ?_) (k.fillGap cx.covered hp hruns c.stop)
    exact hbreak p (List.mem_append_right _ hp) c' (List.mem_cons_of_mem _ hc')

end Out.Kept

/-- The tiling is kept by every piece, wherever it stands. -/
theorem kept_tiled : Out.Kept gs src (fun _ => True) Out.Tiled where
  later _ _ := True.intro
  add _ h _ _ _ _ _ _ := h.add _ _ _ _ _ _ _
  source _ h _ _ _ := tiled_emitExact h _ _ _ _

/-- What an inline leaf shows is tiled. -/
theorem tiled_inlineWalk (options : ProjectionOptions) (cx : InlineContext)
    (content : List ContentView) {previous : Option ContentView} {st : InlineState}
    (h : st.out.Tiled) : (inlineWalk gs src options cx previous st content).out.Tiled :=
  kept_tiled.inlineWalk options cx (fun _ _ => True.intro) (fun _ _ _ _ _ _ _ => True.intro) h

theorem tiled_emitVirtual (h : out.Tiled) (c : ContentView) : (emitVirtual out c).Tiled :=
  (@kept_tiled .units []).emitVirtual True.intro h

/-- What a literal leaf shows is tiled. -/
theorem tiled_literalWalk (leaf : LeafRecords) (content : List ContentView)
    {previous : Option ContentView} {st : LiteralState} (h : st.out.Tiled) :
    (literalWalk src leaf previous st content).out.Tiled := by
  induction content generalizing previous st with
  | nil => exact h
  | cons c content ih =>
    have hbreak : (literalBreak st.out previous c).Tiled := by
      cases previous with
      | none => exact h
      | some previous => exact h.add _ _ _ _ _ _ _
    refine ih ?_
    simp only [literalStep]
    split
    · exact (tiled_emitVirtual hbreak c).add _ _ _ _ _ _ _
    · exact tiled_emitVirtual hbreak c

/-- What a definition shows is tiled. -/
theorem tiled_definitionWalk (raw : Text) (base : Nat) (rest : Text) (i cursor : Nat)
    (h : out.Tiled) : (RenderModel.definitionWalk raw base rest i cursor out).Tiled := by
  have hemit : ∀ {out : Out} (cursor stop : Nat), out.Tiled →
      (RenderModel.emitDefinition raw base out cursor stop).Tiled := by
    intro out cursor stop h
    rw [RenderModel.emitDefinition]
    split
    · exact h
    · exact h.add _ _ _ _ _ _ _
  induction rest generalizing i cursor out with
  | nil => exact hemit _ _ h
  | cons u rest ih =>
    rw [RenderModel.definitionWalk]
    split
    · exact ih _ _ ((hemit _ _ h).add _ _ _ _ _ _ _)
    · exact ih _ _ h

end

/-! ## Carets on a line -/

namespace RenderModel

/-- The schema's invariants that the caret positions rely on besides: blocks come after their
    parents and start on their first line; a content record belongs to the line it names and
    stops at that line's end; a heading that begins with definitions has text; runs are in
    document order and inside the source. -/
structure SchemaConforms (m : RenderModel) (src : Text) : Prop extends m.Conforms src where
  parent : ∀ b < m.blockCount, m.blockParent b = noParent ∨ m.blockParent b < b
  blockStart : ∀ b < m.blockCount, m.linesStart src b ≤ m.blockStart b
  contentLine : ∀ b < m.blockCount, isLeaf (m.blockKind b) → ∀ c ∈ m.contentOf b,
    c.line < m.lineCount ∧ lineBound src c.line.toNat ≤ c.start ∧ c.start ≤ c.stop ∧
      c.stop ≤ m.lineEndOf src c.line
  lineOrder : ∀ b < m.blockCount, isLeaf (m.blockKind b) →
    (m.contentOf b).Pairwise fun c c' => c.line < c'.line
  afterDefinitions : ∀ b < m.blockCount, m.blockKind b = BlockKind.heading →
    ∀ c ∈ (m.contentOf b).head?, m.blockFirstLine b < c.line → c.start < c.stop
  runOrder : ∀ r < m.runCount, ∀ q < r, m.runStart q ≤ m.runStart r
  runRange : ∀ r < m.runCount, m.runStart r ≤ m.runContentStart r ∧
    m.runContentStart r ≤ m.runContentEnd r ∧ m.runContentEnd r ≤ m.runEnd r ∧
    m.runEnd r ≤ src.length

/-- The offsets from `s` to `e`, or `s` alone when `e` is before it, lie on line `l`. -/
def OnLine (m : RenderModel) (l : Nat) (s e : Int) : Prop :=
  0 ≤ s → ∀ x, s ≤ x → x ≤ max s e → m.lineAt x = l

/-- Two lists of carets, from line `first` on: those of each line lie on it. -/
structure LineLists (m : RenderModel) (first : Nat) (starts ends : List Int) : Prop where
  length_eq : starts.length = ends.length
  onLine : ∀ i, m.OnLine (first + i) (starts.getD i (-1)) (ends.getD i (-1))

/-- A place that is absent is on every line. -/
theorem onLine_absent {m : RenderModel} {l : Nat} {e : Int} : m.OnLine l (-1) e :=
  fun h => absurd h (by decide)

namespace HasLineTable

variable {m : RenderModel} {src : Text}

/-- A line that another one follows ends before that one starts. -/
theorem lineEndOf_lt (h : m.HasLineTable src) {l : Nat} (hl : l + 1 < m.lineCount) :
    m.lineEndOf src l < lineBound src (l + 1) := by
  rw [h.count] at hl
  have hlt := lineBound_lt (Nat.lt_succ_self l) hl
  obtain ⟨i, u, hi, hu, he⟩ := isLineStart_lineBound (Nat.succ_pos l) hl
  rw [h.lineEndOf_eq (h.count ▸ (Nat.lt_succ_self l).trans hl), Nat.succ_eq_add_one] at *
  obtain ⟨n, hn⟩ := Nat.exists_eq_add_of_lt hlt
  have hlen : lineBound src (l + 1) - lineBound src l = n + 1 := by omega
  have hunit : src.codeUnitAt (lineBound src l + n : Nat) = u := by
    rw [Text.codeUnitAt, Int.toNat_natCast, show lineBound src l + n = i by omega,
      List.getD_eq_getElem?_getD, hu, Option.getD_some]
  -- The unit before the next line is a line ending, which the loop drops.
  rw [hlen, lineEndOf.trim, hunit, if_pos (he.imp id And.left)]
  have := trim_le src (lineBound src l) n
  omega

/-- The offsets from the start of a line to its end are on the line. -/
theorem lineAt_eq (h : m.HasLineTable src) {l : Nat} (hl : l < m.lineCount) {x : Int}
    (hx : lineBound src l ≤ x) (hx' : x ≤ m.lineEndOf src l) : m.lineAt x = l := by
  rw [lineAt]
  refine congrArg Nat.cast (h.lineOfUtf16_eq_iff.2 ⟨hl, by omega, fun hlt => ?_⟩)
  have := h.lineEndOf_lt hlt
  omega

/-- What is between a line's start and its end is on the line. -/
theorem onLine (h : m.HasLineTable src) {l : Nat} (hl : l < m.lineCount) {s e : Int}
    (hs : lineBound src l ≤ s) (hs' : s ≤ m.lineEndOf src l) (he : e ≤ m.lineEndOf src l) :
    m.OnLine l s e := fun _ _ hx hx' =>
  h.lineAt_eq hl (hs.trans hx) (hx'.trans (max_le hs' he))

theorem onLine_lineEnd (h : m.HasLineTable src) {l : Nat} (hl : l < m.lineCount) :
    m.OnLine l (m.lineEndOf src l) (m.lineEndOf src l) :=
  h.onLine hl (h.lineBound_le_lineEndOf hl) le_rfl le_rfl

end HasLineTable

namespace LineLists

variable {m : RenderModel} {first : Nat} {starts ends : List Int}

/-- Lines without places are lists of lines. -/
theorem absent (n : Nat) :
    m.LineLists first (List.replicate n (-1)) (List.replicate n (-1)) :=
  ⟨rfl, fun i => by
    rw [show (List.replicate n (-1 : Int)).getD i (-1) = -1 by
      rw [List.getD_eq_getElem?_getD, List.getElem?_replicate]
      split <;> rfl]
    exact onLine_absent⟩

/-- One line's places are lists of lines. -/
theorem singleton {s e : Int} (h : m.OnLine first s e) : m.LineLists first [s] [e] := by
  refine ⟨rfl, fun i => ?_⟩
  cases i with
  | zero => exact h
  | succ i => exact onLine_absent

/-- Places set on their own line leave lists of lines. -/
theorem set (h : m.LineLists first starts ends) {i : Nat} {s e : Int}
    (hse : m.OnLine (first + i) s e) : m.LineLists first (starts.set i s) (ends.set i e) := by
  refine ⟨by rw [List.length_set, List.length_set, h.length_eq], fun j => ?_⟩
  have hlen := h.length_eq
  have hj := h.onLine j
  rw [List.getD_eq_getElem?_getD, List.getD_eq_getElem?_getD] at hj ⊢
  rw [List.getElem?_set, List.getElem?_set, ← hlen]
  by_cases hij : i = j
  · subst hij
    simp only [if_true]
    split
    · exact hse
    · exact onLine_absent
  · simp only [hij, if_false]
    exact hj

/-- Places set on a line of the row, or on none, leave lists of lines. -/
theorem setLine {first : Int} (hfirst : 0 ≤ first)
    (h : m.LineLists first.toNat starts ends) (n : Nat) {line s e : Int}
    (hse : m.OnLine line.toNat s e) :
    m.LineLists first.toNat (setLine starts first line n s) (setLine ends first line n e) := by
  unfold Flark.setLine
  by_cases hin : first ≤ line ∧ line < first + n
  · rw [if_pos hin, if_pos hin]
    refine h.set ?_
    rwa [show first.toNat + (line - first).toNat = line.toNat by omega]
  · rw [if_neg hin, if_neg hin]
    exact h

end LineLists

end RenderModel

/-! ## The rows of leaves -/

/-- What every row keeps to: its segments cover its text, and its carets lie on their lines. -/
structure ProjectedRow.Shape (m : RenderModel) (row : ProjectedRow) : Prop where
  tiles : Tiles 0 row.segments row.text.length
  lines : m.LineLists row.firstLine row.contentStarts row.contentEnds

section

variable {gs : Graphemes} {m : RenderModel} {src : Text}

/-- The walk over the records of an inline leaf sets the carets of the lines they name. -/
theorem lineLists_inlineWalk {options : ProjectionOptions} {cx : InlineContext} {first : Int}
    (hcx : cx.first = first) (hfirst : 0 ≤ first) {content : List ContentView}
    (hcontent : ∀ c ∈ content, m.OnLine c.line.toNat c.start c.stop)
    {previous : Option ContentView} {st : InlineState}
    (h : m.LineLists first.toNat st.starts st.ends) :
    m.LineLists first.toNat (inlineWalk gs src options cx previous st content).starts
      (inlineWalk gs src options cx previous st content).ends := by
  subst hcx
  induction content generalizing previous st with
  | nil => exact h
  | cons c content ih =>
    refine ih (fun c' hc' => hcontent c' (List.mem_cons_of_mem _ hc')) ?_
    exact h.setLine hfirst _ (hcontent c List.mem_cons_self)

/-- An inline leaf sets places on their own lines only. -/
theorem lineLists_inlineResult {options : ProjectionOptions} {leaf : LeafRecords}
    (hfirst : 0 ≤ leaf.rowLines.1)
    (hcontent : ∀ c ∈ leaf.content, m.OnLine c.line.toNat c.start c.stop) :
    m.LineLists leaf.rowLines.1.toNat (inlineResult gs m src options leaf).starts
      (inlineResult gs m src options leaf).ends := by
  unfold inlineResult
  refine lineLists_inlineWalk ?_ hfirst hcontent ?_
  · rfl
  · exact RenderModel.LineLists.absent _

/-- The pieces of a literal leaf set places on their own lines only. -/
theorem lineLists_literalWalk {leaf : LeafRecords} (hfirst : 0 ≤ leaf.firstLine)
    {content : List ContentView} (hcontent : ∀ c ∈ content, m.OnLine c.line.toNat c.start c.stop)
    {previous : Option ContentView} {st : LiteralState}
    (h : m.LineLists leaf.firstLine.toNat st.starts st.ends) :
    m.LineLists leaf.firstLine.toNat (literalWalk src leaf previous st content).starts
      (literalWalk src leaf previous st content).ends := by
  induction content generalizing previous st with
  | nil => exact h
  | cons c content ih =>
    refine ih (fun c' hc' => hcontent c' (List.mem_cons_of_mem _ hc')) ?_
    exact h.setLine hfirst _ (hcontent c List.mem_cons_self)

/-- A literal leaf sets places on their own lines only. -/
theorem lineLists_literalResult {leaf : LeafRecords} (hfirst : 0 ≤ leaf.firstLine)
    (hcontent : ∀ c ∈ leaf.content, m.OnLine c.line.toNat c.start c.stop) :
    m.LineLists leaf.firstLine.toNat (literalResult src leaf).starts
      (literalResult src leaf).ends := by
  unfold literalResult
  refine lineLists_literalWalk hfirst hcontent ?_
  exact RenderModel.LineLists.absent _

/-- Clearing the lines of fences leaves lists of lines. -/
theorem lineLists_clearFences {first : Nat} {starts ends : List Int}
    (h : m.LineLists first starts ends) (closed : Bool) :
    m.LineLists first (clearFences closed starts) (clearFences closed ends) := by
  have hopened := h.set (i := 0) (s := -1) (e := -1) RenderModel.onLine_absent
  simp only [clearFences, h.length_eq]
  split
  · exact hopened.set RenderModel.onLine_absent
  · exact hopened

/-- The extent of an inline leaf starts with its first record, and ends with its last. -/
theorem inlineWalk_extent {options : ProjectionOptions} {cx : InlineContext}
    {content : List ContentView} {previous : Option ContentView} {st : InlineState} :
    (0 ≤ st.sourceStart →
      (inlineWalk gs src options cx previous st content).sourceStart = st.sourceStart) ∧
    (inlineWalk gs src options cx previous st content).sourceEnd =
      (content.getLast?.map ContentView.stop).getD st.sourceEnd := by
  induction content generalizing previous st with
  | nil => exact ⟨fun _ => rfl, rfl⟩
  | cons c content ih =>
    obtain ⟨hstart, hstop⟩ := @ih (some c) (inlineStep gs src options cx previous st c)
    refine ⟨fun h => ?_, ?_⟩
    · have hkeep : (inlineStep gs src options cx previous st c).sourceStart = st.sourceStart :=
        if_neg (not_lt.2 h)
      rw [inlineWalk, hstart (hkeep ▸ h), hkeep]
    · rw [inlineWalk, hstop]
      cases content <;> rfl

/-- A row of a bare prefix is tiled by what it shows of the prefix. -/
theorem tiles_barePrefixRow {block line : Nat} {start stop : Int} {shells : List Shell}
    (hstart : 0 ≤ start) (hstop : stop ≤ src.length) :
    Tiles 0 (barePrefixRow src block line start stop shells).segments
      (barePrefixRow src block line start stop shells).text.length := by
  refine tiles_singleton.2 ⟨rfl, Nat.zero_le _, ?_⟩
  simp only [barePrefixRow, Text.substring, List.length_take, List.length_drop]
  omega

/-- The rows of a leaf start on its own line, or on that of its first record. -/
theorem rowLines_cases (b : Nat) :
    ((m.leaf b).rowLines = ((m.blockFirstLine b : Int), m.blockLineCount b)) ∨
      ∃ c rest, m.contentOf b = c :: rest ∧ (m.blockFirstLine b : Int) < c.line ∧
        (m.leaf b).rowLines.1 = c.line := by
  rw [LeafRecords.rowLines]
  split
  · exact Or.inl rfl
  · split
    · exact Or.inl rfl
    · next c rest hcontent =>
      split
      · next hline => exact Or.inr ⟨c, rest, hcontent, hline.1, rfl⟩
      · exact Or.inl rfl

theorem shellOf_block {b : Nat} {shell : Shell} (h : m.shellOf b = some shell) :
    shell.block = b := by
  simp only [RenderModel.shellOf] at h
  repeat' split at h
  all_goals first | (cases h; rfl) | cases h

/-- The container of a line is a block of the model. -/
theorem containerOf_lt {l b : Nat} (h : m.containerOf l = some b) : b < m.blockCount := by
  have hfold : ∀ (blocks : List Nat) (found : Option Nat),
      blocks.foldl (fun found b => if m.containerCovers b l then some b else found) found =
        some b → b ∈ blocks ∨ found = some b := by
    intro blocks
    induction blocks with
    | nil => exact fun found h => Or.inr h
    | cons a blocks ih =>
      intro found h
      rcases ih _ h with h | h
      · exact Or.inl (List.mem_cons_of_mem _ h)
      · dsimp only at h
        split at h
        · cases h
          exact Or.inl List.mem_cons_self
        · exact Or.inr h
  exact List.mem_range.1 ((hfold _ none h).resolve_right (by simp))

variable (hm : m.SchemaConforms src)

include hm

theorem lineEndOf_le_length {l : Nat} (hl : l < m.lineCount) :
    m.lineEndOf src l ≤ src.length :=
  (hm.table.lineEndOf_le_lineBound hl).trans (Int.ofNat_le.2 (lineBound_le_length src (l + 1)))

/-- The content of a leaf is on the lines it is recorded for. -/
theorem content_onLine {b : Nat} (hb : b < m.blockCount)
    (hleaf : RenderModel.isLeaf (m.blockKind b) = true) {c : ContentView}
    (hc : c ∈ m.contentOf b) : m.OnLine c.line.toNat c.start c.stop := by
  obtain ⟨hl, hstart, hle, hstop⟩ := hm.contentLine b hb hleaf c hc
  obtain ⟨i, _, rfl⟩ := List.mem_map.1 hc
  simp only [RenderModel.contentView, Int.toNat_natCast] at *
  exact hm.table.onLine (by omega) hstart (hle.trans hstop) hstop

/-- The records of a leaf lie one behind the other. -/
theorem content_stop_le {b : Nat} (hb : b < m.blockCount)
    (hleaf : RenderModel.isLeaf (m.blockKind b) = true) {c c' : ContentView}
    (hc : c ∈ m.contentOf b) (hc' : c' ∈ m.contentOf b) (hlt : c.line < c'.line) :
    c.stop ≤ c'.start := by
  obtain ⟨hl, -, -, hstop⟩ := hm.contentLine b hb hleaf c hc
  obtain ⟨hl', hstart', -, -⟩ := hm.contentLine b hb hleaf c' hc'
  obtain ⟨i, _, rfl⟩ := List.mem_map.1 hc
  obtain ⟨j, _, rfl⟩ := List.mem_map.1 hc'
  simp only [RenderModel.contentView, Int.toNat_natCast] at *
  have hmono : lineBound src (m.contentLine i + 1) ≤ lineBound src (m.contentLine j) :=
    lineBound_mono (by omega)
  have := hm.table.lineEndOf_le_lineBound (l := m.contentLine i) (by omega)
  omega

/-- A row of inline content is tiled, with its places on its lines. -/
theorem shape_inlineRow {b : Nat} (hb : b < m.blockCount)
    (hinline : RenderModel.isInline (m.blockKind b) = true) (options : ProjectionOptions)
    (shells : List Shell) (cell : CellFields) :
    (inlineRow gs m src options b (m.leaf b) shells cell).Shape m := by
  have hleaf : RenderModel.isLeaf (m.blockKind b) = true := by
    rw [RenderModel.isLeaf, hinline, Bool.true_or]
  have hcontent : ∀ c ∈ (m.leaf b).content, m.OnLine c.line.toNat c.start c.stop :=
    fun c hc => content_onLine hm hb hleaf hc
  have hfirst : 0 ≤ (m.leaf b).rowLines.1 := by
    rcases rowLines_cases (m := m) b with h | ⟨c, rest, -, hlt, h⟩
    · rw [h]
      exact Int.natCast_nonneg _
    · rw [h]
      omega
  simp only [inlineRow]
  split
  · next hbare =>
    obtain ⟨hkind, hn, hempty, hend, hattr⟩ := hbare
    -- A bare prefix is shown of an empty leaf only. Its row is on the leaf's one line.
    rcases rowLines_cases (m := m) b with hlines | ⟨c, rest, hrecords, hlt, hline⟩
    · rw [hlines] at hn hend
      rw [hlines]
      dsimp only at hend ⊢
      have hn : m.blockLineCount b = 1 := hn
      have hin := (hm.leaf b hb hleaf (by omega)).lines
      have hstart := hm.blockStart b hb
      have hle : (m.blockStart b : Int) ≤ m.lineEndOf src (m.blockFirstLine b) := by
        rw [← hend]
        have hattr : _ - (m.blockStart b : Int) = (m.blockAttr b : Nat) := hattr
        omega
      rw [hend]
      refine ⟨tiles_barePrefixRow (Int.natCast_nonneg _) (lineEndOf_le_length hm (by omega)), ?_⟩
      exact @RenderModel.LineLists.singleton m (m.blockFirstLine b) _ _
        (hm.table.onLine (by omega) (Int.ofNat_le.2 hstart) hle le_rfl)
    · -- A heading that begins with definitions has text, so its extent is not empty.
      exfalso
      have hkind : m.blockKind b = BlockKind.heading := hkind
      have hmem : c ∈ m.contentOf b := hrecords ▸ List.mem_cons_self
      have hlong := hm.afterDefinitions b hb hkind c (by rw [hrecords]; rfl) hlt
      have hcontent' : (m.leaf b).content = c :: rest := hrecords
      have hnonneg : 0 ≤ c.start := by
        have := (hm.contentLine b hb hleaf c hmem).2.1
        omega
      rw [inlineResult, hcontent'] at hempty
      simp only [inlineWalk] at hempty
      rw [inlineWalk_extent.2, inlineWalk_extent.1 (by exact hnonneg)] at hempty
      have hfirst : ∀ x : Int, (if (-1 : Int) < 0 then c.start else x) = c.start := fun _ => rfl
      simp only [inlineStep, hfirst] at hempty
      cases hlast : rest.getLast? with
      | none =>
        rw [hlast] at hempty
        exact absurd hempty (ne_of_lt hlong)
      | some last =>
        rw [hlast] at hempty
        have hin : last ∈ rest := List.mem_of_getLast? hlast
        have hlast' : last ∈ m.contentOf b := hrecords ▸ List.mem_cons_of_mem _ hin
        have horder := hm.lineOrder b hb hleaf
        rw [hrecords] at horder
        have hstop := content_stop_le hm hb hleaf hmem hlast'
          ((List.pairwise_cons.1 horder).1 last hin)
        have := (hm.contentLine b hb hleaf last hlast').2.2.1
        simp only [Option.map_some, Option.getD_some] at hempty
        omega
  · exact ⟨tiled_inlineWalk _ _ _ Out.tiled_nil, lineLists_inlineResult hfirst hcontent⟩

/-- Filling in the ends of lines leaves lists of lines. -/
theorem lineLists_fillLineEnds {first : Nat} {starts ends : List Int}
    (h : m.LineLists first starts ends) :
    m.LineLists first (fillLineEnds m src first starts starts)
      (fillLineEnds m src first starts ends) := by
  refine ⟨by simp only [fillLineEnds, List.length_mapIdx, h.length_eq], fun i => ?_⟩
  have hi := h.onLine i
  have hlen := h.length_eq
  simp only [fillLineEnds, List.getD_eq_getElem?_getD, List.getElem?_mapIdx] at hi ⊢
  rcases Nat.lt_or_ge i starts.length with hlt | hge
  · rw [List.getElem?_eq_getElem hlt, List.getElem?_eq_getElem (hlen ▸ hlt)] at hi ⊢
    simp only [Option.map_some, Option.getD_some] at hi ⊢
    split
    · exact hi
    · next hfill =>
      rw [not_or] at hfill
      exact hm.table.onLine_lineEnd (by omega)
  · rw [List.getElem?_eq_none hge]
    exact RenderModel.onLine_absent

/-- A row of literal content is tiled, with its places on its lines. -/
theorem shape_literalRow {b : Nat} (hb : b < m.blockCount)
    (hleaf : RenderModel.isLeaf (m.blockKind b) = true) (shells : List Shell) :
    (literalRow m src b (m.leaf b) shells).Shape m := by
  have hlines : m.LineLists (m.blockFirstLine b) (literalResult src (m.leaf b)).starts
      (literalResult src (m.leaf b)).ends :=
    @lineLists_literalResult m src (m.leaf b) (Int.natCast_nonneg _)
      fun c hc => content_onLine hm hb hleaf hc
  have hfilled := lineLists_fillLineEnds hm hlines
  refine ⟨tiled_literalWalk _ _ Out.tiled_nil, ?_⟩
  simp only [literalRow, literalLines]
  split
  · exact lineLists_clearFences hfilled _
  · exact hfilled

/-- A row of a leaf is tiled, with its places on its lines. -/
theorem shape_freshRow {b : Nat} (hb : b < m.blockCount)
    (hleaf : RenderModel.isLeaf (m.blockKind b) = true) (options : ProjectionOptions) :
    (m.freshRow src gs options b).Shape m := by
  rw [RenderModel.freshRow]
  split
  · next hinline => exact shape_inlineRow hm hb hinline options _ _
  · exact shape_literalRow hm hb hleaf _

/-! ## The other rows -/

/-- A row of a definition is tiled, with its places on its lines. -/
theorem shape_definitionRow (d : Nat) : (m.definitionRow src d).Shape m := by
  refine ⟨tiled_definitionWalk _ _ _ _ _ Out.tiled_nil, ?_⟩
  refine ⟨by simp only [RenderModel.definitionRow, List.length_map], fun i => ?_⟩
  simp only [RenderModel.definitionRow]
  generalize (m.definitionStart d + _ : Nat) = sourceEnd
  generalize hstart : m.definitionStart d = start
  generalize hlast : m.lineOfUtf16 (if start < m.definitionEnd d then _ else _) = last
  have hlt : last < m.lineCount := hlast ▸ hm.table.lineOfUtf16_lt _
  obtain ⟨hfirst, hle, hnext⟩ := hm.table.lineOfUtf16_eq_iff.1 (rfl : m.lineOfUtf16 start = _)
  generalize m.lineOfUtf16 start = first at *
  simp only [List.getD_eq_getElem?_getD, List.getElem?_map]
  rcases Nat.lt_or_ge i (last + 1 - first) with hi | hi
  · rw [List.getElem?_range' hi]
    simp only [Option.map_some, Option.getD_some, Nat.one_mul]
    have hl : first + i < m.lineCount := by omega
    rw [hm.table.starts _ hl]
    intro _ x hx hx'
    rcases Int.lt_or_le (m.lineEnd src (first + i)) x with hbehind | hin
    · -- Only the line's start itself lies behind its content.
      have hx'' : x = (max start (lineBound src (first + i)) : Nat) := by
        have := min_le_right (sourceEnd : Int) (m.lineEnd src (first + i))
        rcases le_max_iff.1 hx' with h | h
        · exact le_antisymm h hx
        · omega
      rw [RenderModel.lineAt, hx'', Int.toNat_natCast]
      refine congrArg Nat.cast (hm.table.lineOfUtf16_eq_iff.2 ⟨hl, le_max_right _ _, fun h => ?_⟩)
      refine max_lt ?_ (lineBound_lt (Nat.lt_succ_self _) (hm.table.count ▸ h))
      exact (hnext (by omega)).trans_le (lineBound_mono (by omega))
    · exact hm.table.lineAt_eq hl (le_trans (Int.ofNat_le.2 (le_max_right _ _)) hx) hin
  · rw [List.getElem?_eq_none (by simpa using hi)]
    exact RenderModel.onLine_absent

/-- A row of a thematic break is tiled, with its places on its line. -/
theorem shape_thematicBreakRow (b : Nat) : (m.thematicBreakRow src b).Shape m := by
  refine ⟨rfl, rfl, fun i => ?_⟩
  simp only [RenderModel.thematicBreakRow, RenderModel.lineEnds, List.getD_eq_getElem?_getD,
    List.getElem?_map]
  generalize m.blockFirstLine b = first
  rcases Nat.lt_or_ge i (min (first + m.blockLineCount b) m.lineCount - first) with hi | hi
  · rw [List.getElem?_range' hi]
    simp only [Option.map_some, Option.getD_some, Nat.one_mul]
    exact hm.table.onLine_lineEnd (by omega)
  · rw [List.getElem?_eq_none (by simpa using hi)]
    exact RenderModel.onLine_absent

/-- A row of a table's delimiter line is tiled, with its places on its line. -/
theorem shape_delimiterRow {table line : Nat} (hl : line < m.lineCount) {row : ProjectedRow}
    (h : m.delimiterRow src table line = some row) : row.Shape m := by
  have hstop : m.lineEnd src line ≤ src.length := lineEndOf_le_length hm hl
  have hstart := hm.table.starts line hl
  have hshape : ∀ start : Int, (m.lineStartUtf16 line : Int) ≤ start →
      start ≤ m.lineEnd src line →
      Tiles 0 (if start < m.lineEnd src line then
        [⟨0, (m.lineEnd src line - start).toNat, start, m.lineEnd src line, 0, true, -1, false⟩]
        else []) (src.substring start (m.lineEnd src line)).length ∧
      m.LineLists line [start] [m.lineEnd src line] := by
    intro start hlo hle
    rw [hstart] at hlo
    refine ⟨?_, RenderModel.LineLists.singleton (hm.table.onLine hl hlo hle le_rfl)⟩
    have hlen : (src.substring start (m.lineEnd src line)).length =
        (m.lineEnd src line - start).toNat := by
      simp only [Text.substring, List.length_take, List.length_drop]
      omega
    rw [hlen]
    split
    · exact tiles_singleton.2 ⟨rfl, Nat.zero_le _, rfl⟩
    · change 0 = _
      omega
  simp only [RenderModel.delimiterRow] at h
  split at h
  · cases h
    obtain ⟨h₁, h₂⟩ := hshape _ le_rfl (hstart ▸ hm.table.lineBound_le_lineEndOf hl)
    exact ⟨h₁, h₂⟩
  · split at h
    · next hprefix =>
      cases h
      obtain ⟨h₁, h₂⟩ := hshape _ (by omega) hprefix.2
      exact ⟨h₁, h₂⟩
    · cases h

/-- The shells around a block are blocks of the model. -/
theorem block_lt_of_mem_shellChain {fuel b : Nat} (hb : b < m.blockCount) {shell : Shell}
    (h : shell ∈ m.shellChain fuel b) : shell.block < m.blockCount := by
  induction fuel generalizing b with
  | zero => cases h
  | succ fuel ih =>
    rw [RenderModel.shellChain] at h
    split at h
    · cases h
    · rcases List.mem_append.1 h with h | h
      · rcases hm.parent b hb with hparent | hparent
        · rw [hparent] at h
          cases fuel with
          | zero => cases h
          | succ fuel =>
            rw [RenderModel.shellChain, if_pos rfl] at h
            cases h
        · exact ih (hparent.trans hb) h
      · rw [shellOf_block (Option.mem_toList.1 h)]
        exact hb

/-- A row of a blank line is tiled, with its places on its line. -/
theorem shape_blankRow {l : Nat} (hl : l < m.lineCount) : (m.blankRow src l).Shape m := by
  have hstop : m.lineEnd src l ≤ src.length := lineEndOf_le_length hm hl
  simp only [RenderModel.blankRow]
  split
  · next item hitem =>
    rw [RenderModel.bareItem] at hitem
    split at hitem
    · cases hitem
    next inner hinner =>
    split at hitem
    swap
    · cases hitem
    dsimp only at hitem
    split at hitem
    swap
    · cases hitem
    next hbare =>
    cases hitem
    obtain ⟨-, hfirst, hwidth, -⟩ := hbare
    have hblock : inner.block < m.blockCount := by
      have hmem := List.mem_of_getLast? hinner
      cases hcontainer : m.containerOf l with
      | none =>
        rw [hcontainer] at hmem
        cases hmem
      | some b =>
        rw [hcontainer] at hmem
        exact block_lt_of_mem_shellChain hm (containerOf_lt hcontainer) hmem
    have hstart := hm.blockStart _ hblock
    rw [RenderModel.linesStart, hfirst] at hstart
    refine ⟨tiles_barePrefixRow (Int.natCast_nonneg _) hstop, ?_⟩
    have hstop' : m.lineEnd src l = m.lineEndOf src l := rfl
    exact RenderModel.LineLists.singleton
      (hm.table.onLine hl (Int.ofNat_le.2 hstart) (by omega) le_rfl)
  · exact ⟨rfl, RenderModel.LineLists.singleton (hm.table.onLine_lineEnd hl)⟩

/-! ## All rows -/

/-- The rows of a conforming model keep to the shape of rows. -/
theorem shape_buildRows (options : ProjectionOptions) :
    ∀ r ∈ buildRows gs m src options fun _ => none, r.Shape m :=
  forall_buildRows (fun d => shape_definitionRow hm d)
    (fun _ hb hleaf => shape_freshRow hm hb hleaf options)
    (fun b _ _ => shape_thematicBreakRow hm b)
    (fun _ _ _ hl hrow => shape_delimiterRow hm hl hrow) fun _ hl => shape_blankRow hm hl

end

/-! ## The rows of a projection -/

/-- The shape of a row is one of its content. -/
theorem shape_congr {m : RenderModel} {row row' : ProjectedRow} (h : row.content = row'.content)
    (hs : row.Shape m) : row'.Shape m := by
  cases row
  cases row'
  simp only [ProjectedRow.content, ProjectedRow.mk.injEq, true_and] at h
  obtain ⟨-, -, rfl, -, rfl, rfl, -, -, -, rfl, rfl, -⟩ := h
  exact ⟨hs.tiles, hs.lines⟩

/-- Rows are numbered and get their spacing, and keep their content. -/
theorem mem_ofRows {m : RenderModel} {src : Text} {options : ProjectionOptions}
    {rows : List ProjectedRow} {r : ProjectedRow}
    (h : r ∈ (Projection.ofRows m src options rows).rows) :
    ∃ r' ∈ rows, r'.content = r.content := by
  obtain ⟨i, hi, rfl⟩ := List.mem_mapIdx.1 h
  obtain ⟨l, _, hl⟩ := List.mem_flatMap.1 (List.getElem_mem hi)
  exact ⟨_, List.mem_of_mem_filter ((List.mem_insertionSort _).1 hl), rfl⟩

/-- The rows of a projection know their places. -/
theorem Built.index {gs : Graphemes} {p : Projection} (h : Built gs p) {i : Nat}
    {row : ProjectedRow} (hrow : p.rows[i]? = some row) : row.index = i := by
  have hplaced : ∀ {m : RenderModel} {src : Text} {options : ProjectionOptions}
      {rows : List ProjectedRow}, (Projection.ofRows m src options rows).rows[i]? = some row →
      row.index = i := by
    intro m src options rows hrow
    rw [Projection.ofRows, List.getElem?_mapIdx, Option.map_eq_some_iff] at hrow
    obtain ⟨r, -, rfl⟩ := hrow
    rfl
  cases h with
  | anew => exact hplaced hrow
  | reusing => exact hplaced hrow

/-- What rows built anew show holds of the rows of a projection, built with or without an earlier
    one. -/
theorem Built.forall_rows {gs : Graphemes} {p : Projection} (h : Built gs p)
    {P : ProjectedRow → Prop}
    (hcongr : ∀ row row' : ProjectedRow, row.content = row'.content → P row → P row')
    (hanew : ∀ r ∈ buildRows gs p.model p.source p.options fun _ => none, P r) :
    ∀ r ∈ p.rows, P r := by
  intro r hr
  cases h with
  | anew hc options =>
    obtain ⟨fresh, hfresh, hcontent⟩ := mem_ofRows hr
    exact hcongr _ _ hcontent (hanew fresh hfresh)
  | reusing hc options hprevious =>
    obtain ⟨row, hrow, hcontent⟩ := mem_ofRows hr
    have hmem := List.mem_map_of_mem (f := ProjectedRow.content) hrow
    rw [buildRows_reusing hc options hprevious.valid] at hmem
    obtain ⟨fresh, hfresh, hcontent'⟩ := List.mem_map.1 hmem
    exact hcongr _ _ (hcontent'.trans hcontent) (hanew fresh hfresh)

/-- The rows of a projection keep to the shape of rows. -/
theorem Built.shape {gs : Graphemes} {p : Projection} (h : Built gs p)
    (hm : p.model.SchemaConforms p.source) : ∀ r ∈ p.rows, r.Shape p.model :=
  h.forall_rows (fun _ _ => shape_congr) (shape_buildRows hm p.options)

end Flark
