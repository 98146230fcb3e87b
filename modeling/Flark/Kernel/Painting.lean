import Flark.Kernel.DisplayOrder

/-!
# What rows paint

The segments of a row run forward in the source, one behind the other and within the extent of the
row (`Along`), whatever kind of row it is.

* `along_inlineRow`: the row of an inline leaf, from what its walk writes and from where;
* `Built.along`: all rows of a projection;
* `movedFrom_of_origin`: a row taken over has the segments of its old row, moved with it.
-/

namespace Flark

/-- Segments from `lo` to `hi` in the source, one behind the other. -/
structure Along (lo hi : Int) (segments : List Segment) : Prop where
  within : ∀ s ∈ segments, lo ≤ s.sourceStart ∧ s.sourceStart ≤ s.sourceEnd ∧ s.sourceEnd ≤ hi
  ordered : segments.Pairwise fun s t => s.sourceEnd ≤ t.sourceStart

namespace Along

variable {lo hi a b : Int} {segments : List Segment} {out : Out}

theorem nil : Along lo hi [] := ⟨nofun, List.Pairwise.nil⟩

theorem singleton {s : Segment} (hlo : lo ≤ s.sourceStart) (hle : s.sourceStart ≤ s.sourceEnd)
    (hhi : s.sourceEnd ≤ hi) : Along lo hi [s] :=
  ⟨List.forall_mem_singleton.2 ⟨hlo, hle, hhi⟩, List.pairwise_singleton _ _⟩

theorem mono (h : Along lo a segments) (hle : a ≤ b) : Along lo b segments where
  within s hs := ⟨(h.within s hs).1, (h.within s hs).2.1, (h.within s hs).2.2.trans hle⟩
  ordered := h.ordered

/-- A piece behind what is written. -/
theorem add (h : Along lo a out.segments) (hlo : lo ≤ a) (hab : a ≤ b) (piece : Text)
    (styles : Nat) (exact : Bool) (run : Int) (lineBreak : Bool) :
    Along lo b (out.add piece a b styles exact run lineBreak).segments where
  within := by
    intro s hs
    rcases List.mem_append.1 hs with hs | hs
    · exact (h.mono hab).within s hs
    · cases List.mem_singleton.1 hs
      exact ⟨hlo, hab, le_rfl⟩
  ordered := by
    refine List.pairwise_append.2 ⟨h.ordered, List.pairwise_singleton _ _, fun s hs t ht => ?_⟩
    cases List.mem_singleton.1 ht
    exact (h.within s hs).2.2

/-- Later segments end no earlier. -/
theorem sourceEnd_mono (h : Along lo hi segments) {i j : Nat} (hij : i ≤ j)
    (hi : i < segments.length) (hj : j < segments.length) :
    segments[i].sourceEnd ≤ segments[j].sourceEnd := by
  rcases Nat.eq_or_lt_of_le hij with rfl | hlt
  · exact le_rfl
  · exact (List.pairwise_iff_getElem.1 h.ordered i j _ _ hlt).trans
      (h.within _ (List.getElem_mem hj)).2.1

end Along

/-! ## Inline rows -/

section

variable {gs : Graphemes} {m : RenderModel} {src : Text} {b : Nat}

/-- What is written starts at `lo` or behind. -/
theorem kept_from (lo : Int) :
    Out.Kept gs src (lo ≤ ·) fun out => ∀ s ∈ out.segments, lo ≤ s.sourceStart where
  later := le_trans
  add := by
    intro out a ha h piece b styles exact run lineBreak s hs
    rcases List.mem_append.1 hs with hs | hs
    · exact h s hs
    · cases List.mem_singleton.1 hs
      exact ha
  source := by
    intro out a ha h b style run
    rw [emitExact]
    split
    · exact h
    next hab =>
    dsimp only
    cases hjoin : out.joining a with
    | none =>
      intro s hs
      rcases List.mem_append.1 hs with hs | hs
      · exact h s hs
      · cases List.mem_singleton.1 hs
        exact ha
    | some previous =>
      -- The joined replacement starts where it did, the rest of the piece behind `a`.
      have hlast := List.mem_of_getLast? (Out.joining_eq_some hjoin).1
      intro s hs
      dsimp only at hs
      rcases List.mem_append.1 hs with hs | hs
      · rcases List.mem_append.1 hs with hs | hs
        · exact h s (List.dropLast_subset _ hs)
        · cases List.mem_singleton.1 hs
          exact h previous hlast
      · split at hs
        · cases List.mem_singleton.1 hs
          dsimp only
          omega
        · cases hs

/-- A break behind a record starts no earlier than the record. -/
theorem start_le_breakBefore (h : m.InlineConforms src b) (hm : m.SchemaConforms src)
    (hb : b < m.blockCount) (hleaf : RenderModel.isLeaf (m.blockKind b) = true)
    {cx : InlineContext} (hcx : cx.breaks = (m.runsOf b).foldl (runBreaks m src) ⟨[], []⟩)
    {covered : List (Int × Int)} {p c : ContentView} (hp : p ∈ m.contentOf b) {start : Int}
    (hstart : (breakBefore cx covered p c).1 = some start) : p.start ≤ start := by
  obtain ⟨-, -, hle, hstop⟩ := hm.contentLine b hb hleaf p hp
  rw [breakBefore] at hstart
  split at hstart
  -- A run owns the break, which starts where the run's own content ends, or where the run does.
  · next start' hlookup =>
    cases hstart
    obtain ⟨l₁, l₂, hsplit, -⟩ := List.lookup_eq_some_iff.1 hlookup
    have hmem : (p.line, start) ∈ cx.breaks.starts :=
      hsplit ▸ List.mem_append_right _ List.mem_cons_self
    rw [hcx] at hmem
    rcases (breaksAt_of_mem hmem).resolve_left List.not_mem_nil with
      heq | ⟨r, hr, hbreak, hline, heq⟩
    · have heq : start = m.lineEndOf src p.line := heq
      omega
    · have heq : start = if r.contentStart < r.contentEnd then r.contentEnd else r.start := heq
      have hline : m.lineAt r.start = p.line := hline
      by_cases hempty : r.contentStart < r.contentEnd
      · have hend := h.breakContent r hr hbreak hempty
        rw [if_pos hempty] at heq
        rw [hline] at hend
        omega
      · rw [if_neg hempty] at heq
        exact heq ▸ h.breakStart r hr hbreak p hp hline.symm
  · -- No run owns the break: it starts where the record stops.
    dsimp only at hstart
    split at hstart
    · dsimp only at hstart
      split at hstart
      all_goals
        split at hstart
        · cases hstart
        · cases hstart
          exact hle
    · cases hstart

/-- Records that lie one behind the other lie between the start of the first and the stop of the
    last. -/
theorem records_within {first : ContentView} {rest : List ContentView}
    (hle : ∀ c ∈ first :: rest, c.start ≤ c.stop)
    (horder : (first :: rest).Pairwise fun p c => p.stop ≤ c.start) :
    ∀ c ∈ first :: rest, first.start ≤ c.start ∧ c.start ≤ c.stop ∧
      c.stop ≤ (rest.getLast?.map ContentView.stop).getD first.stop := by
  induction rest generalizing first with
  | nil => exact List.forall_mem_singleton.2 ⟨le_rfl, hle first List.mem_cons_self, le_rfl⟩
  | cons next rest ih =>
    obtain ⟨hfirst, hrest⟩ := List.forall_mem_cons.1 hle
    obtain ⟨hbehind, horder⟩ := List.pairwise_cons.1 horder
    have hlast : ((next :: rest).getLast?.map ContentView.stop).getD first.stop =
        (rest.getLast?.map ContentView.stop).getD next.stop := by
      cases rest <;> rfl
    rw [hlast]
    have hwithin := ih hrest horder
    have hnext := hbehind next List.mem_cons_self
    refine List.forall_mem_cons.2 ⟨⟨le_rfl, hfirst, ?_⟩, fun c hc => ?_⟩
    · obtain ⟨-, h₁, h₂⟩ := hwithin next List.mem_cons_self
      exact hnext.trans (h₁.trans h₂)
    · obtain ⟨h₁, h₂⟩ := hwithin c hc
      exact ⟨hfirst.trans (hnext.trans h₁), h₂⟩

/-- The segments of an inline leaf's row lie along its extent. -/
theorem along_inlineRow (hm : m.SchemaConforms src) (hb : b < m.blockCount)
    (hinline : RenderModel.isInline (m.blockKind b) = true) (h : m.InlineConforms src b)
    (options : ProjectionOptions) (shells : List Shell) (cell : CellFields) :
    Along (inlineRow gs m src options b (m.leaf b) shells cell).sourceStart
      (inlineRow gs m src options b (m.leaf b) shells cell).sourceEnd
      (inlineRow gs m src options b (m.leaf b) shells cell).segments := by
  have hleaf : RenderModel.isLeaf (m.blockKind b) = true := by
    rw [RenderModel.isLeaf, hinline, Bool.true_or]
  simp only [inlineRow]
  split
  · next hbare =>
    obtain ⟨-, -, -, -, hattr⟩ := hbare
    have hattr : _ - (m.leaf b).start = ((m.leaf b).attr : Int) := hattr
    exact Along.singleton le_rfl (by dsimp only; omega) le_rfl
  dsimp only
  have hrecords : (m.leaf b).content = m.contentOf b := rfl
  obtain ⟨hf, hends, -⟩ := inlineResult_shows hm hb hleaf h gs options
  have hextent : ∀ c ∈ m.contentOf b, (inlineResult gs m src options (m.leaf b)).sourceStart ≤
      c.start ∧ c.stop ≤ (inlineResult gs m src options (m.leaf b)).sourceEnd :=
    fun c hc => inlineResult_extent hm hb hleaf hc
  rcases hcontent : m.contentOf b with - | ⟨first, rest⟩
  · have hnone : (inlineResult gs m src options (m.leaf b)).out.segments = [] := by
      rw [inlineResult, hrecords, hcontent]
      rfl
    rw [hnone]
    exact Along.nil
  have hfirst : first ∈ m.contentOf b := hcontent ▸ List.mem_cons_self
  obtain ⟨hzero, hlong⟩ := content_first_le hm hb hleaf hcontent
  -- The row starts with its first record, and what it shows lies behind that.
  have hstart : (inlineResult gs m src options (m.leaf b)).sourceStart = first.start := by
    have hnew : ∀ x : Int, (if (-1 : Int) < 0 then first.start else x) = first.start := fun _ => rfl
    simp only [inlineResult, hrecords, hcontent, inlineWalk]
    rw [inlineWalk_extent.1 (by exact hzero)]
    simp only [inlineStep, hnew]
  have hstop : first.start ≤ (inlineResult gs m src options (m.leaf b)).sourceEnd :=
    (hm.contentLine b hb hleaf first hfirst).2.2.1.trans (hextent first hfirst).2
  have hbehind : ∀ c ∈ m.contentOf b, first.start ≤ c.start :=
    fun c hc => hstart ▸ (hextent c hc).1
  have hfrom : ∀ s ∈ (inlineResult gs m src options (m.leaf b)).out.segments,
      first.start ≤ s.sourceStart := by
    rw [inlineResult]
    refine (kept_from first.start).inlineWalk options _ (fun c hc => hbehind c hc) ?_
      (fun _ hs => absurd hs List.not_mem_nil)
    exact fun p hp c _ covered start hbreak => (hbehind p hp).trans
      (start_le_breakBefore h hm hb hleaf rfl hp hbreak)
  rw [hstart, if_neg (not_lt.2 hzero), if_neg (not_lt.2 (hzero.trans hstop))]
  exact ⟨fun s hs => ⟨hfrom s hs, hf.forward s hs, hends _ (fun c hc => (hextent c hc).2) s hs⟩,
    hf.ordered⟩

end

/-! ## The other rows -/

section

variable {gs : Graphemes} {m : RenderModel} {src : Text} {b : Nat}

/-- The walk over the records of a literal leaf, each with the break before it. -/
theorem along_literalWalk {leaf : LeafRecords} {lo hi : Int} {content : List ContentView}
    (hcontent : ∀ c ∈ content, lo ≤ c.start ∧ c.start ≤ c.stop ∧ c.stop ≤ hi)
    {previous : Option ContentView}
    (horder : (previous.toList ++ content).Pairwise fun p c => p.stop ≤ c.start)
    {st : LiteralState} {a : Int} (hlo : lo ≤ a) (ha : ∀ p ∈ previous, p.stop = a)
    (hfirst : previous = none → ∀ c ∈ content, a ≤ c.start) (hhi : a ≤ hi)
    (h : Along lo a st.out.segments) :
    Along lo hi (literalWalk src leaf previous st content).out.segments := by
  induction content generalizing previous st a with
  | nil => exact h.mono hhi
  | cons c content ih =>
    obtain ⟨⟨hstart, hle, hstop⟩, hcontent⟩ := List.forall_mem_cons.1 hcontent
    have hbreak : Along lo c.start (literalBreak st.out previous c).segments := by
      cases previous with
      | none => exact h.mono (hfirst rfl c List.mem_cons_self)
      | some p =>
        obtain rfl := ha p rfl
        exact h.add hlo ((List.pairwise_cons.1 horder).1 c List.mem_cons_self) _ _ _ _ _
    have hvirtual : Along lo c.start (emitVirtual (literalBreak st.out previous c) c).segments := by
      rw [emitVirtual]
      split
      · exact hbreak.add hstart le_rfl _ _ _ _ _
      · exact hbreak
    have hrest : ((some c).toList ++ content).Pairwise fun p c => p.stop ≤ c.start :=
      horder.sublist (List.sublist_append_right _ _)
    refine ih hcontent hrest (hstart.trans hle) (fun p hp => ?_) (fun h => by cases h) hstop ?_
    · exact congrArg ContentView.stop (Option.some.inj hp).symm
    simp only [literalStep]
    split
    · exact hvirtual.add hstart hle _ _ _ _ _
    · exact hvirtual.mono hle

theorem along_literalRow (hm : m.SchemaConforms src) (hb : b < m.blockCount)
    (hleaf : RenderModel.isLeaf (m.blockKind b) = true) (shells : List Shell) :
    Along (literalRow m src b (m.leaf b) shells).sourceStart
      (literalRow m src b (m.leaf b) shells).sourceEnd
      (literalRow m src b (m.leaf b) shells).segments := by
  have hrecords : (m.leaf b).content = m.contentOf b := rfl
  simp only [literalRow]
  rcases hcontent : m.contentOf b with - | ⟨first, rest⟩
  · have hnone : (literalResult src (m.leaf b)).out.segments = [] := by
      rw [literalResult, hrecords, hcontent]
      rfl
    rw [hnone]
    exact Along.nil
  obtain ⟨hzero, hlong⟩ := content_first_le hm hb hleaf hcontent
  have hstart : (literalResult src (m.leaf b)).sourceStart = first.start := by
    have hnew : ∀ x : Int, (if (-1 : Int) < 0 then first.start else x) = first.start := fun _ => rfl
    simp only [literalResult, hrecords, hcontent, literalWalk]
    rw [literalWalk_extent.1 (by exact hzero)]
    simp only [literalStep, hnew]
  have hstop : (literalResult src (m.leaf b)).sourceEnd =
      (rest.getLast?.map ContentView.stop).getD first.stop := by
    simp only [literalResult, hrecords, hcontent, literalWalk]
    rw [literalWalk_extent.2, literalStep]
  -- The records lie one behind the other, so between the first and the last.
  have horder : (m.contentOf b).Pairwise fun p c => p.stop ≤ c.start :=
    (hm.lineOrder b hb hleaf).imp_of_mem fun hp hc hlt => content_stop_le hm hb hleaf hp hc hlt
  have hrecord : ∀ c ∈ m.contentOf b, c.start ≤ c.stop :=
    fun c hc => (hm.contentLine b hb hleaf c hc).2.2.1
  rw [hcontent] at horder hrecord
  have hwithin := records_within hrecord horder
  rw [hstart, hstop, if_neg (not_lt.2 hzero), if_neg (not_lt.2 (hzero.trans hlong)), literalResult,
    hrecords, hcontent]
  refine along_literalWalk hwithin ?_ le_rfl (fun _ hp => by cases hp)
    (fun _ c hc => (hwithin c hc).1) hlong Along.nil
  exact horder

theorem along_emitDefinition {raw : Text} {base cursor stop : Nat} {lo : Int} {out : Out}
    (hlo : lo ≤ (base + cursor : Nat)) (hle : cursor ≤ stop)
    (h : Along lo (base + cursor : Nat) out.segments) :
    Along lo (base + stop : Nat)
      (RenderModel.emitDefinition raw base out cursor stop).segments := by
  rw [RenderModel.emitDefinition]
  split
  · exact h.mono (by omega)
  · exact h.add hlo (by omega) _ _ _ _ _

/-- The walk over a definition's source; what is written stops at `cursor`, behind the unit at `i`
    only where that is the second one of a line ending. -/
theorem along_definitionWalk {raw : Text} {base : Nat} {lo : Int} {rest : Text} {i cursor : Nat}
    (hi : i + rest.length = raw.length)
    (hcursor : cursor ≤ i ∨ cursor = i + 1 ∧ rest.head? = some 0x0A) {out : Out}
    (hlo : lo ≤ (base + cursor : Nat)) (h : Along lo (base + cursor : Nat) out.segments) :
    Along lo (base + raw.length : Nat)
      (RenderModel.definitionWalk raw base rest i cursor out).segments := by
  induction rest generalizing i cursor out with
  | nil =>
    have hle : cursor ≤ raw.length := by
      rcases hcursor with hle | ⟨-, hnone⟩
      · rw [List.length_nil] at hi
        omega
      · cases hnone
    exact along_emitDefinition hlo hle h
  | cons u rest ih =>
    rw [List.length_cons] at hi
    rw [RenderModel.definitionWalk]
    split
    · next hu =>
      have hle : cursor ≤ i := by
        rcases hcursor with hle | ⟨-, hsecond⟩
        · exact hle
        · rw [hu] at hsecond
          cases hsecond
      have hemit := @along_emitDefinition raw _ _ _ _ _ hlo hle h
      refine ih (by omega) ?_ ?_ (hemit.add (by omega) ?_ _ _ _ _ _)
      · by_cases hsecond : rest.head? = some 0x0A
        · rw [if_pos hsecond]
          exact Or.inr ⟨rfl, hsecond⟩
        · rw [if_neg hsecond]
          exact Or.inl le_rfl
      · split <;> omega
      · split <;> omega
    · refine ih (by omega) (Or.inl ?_) hlo h
      rcases hcursor with hle | ⟨heq, -⟩ <;> omega

theorem along_definitionRow (d : Nat) :
    Along (m.definitionRow src d).sourceStart (m.definitionRow src d).sourceEnd
      (m.definitionRow src d).segments :=
  along_definitionWalk (Nat.zero_add _) (Or.inl le_rfl) le_rfl Along.nil

theorem along_delimiterRow {table line : Nat} {row : ProjectedRow}
    (h : m.delimiterRow src table line = some row) :
    Along row.sourceStart row.sourceEnd row.segments := by
  have hsegments : ∀ start stop : Int, Along start stop
      (if start < stop then [(⟨0, (stop - start).toNat, start, stop, 0, true, -1, false⟩ : Segment)]
        else []) := by
    intro start stop
    split
    · next hlt => exact Along.singleton le_rfl hlt.le le_rfl
    · exact Along.nil
  simp only [RenderModel.delimiterRow] at h
  split at h
  · cases h
    exact hsegments _ _
  · split at h
    · cases h
      exact hsegments _ _
    · cases h

theorem along_blankRow (l : Nat) :
    Along (m.blankRow src l).sourceStart (m.blankRow src l).sourceEnd
      (m.blankRow src l).segments := by
  obtain ⟨-, hle⟩ := @ordered_blankRow m src l
  simp only [RenderModel.blankRow] at hle ⊢
  split
  · next item hitem =>
    rw [hitem] at hle
    exact Along.singleton le_rfl hle le_rfl
  · exact Along.nil

end

/-! ## The rows of a projection -/

/-- The segments of every row of a projection lie along its extent. -/
theorem Built.along {gs : Graphemes} {p : Projection} (h : Built gs p)
    (hm : p.model.SchemaConforms p.source)
    (hinline : ∀ b < p.model.blockCount, RenderModel.isInline (p.model.blockKind b) = true →
      p.model.InlineConforms p.source b) :
    ∀ r ∈ p.rows, Along r.sourceStart r.sourceEnd r.segments := by
  refine h.forall_rows (fun row row' hcontent halong => ?_) ?_
  · cases row
    cases row'
    simp only [ProjectedRow.content, ProjectedRow.mk.injEq, true_and] at hcontent
    obtain ⟨-, -, -, -, -, rfl, -, rfl, rfl, -⟩ := hcontent
    exact halong
  · refine forall_buildRows along_definitionRow (fun b hb hleaf => ?_) (fun b _ _ => Along.nil)
      (fun b _ row _ => along_delimiterRow) fun l _ => along_blankRow l
    rw [Option.getD_none, RenderModel.freshRow]
    split
    · next hkind => exact along_inlineRow hm hb hkind (hinline b hb hkind) _ _ _
    · exact along_literalRow hm hb hleaf _

/-- The extent of every row of a projection starts in the source. -/
theorem Built.sourceStart_nonneg {gs : Graphemes} {p : Projection} (h : Built gs p) :
    ∀ r ∈ p.rows, 0 ≤ r.sourceStart := by
  refine h.forall_rows (fun row row' hcontent hstart => ?_) ?_
  · have hsame : row.content.sourceStart = row'.content.sourceStart := by rw [hcontent]
    exact hsame ▸ hstart
  refine forall_buildRows (fun d => Int.natCast_nonneg _) (fun b _ _ => ?_)
    (fun b _ _ => Int.natCast_nonneg _) (fun b _ row _ hrow => ?_) fun l _ => ?_
  · have hextent : ∀ start : Int, 0 ≤ (if start < 0 then (p.model.leaf b).start else start) := by
      intro start
      split
      · exact Int.natCast_nonneg _
      · omega
    rw [Option.getD_none, RenderModel.freshRow]
    split
    · simp only [inlineRow]
      split
      · exact Int.natCast_nonneg _
      · exact hextent _
    · exact hextent _
  · simp only [RenderModel.delimiterRow] at hrow
    split at hrow
    · cases hrow
      exact Int.natCast_nonneg _
    · split at hrow
      · cases hrow
        exact Int.add_nonneg (Int.natCast_nonneg _) (Int.natCast_nonneg _)
      · cases hrow
  · simp only [RenderModel.blankRow]
    split
    · exact Int.natCast_nonneg _
    · exact (Int.natCast_nonneg _).trans (le_trim _ _ _)

/-! ## Rows taken over -/

/-- A row has the segments and the extent of an earlier one, moved by one distance. -/
def ProjectedRow.MovedFrom (row was : ProjectedRow) (delta : Int) : Prop :=
  row.sourceStart = was.sourceStart + delta ∧ row.sourceEnd = was.sourceEnd + delta ∧
    ∃ runDelta, row.segments = was.segments.map (Segment.moved delta runDelta)

section

variable {gs : Graphemes} {m : RenderModel} {src : Text} {options : ProjectionOptions}
  {previous : Projection}

theorem mem_of_matchRow {u : Reuse} {b : Nat} {old : ProjectedRow} {delta runDelta : Int}
    (h : u.matchRow b = some (old, delta, runDelta)) : old ∈ u.previous.rows := by
  rw [Reuse.matchRow] at h
  split at h
  · cases h
  split at h
  · cases h
  next ob oldStart _ =>
  dsimp only at h
  split at h
  · cases h
  split at h
  · cases h
  next row hrow =>
  split at h
  · cases h
  · cases h
    rw [Reuse.rowOfBlock] at hrow
    split at hrow
    · exact List.mem_reverse.1 (List.mem_of_find?_eq_some hrow)
    · cases hrow

theorem freshRow_origin (b : Nat) : (m.freshRow src gs options b).origin = -1 := by
  rw [RenderModel.freshRow]
  split
  · simp only [inlineRow]
    split <;> rfl
  · rfl

/-- A row with an origin is the row there, moved. -/
theorem movedFrom_of_origin (hp : Built gs previous) {row : ProjectedRow}
    (hrow : row ∈ (Projection.of gs m src options (some previous)).rows)
    (horigin : 0 ≤ row.origin) :
    ∃ was delta, previous.rows[row.origin.toNat]? = some was ∧ row.MovedFrom was delta := by
  obtain ⟨i, hi, rfl⟩ := List.mem_mapIdx.1 hrow
  obtain ⟨l, -, hl⟩ := List.mem_flatMap.1 (List.getElem_mem hi)
  have hbuilt := List.mem_of_mem_filter ((List.mem_insertionSort _).1 hl)
  have hall : ∀ r ∈ buildRows gs m src options fun b =>
      if previous.options = options then (Reuse.mk previous m src).reusedRow b else none,
      0 ≤ r.origin → ∃ was delta, previous.rows[r.origin.toNat]? = some was ∧
        r.MovedFrom was delta := by
    -- Only a row that was taken over has an origin.
    have hfresh : ∀ {r : ProjectedRow}, r.origin = -1 → 0 ≤ r.origin → ∃ was delta,
        previous.rows[r.origin.toNat]? = some was ∧ r.MovedFrom was delta :=
      fun h h' => absurd (h ▸ h') (by decide)
    refine forall_buildRows (fun d => hfresh rfl) (fun b _ _ => ?_) (fun b _ _ => hfresh rfl)
      (fun b _ r _ hr => hfresh ?_) fun l _ => hfresh ?_
    · split
      · cases hreused : (Reuse.mk previous m src).reusedRow b with
        | none => exact hfresh (freshRow_origin b)
        | some r =>
          obtain ⟨⟨was, delta, runDelta⟩, hmatch, rfl⟩ := Option.map_eq_some_iff.1 hreused
          obtain ⟨i, hi⟩ := List.mem_iff_getElem?.1 (mem_of_matchRow hmatch)
          have hplace : previous.rows[was.index]? = some was := (hp.index hi).symm ▸ hi
          exact fun _ => ⟨was, delta, hplace, rfl, rfl, runDelta, rfl⟩
      · exact hfresh (freshRow_origin b)
    · simp only [RenderModel.delimiterRow] at hr
      split at hr
      · cases hr
        rfl
      · split at hr
        · cases hr
          rfl
        · cases hr
    · simp only [RenderModel.blankRow]
      split <;> rfl
  have hmoved := hall _ hbuilt horigin
  exact hmoved

end

end Flark
