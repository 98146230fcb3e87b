import Flark.Kernel.InlineFormatting

/-!
# Setting a style

What `SetStyle` promises, and when it keeps it. The caret's step across a delimiter and the
unwrapping look at one owner of the style: where another one is around the place that the caret
comes to, or the pending style holds the style, the caret can come out with the style as it was.

What a parser reads where delimiters are gone is not in the repository. `Editor.ReadsCuts` is what
the command relies on there: the owners that stay are read where they were.

* `Editor.SetsStyle`: what the command promises of a call that returns true;
* `Editor.StepsClear`: the state before lets it keep that;
* `Editor.setStyle_iff`: it keeps it exactly then.
-/

namespace Flark

/-! ## Owners around a place -/

/-- Where an offset comes when the delimiters of an owner go. -/
def Owner.without (o : Owner) (y : Int) : Int :=
  if y < o.contentStart then min y o.start
  else if y ≤ o.contentEnd then y - (o.contentStart - o.start)
  else max y o.stop - (o.contentStart - o.start) - (o.stop - o.contentEnd)

/-- Inside an owner offsets come no closer to each other. -/
theorem Owner.without_le_iff {o : Owner} {x : Int} (hstart : o.contentStart < x)
    (hstop : x < o.contentEnd) (y : Int) :
    (o.without y ≤ o.without x ↔ y ≤ x) ∧ (o.without x ≤ o.without y ↔ x ≤ y) := by
  have hx : o.without x = x - (o.contentStart - o.start) := by
    rw [without, if_neg (by omega), if_pos hstop.le]
  rw [hx, without]
  split_ifs <;> omega

namespace Document

variable {gs : Graphemes}

/-- An owner of a style has an offset in its content. -/
def ownedAt (gs : Graphemes) (d : Document) (style : Nat) (x : Int) : Bool :=
  (d.ownersAt gs x).any fun o => o.style == style

/-- An owner of a style besides the one given has an offset in its content. -/
def ownedBeside (gs : Graphemes) (d : Document) (style : Nat) (o : Owner) (x : Int) : Bool :=
  (d.ownersAt gs x).any fun o' => o'.style == style && o' != o

theorem ownedAt_iff {d : Document} {style : Nat} {x : Int} : d.ownedAt gs style x = true ↔
    ∃ o ∈ (d.leafOwners gs x).filter fun o => o.style == style,
      (o.contentStart : Int) ≤ x ∧ x ≤ o.contentEnd := by
  simp only [ownedAt, List.any_eq_true, mem_ownersAt, List.mem_filter]
  exact exists_congr fun o => by tauto

theorem ownedBeside_iff {d : Document} {style : Nat} {o : Owner} {x : Int} :
    d.ownedBeside gs style o x = true ↔
      ∃ o' ∈ (d.leafOwners gs x).filter fun o' => o'.style == style && o' != o,
        (o'.contentStart : Int) ≤ x ∧ x ≤ o'.contentEnd := by
  simp only [ownedBeside, List.any_eq_true, mem_ownersAt, List.mem_filter]
  exact exists_congr fun o => by tauto

/-- A caret that is made legal is a caret, in no unwritten cell. -/
theorem legalSelection_collapsed (p : Projection) (o : Int) :
    legalSelection gs p (.collapsed o) = .collapsed (p.legalize gs o) := by
  simp [legalSelection, Selection.collapsed, Selection.isCollapsed, Projection.isMissingCell]

theorem tableCell_legalSelection (p : Projection) (base extent : Int) :
    (legalSelection gs p ⟨base, extent, none⟩).tableCell = none := by
  rw [legalSelection]
  split
  · rfl
  · split
    · rfl
    · rfl

/-- A selection whose ends show at two places is no caret when it is made legal. -/
theorem not_isCollapsed_legalSelection (d : Document) {s : Selection} (hcell : s.tableCell = none)
    (h : ¬(d.displayOf gs s.start).SamePlace (d.displayOf gs s.stop)) :
    (legalSelection gs d.projection s).isCollapsed = false := by
  refine Bool.eq_false_iff.2 fun hcaret => h ?_
  have hlegal : d.projection.legalize gs s.base = d.projection.legalize gs s.extent := by
    rw [legalSelection, hcell] at hcaret
    split at hcaret
    · exact congrArg _ (eq_of_beq hcaret)
    · split at hcaret
      · exact congrArg _ (eq_of_beq hcaret)
      · exact eq_of_beq hcaret
  rw [Selection.start, Selection.stop, displayOf, displayOf]
  split <;> rw [hlegal] <;> exact ⟨rfl, rfl⟩

/-- Between two offsets at one place no text is visible. -/
theorem visibleText_samePlace {d : Document} {start stop : Int}
    (h : (d.displayOf gs start).SamePlace (d.displayOf gs stop)) {text : Text}
    (htext : d.visibleText gs start stop = some text) : text = [] := by
  obtain ⟨hrow, hoffset⟩ := h
  have hrange : ∀ row, visibleRange (d.displayOf gs start) (d.displayOf gs stop)
      (d.displayOf gs start).row row = ((d.displayOf gs start).offset, (d.displayOf gs start).offset) := by
    intro row
    rw [visibleRange, if_pos rfl, if_pos hrow, hoffset]
  rw [visibleText, ← hrow, Nat.add_sub_cancel_left] at htext
  simp only [List.range'_one, List.mapM_cons, List.mapM_nil, hrange] at htext
  cases hat : d.projection.rows[(d.displayOf gs start).row]? with
  | none =>
    rw [hat] at htext
    cases htext
  | some row =>
    rw [hat, Option.bind_some] at htext
    split at htext
    · obtain rfl := Option.some.inj htext
      rw [Text.substring, Int.sub_self]
      rfl
    · cases htext

end Document

namespace Editor

variable {gs : Graphemes}

/-- What `SetStyle` promises of a call that returns true: the value asked for is there, the same
    command changes nothing, and where the source changed the rows are as they were but for the
    style. -/
structure SetsStyle (setup : EditorSetup) (d : Document) (ed' : Editor gs) (style : Nat)
    (enabled : Bool) : Prop where
  value : (ed'.styleState style).value = .asked enabled
  again : ∀ at_, ed'.applySetStyle setup style enabled at_ =
    .ok (false, { ed' with lastRejection := none, inert := true, now := at_ })
  rows : ∃ d', ed'.snapshot = .live d' ∧ (d'.source ≠ d.source → d.SameBut d' style)

/-- A document is the other one without the delimiters of an owner around the caret: the caret's
    place is a caret, and the owners of the style in its leaf are the others, each with its
    text. -/
structure Unwraps (gs : Graphemes) (d d' : Document) (style : Nat) (o : Owner) : Prop where
  caret : d'.projection.isLegal gs (o.without d.selection.extent) = true
  owners : ((d'.leafOwners gs (o.without d.selection.extent)).filter
      fun o' => o'.style == style).map (fun o' => ((o'.contentStart : Int), (o'.contentEnd : Int))) =
    ((d.leafOwners gs d.selection.extent).filter fun o' => o'.style == style && o' != o).map
      fun o' => (o.without o'.contentStart, o.without o'.contentEnd)

/-- What is relied on of a parser that reads a source without delimiters of a style, where it reads
    the rows as they were but for the style. Those of an owner around the caret take no other owner
    with them, and without those of a range its ends show where they did. -/
structure ReadsCuts (gs : Graphemes) (setup : EditorSetup) (d : Document) (style : Nat)
    (enabled : Bool) : Prop where
  unwrapped : ∀ o, d.caretOwner gs style = some o → o.contentStart < d.selection.extent →
    d.selection.extent < o.contentEnd → ∀ d', Lands gs setup d (d.unwrapped o).1 (d.unwrapped o).2 d' →
      d.SameBut d' style → Unwraps gs d d' style o
  ends : enabled = false → d.selection.isCollapsed = false →
    ∀ d', Lands gs setup d (d.restyled gs style false).1 (d.restyled gs style false).2 d' →
      d.SameBut d' style →
      (d'.displayOf gs (d.restyled gs style false).2.start).SamePlace
          (d.displayOf gs (d.styleRange gs).1) ∧
        (d'.displayOf gs (d.restyled gs style false).2.stop).SamePlace
          (d.displayOf gs (d.styleRange gs).2)

/-- The state before lets the command reach the value asked for. Where an owner of the style has the
    caret, one is around the place across its delimiter, or around the caret besides it where the
    command unwraps it, exactly when the pending style holds the style. Where the caret only touches
    an owner, one is around the place just inside exactly when the pending style does not hold
    it. -/
def StepsClear (ed : Editor gs) (d : Document) (style : Nat) : Prop :=
  let holds := Style.has ed.pendingStyles style
  if d.selection.isCollapsed then
    match d.caretOwner gs style with
    | some o =>
      if d.selection.extent = o.contentEnd then
        d.ownedAt gs style (d.projection.legalize gs o.stop) = holds
      else if d.selection.extent = o.contentStart then
        d.ownedAt gs style (d.projection.legalize gs o.start) = holds
      else d.ownedBeside gs style o d.selection.extent = holds
    | none =>
      match d.touchedOwner gs style with
      | some o =>
        d.ownedAt gs style (d.projection.legalize gs
          (if d.selection.extent = o.stop then o.contentEnd else o.contentStart)) = !holds
      | none => True
  else True

variable {setup : EditorSetup} {ed ed' : Editor gs} {d d' : Document} {style : Nat} {enabled : Bool}

theorem asked_inj {a b : Bool} : StyleValue.asked a = StyleValue.asked b ↔ a = b := by
  revert a b
  decide

/-- The value that a live editor reads. -/
theorem Live.value_eq (hl : ed.Live d) (hstyle : style ∈ Style.delimited) :
    (ed.styleState style).value =
      if d.selection.isCollapsed then .asked (Style.has ed.typingContext style)
      else d.selectedStyleValue gs style := by
  have hsome : ¬(Style.delimiter style).isNone = true := by
    rw [Option.isNone_iff_eq_none]
    exact Option.isSome_iff_ne_none.1 (Style.isSome_delimiter hstyle)
  rw [styleState, hl.snapshot]
  dsimp only
  rw [if_neg hsome]

theorem Live.canDisable (hl : ed.Live d) (hstyle : style ∈ Style.delimited) :
    (ed.styleState style).canDisable = d.canStyle gs style (ed.styleState style).value := by
  have hsome : ¬(Style.delimiter style).isNone = true := by
    rw [Option.isNone_iff_eq_none]
    exact Option.isSome_iff_ne_none.1 (Style.isSome_delimiter hstyle)
  rw [styleState, hl.snapshot]
  dsimp only
  rw [if_neg hsome]

/-- The value at a caret. -/
theorem Live.value_caret (hl : ed.Live d) (hstyle : style ∈ Style.delimited)
    (hcaret : d.selection.isCollapsed = true) :
    (ed.styleState style).value =
      .asked ((d.selection.tableCell.isNone && d.caretOwned gs style) ^^
        Style.has ed.pendingStyles style) := by
  rw [hl.value_eq hstyle, if_pos hcaret, typingContext, hl.snapshot]
  dsimp only
  rw [Style.has_xor hstyle, Document.caretOwned]
  cases d.selection.tableCell.isNone with
  | false => rw [if_neg Bool.false_ne_true, Style.has_zero, Bool.false_and]
  | true => rw [if_pos rfl, Document.has_typingContextAt d hstyle, Bool.true_and]

/-- A command that asks for the value there is does nothing. -/
theorem Live.again (hl : ed.Live d) (hstyle : style ∈ Style.delimited)
    (hscope : ed.selectedCodeScope = false)
    (hvalue : (ed.styleState style).value = .asked enabled) (at_ : Int) :
    ed.applySetStyle setup style enabled at_ =
      .ok (false, { ed with lastRejection := none, inert := true, now := at_ }) := by
  have hentered : ((ed.entered at_).styleState style).value = .asked enabled := hvalue
  have hsnapshot : (ed.entered at_).snapshot = .live d := hl.snapshot
  rw [applySetStyle, setStyleCommand, hsnapshot]
  dsimp only
  rw [setStyle, hentered, Style.isSome_delimiter hstyle]
  simp only [beq_self_eq_true, Bool.and_self, if_true, Except.map, answered, entered, hscope]
  rfl

/-- What a call that returns true did. -/
theorem setStyle_true (h : ed.setStyle setup d style enabled = .ok (true, ed')) :
    ((Style.delimiter style).isSome = true → (ed.styleState style).value ≠ .asked enabled) ∧
      (if enabled then (ed.styleState style).canEnable else (ed.styleState style).canDisable) =
        true ∧
      if d.selection.isCollapsed then ed.toggleCaretStyle setup d style = .ok (true, ed')
      else ed.restyle setup d style (d.restyled gs style enabled)
        (fun next => next.selectedStyleValue gs style == .asked enabled) = .ok (true, ed') := by
  rw [setStyle] at h
  split at h
  · cases h
  · next hne =>
    refine ⟨fun hsome heq => hne (by rw [hsome, heq]; simp), ?_⟩
    by_cases hcan : (!if enabled = true then (ed.styleState style).canEnable
        else (ed.styleState style).canDisable) = true
    · rw [if_pos hcan] at h
      cases h
    · rw [if_neg hcan] at h
      refine ⟨by rwa [Bool.not_eq_true', Bool.not_eq_false] at hcan, ?_⟩
      split
      · next hcaret => rwa [if_pos hcaret] at h
      · next hrange => rwa [if_neg hrange] at h

/-- A live editor that publishes is a live editor. -/
theorem Live.revised (hl : ed.Live d) (n : Nat) : ({ ed with revision := n } : Editor gs).Live d :=
  ⟨hl.snapshot, hl.live, hl.composition, hl.cellOrigin⟩

/-- What the command promises comes down to the value. -/
theorem Live.setsStyle_iff (hl : ed'.Live d') (hstyle : style ∈ Style.delimited)
    (hscope : ed'.selectedCodeScope = false) (hrows : d'.source ≠ d.source → d.SameBut d' style) :
    SetsStyle setup d ed' style enabled ↔ (ed'.styleState style).value = .asked enabled :=
  ⟨SetsStyle.value, fun h => ⟨h, hl.again hstyle hscope h, d', hl.snapshot, hrows⟩⟩

/-- The value at a caret of a written row with no pending style. -/
theorem Live.value_plain (hl : ed.Live d) (hstyle : style ∈ Style.delimited) {o : Int}
    (hcaret : d.selection = .collapsed o) (hpending : ed.pending = none) :
    (ed.styleState style).value = .asked (d.caretOwned gs style) := by
  have hcollapsed : d.selection.isCollapsed = true := by
    rw [hcaret]
    exact beq_self_eq_true o
  rw [hl.value_caret hstyle hcollapsed, pendingStyles, hpending, Option.elim_none, Style.has_zero,
    Bool.xor_false, show d.selection.tableCell.isNone = true by rw [hcaret]; rfl, Bool.true_and]

theorem Lands.selection {text : Text} {s : Selection} (h : Lands gs setup d text s d') :
    d'.selection = Document.legalSelection gs d'.projection s := by
  rcases h with ⟨-, rfl⟩ | ⟨-, m, -, rfl⟩
  · rfl
  · rfl

/-- A step of the caret reaches the value asked for where an owner of the style is around it then
    exactly when the style was asked for. -/
theorem Live.step_iff (hl : ed.Live d) (hstyle : style ∈ Style.delimited)
    (hscope : ed.selectedCodeScope = false) {o : Int}
    (hmoved : (ed.select d (.collapsed o)).2 = true) (n : Nat) :
    SetsStyle setup d { (ed.select d (.collapsed o)).1 with revision := n } style enabled ↔
      d.ownedAt gs style (d.projection.legalize gs o) = enabled := by
  obtain ⟨hlive, hpending, hscope'⟩ := hl.select_moved hmoved
  have hselection := @Document.legalSelection_collapsed gs d.projection o
  rw [(hlive.revised n).setsStyle_iff (d := d) hstyle (hscope'.trans hscope)
      fun hne => absurd rfl hne,
    (hlive.revised n).value_plain hstyle hselection hpending, asked_inj, Document.caretOwned,
    Document.withSelection, hselection]
  exact Iff.rfl

/-- What a rewriting comes to. It reaches the value asked for at a range by its check, and at a caret
    where an owner of the style is around it exactly when the style was asked for. -/
theorem Live.restyle_lands (hl : ed.Live d) (hstyle : style ∈ Style.delimited)
    (hparse : ∀ text m, setup.parse text = .ok m → m.SchemaConforms text)
    (hscope : ed.selectedCodeScope = false) {written : Text × Selection} {value : Document → Bool}
    (hcell : written.2.tableCell = none)
    (hrange : ∀ next, Lands gs setup d written.1 written.2 next →
      next.selection.isCollapsed = false → value next = true →
        next.selectedStyleValue gs style = .asked enabled)
    (h : ed.restyle setup d style written value = .ok (true, ed')) (n : Nat) :
    ∃ d', Lands gs setup d written.1 written.2 d' ∧ d'.Live gs ∧ d.SameBut d' style ∧
      value d' = true ∧
      (SetsStyle setup d { ed' with revision := n } style enabled ↔
        (d'.selection.isCollapsed = true → d'.caretOwned gs style = enabled)) := by
  obtain ⟨d', hlands, haccept, hlive, hpending, hscope'⟩ :=
    hl.commit_checked hparse rfl rfl rfl rfl h
  obtain ⟨hvalue, hcontent⟩ := Bool.and_eq_true_iff.1 haccept
  have hsame := sameBut_of_formattingContent hl.live hlive.live (eq_of_beq hcontent)
  replace hlive := hlive.revised n
  refine ⟨d', hlands, hlive.live, hsame, hvalue, ?_⟩
  rw [hlive.setsStyle_iff hstyle (hscope'.trans hscope) fun _ => hsame]
  cases hcaret : d'.selection.isCollapsed with
  | false =>
    -- The check holds of the range, which is what the value is read from.
    refine iff_of_true ?_ fun h => absurd h Bool.false_ne_true
    rw [hlive.value_eq hstyle, hcaret, if_neg Bool.false_ne_true]
    exact hrange d' hlands hcaret hvalue
  | true =>
    have hplain : d'.selection = .collapsed d'.selection.extent := by
      have hselection := hlands.selection
      obtain ⟨text, base, extent, cell⟩ := written
      obtain rfl : cell = none := hcell
      have hnone : d'.selection.tableCell = none := by
        rw [hselection]
        exact Document.tableCell_legalSelection d'.projection base extent
      have hbase : d'.selection.base = d'.selection.extent := eq_of_beq hcaret
      exact congr (congr (congrArg Selection.mk hbase) rfl) hnone
    rw [hlive.value_plain hstyle hplain hpending, asked_inj]
    exact ⟨fun hv _ => hv, fun hall => hall rfl⟩

/-- With an owner unwrapped, an owner of the style is around the caret where another one was. -/
theorem Unwraps.caretOwned {o : Owner} (h : Unwraps gs d d' style o) (hd' : d'.Live gs)
    (hstart : o.contentStart < d.selection.extent) (hstop : d.selection.extent < o.contentEnd)
    (hselection : d'.selection = Document.legalSelection gs d'.projection (d.unwrapped o).2) :
    d'.caretOwned gs style = d.ownedBeside gs style o d.selection.extent := by
  have hat : d'.selection.extent = o.without d.selection.extent := by
    have hwithout : o.without d.selection.extent =
        d.selection.extent - (o.contentStart - o.start) := by
      rw [Owner.without, if_neg (by omega), if_pos hstop.le]
    have hlegal := h.caret
    rw [hwithout] at hlegal
    rw [hselection, Document.unwrapped, Document.legalSelection_collapsed, hwithout]
    exact Document.legalize_legal hd' hlegal
  rw [Bool.eq_iff_iff, Document.ownedBeside_iff, Document.caretOwned, ← Document.ownedAt,
    Document.ownedAt_iff, hat]
  -- An owner of the one list has the caret where its partner in the other list does.
  constructor
  · rintro ⟨o₁, ho₁, h₁, h₂⟩
    have hmem := List.mem_map_of_mem ho₁ (f := fun o' =>
      ((o'.contentStart : Int), (o'.contentEnd : Int)))
    rw [h.owners] at hmem
    obtain ⟨o₂, ho₂, heq⟩ := List.mem_map.1 hmem
    obtain ⟨hs, he⟩ := Prod.mk.inj heq
    exact ⟨o₂, ho₂, (o.without_le_iff hstart hstop _).1.1 (hs.trans_le h₁),
      (o.without_le_iff hstart hstop _).2.1 (h₂.trans_eq he.symm)⟩
  · rintro ⟨o₂, ho₂, h₁, h₂⟩
    have hmem := List.mem_map_of_mem ho₂ (f := fun o' =>
      (o.without o'.contentStart, o.without o'.contentEnd))
    rw [← h.owners] at hmem
    obtain ⟨o₁, ho₁, heq⟩ := List.mem_map.1 hmem
    obtain ⟨hs, he⟩ := Prod.mk.inj heq
    exact ⟨o₁, ho₁, hs.trans_le ((Owner.without_le_iff hstart hstop _).1.2 h₁),
      ((Owner.without_le_iff hstart hstop _).2.2 h₂).trans_eq he.symm⟩

/-- Without the delimiters of a range its text is still a range. -/
theorem ReadsCuts.not_isCollapsed (h : ReadsCuts gs setup d style false)
    (hrange : d.selection.isCollapsed = false) {value : StyleValue}
    (hcan : d.canStyle gs style value = true)
    (hlands : Lands gs setup d (d.restyled gs style false).1 (d.restyled gs style false).2 d')
    (hsame : d.SameBut d' style) : d'.selection.isCollapsed = false := by
  obtain ⟨hstart, hstop⟩ := h.ends rfl hrange d' hlands hsame
  rw [hlands.selection]
  refine Document.not_isCollapsed_legalSelection d' ?_ fun hplace => ?_
  · rw [Document.restyled]
    dsimp only
    split
    · rfl
    · rfl
  -- The command is refused for a range that shows at one place.
  have hvisible : ((d.visibleText gs (d.styleRange gs).1 (d.styleRange gs).2).any
      fun t => !t.trim.isEmpty) = true := by
    rw [Document.canStyle, if_neg (Bool.eq_false_iff.1 hrange)] at hcan
    dsimp only at hcan
    split at hcan
    · cases hcan
    · simp only [Bool.and_eq_true] at hcan
      exact hcan.1.2
  obtain ⟨text, htext, htrim⟩ := (Option.any_eq_true _ _).1 hvisible
  rw [Document.visibleText_samePlace ((hstart.symm.trans hplace).trans hstop) htext] at htrim
  cases htrim

/-- With the style put in the pending style, or taken out of it, the value is the other one. -/
theorem Live.pending_sets (hl : ed.Live d) (hstyle : style ∈ Style.delimited)
    (hscope : ed.selectedCodeScope = false) (hcaret : d.selection.isCollapsed = true)
    (howned : (d.selection.tableCell.isNone && d.caretOwned gs style) = false) (p : PendingStyle)
    (hp : p.styles = ed.pendingStyles ^^^ style) (history : History) (n : Nat) :
    SetsStyle setup d { ed with
      pending := if ed.pendingStyles ^^^ style = 0 then none else some p
      history := history
      goalColumn := none
      revision := n } style (!Style.has ed.pendingStyles style) := by
  have hlive : ({ ed with
      pending := if ed.pendingStyles ^^^ style = 0 then none else some p
      history := history
      goalColumn := none
      revision := n } : Editor gs).Live d := ⟨hl.snapshot, hl.live, hl.composition, hl.cellOrigin⟩
  have hmask : (if ed.pendingStyles ^^^ style = 0 then none else some p).elim 0
      PendingStyle.styles = ed.pendingStyles ^^^ style := by
    split
    · next hzero => rw [hzero, Option.elim_none]
    · rw [Option.elim_some, hp]
  rw [hlive.setsStyle_iff (d := d) hstyle hscope fun hne => absurd rfl hne,
    hlive.value_caret hstyle hcaret, asked_inj, howned, Bool.false_xor, pendingStyles, hmask,
    Style.has_xor hstyle, Style.has_self hstyle, Bool.xor_true]

/-- At a caret the command reaches the value asked for where the state before lets it. -/
theorem Live.toggle_iff (hl : ed.Live d) (hstyle : style ∈ Style.delimited)
    (hparse : ∀ text m, setup.parse text = .ok m → m.SchemaConforms text)
    (hreads : ReadsCuts gs setup d style enabled)
    (hscope : ed.selectedCodeScope = false) (hcaret : d.selection.isCollapsed = true)
    (hvalue : (ed.styleState style).value ≠ .asked enabled)
    (h : ed.toggleCaretStyle setup d style = .ok (true, ed')) (n : Nat) :
    SetsStyle setup d { ed' with revision := n } style enabled ↔
      ed.StepsClear d style := by
  rw [hl.value_caret hstyle hcaret, ne_eq, asked_inj] at hvalue
  rw [StepsClear, if_pos hcaret]
  rw [toggleCaretStyle] at h
  have hstep : ∀ {o : Int},
      (.ok (ed.select d (.collapsed o)).swap : Except ParseFailure (Bool × Editor gs)) =
        .ok (true, ed') → (ed.select d (.collapsed o)).2 = true ∧
        ed' = (ed.select d (.collapsed o)).1 := by
    intro o h
    obtain ⟨hmoved, hed⟩ := Prod.mk.inj (Except.ok.inj h)
    exact ⟨hmoved, hed.symm⟩
  cases howner : d.caretOwner gs style with
  | some o =>
    rw [howner] at h
    dsimp only at h ⊢
    -- An owner of the style has the caret, so the pending style has the style that is asked for.
    obtain ⟨hcell, hfound⟩ : d.selection.tableCell.isNone = true ∧
        (d.ownersAt gs d.selection.extent).find? (fun o => o.style == style) = some o := by
      rw [Document.caretOwner] at howner
      split at howner
      · next hcell => exact ⟨hcell, howner⟩
      · cases howner
    have howned : d.caretOwned gs style = true := by
      have hstyle := List.find?_some hfound
      exact List.any_eq_true.2 ⟨o, List.mem_of_find?_eq_some hfound, hstyle⟩
    obtain rfl : enabled = Style.has ed.pendingStyles style := by
      rw [hcell, howned] at hvalue
      revert hvalue
      cases Style.has ed.pendingStyles style <;> cases enabled <;> decide
    split at h
    · next hend =>
      obtain ⟨hmoved, rfl⟩ := hstep h
      rw [if_pos hend]
      exact hl.step_iff hstyle hscope hmoved n
    · next hend =>
      rw [if_neg hend]
      split at h
      · next hstart =>
        obtain ⟨hmoved, rfl⟩ := hstep h
        rw [if_pos hstart]
        exact hl.step_iff hstyle hscope hmoved n
      · next hstart =>
        -- The caret is strictly inside, and the owner is unwrapped.
        rw [if_neg hstart]
        obtain ⟨-, hle, hle'⟩ := Document.mem_ownersAt.1 (List.mem_of_find?_eq_some hfound)
        have hlt : (o.contentStart : Int) < d.selection.extent := lt_of_le_of_ne hle (Ne.symm hstart)
        have hlt' : d.selection.extent < o.contentEnd := lt_of_le_of_ne hle' hend
        have hcollapsed : ∀ d', Lands gs setup d (d.unwrapped o).1 (d.unwrapped o).2 d' →
            d'.selection.isCollapsed = true := by
          intro d' hlands
          rw [hlands.selection, Document.unwrapped, Document.legalSelection_collapsed]
          exact beq_self_eq_true _
        obtain ⟨d', hlands, hlive, hsame, -, hiff⟩ := hl.restyle_lands hstyle hparse hscope rfl
          (fun next hlands hrange _ => by rw [hcollapsed next hlands] at hrange; cases hrange) h n
        rw [hiff, (hreads.unwrapped o howner hlt hlt' d' hlands hsame).caretOwned hlive hlt hlt'
          hlands.selection]
        exact ⟨fun hall => hall (hcollapsed d' hlands), fun heq _ => heq⟩
  | none =>
    rw [howner] at h
    dsimp only at h ⊢
    have howned : (d.selection.tableCell.isNone && d.caretOwned gs style) = false := by
      rw [Document.caretOwner] at howner
      split at howner
      · next hcell =>
        rw [hcell, Bool.true_and, Document.caretOwned, List.any_eq_false]
        exact List.find?_eq_none.1 howner
      · next hcell => rw [Bool.not_eq_true _ |>.mp hcell, Bool.false_and]
    obtain rfl : enabled = !Style.has ed.pendingStyles style := by
      rw [howned] at hvalue
      revert hvalue
      cases Style.has ed.pendingStyles style <;> cases enabled <;> decide
    cases htouched : d.touchedOwner gs style with
    | some o =>
      rw [htouched] at h
      dsimp only at h ⊢
      obtain ⟨hmoved, rfl⟩ := hstep h
      exact hl.step_iff hstyle hscope hmoved n
    | none =>
      rw [htouched] at h
      dsimp only at h ⊢
      split at h
      · cases h
      · -- The pending style takes the style in or lets it go.
        obtain rfl := (Prod.mk.inj (Except.ok.inj h)).2
        exact iff_of_true (hl.pending_sets hstyle hscope hcaret howned _ rfl _ n) trivial

/-- `SetStyle` keeps what it promises exactly where the state before lets it. -/
theorem setStyle_iff (hl : ed.Live d)
    (hparse : ∀ text m, setup.parse text = .ok m → m.SchemaConforms text)
    (hreads : ReadsCuts gs setup d style enabled) (hstyle : style ∈ Style.delimited) {at_ : Int}
    (h : ed.applySetStyle setup style enabled at_ = .ok (true, ed')) :
    SetsStyle setup d ed' style enabled ↔ ed.StepsClear d style := by
  have hentered : (ed.entered at_).Live d := ⟨hl.snapshot, hl.live, hl.composition, hl.cellOrigin⟩
  obtain ⟨ed₁, hset, rfl⟩ : ∃ ed₁, (ed.entered at_).setStyle setup d style enabled =
      .ok (true, ed₁) ∧ ed' = { ed₁ with revision := ed₁.revision + 1 } := by
    rw [applySetStyle, setStyleCommand, hentered.snapshot] at h
    dsimp only at h
    cases hset : (ed.entered at_).setStyle setup d style enabled with
    | error failure =>
      rw [hset] at h
      cases h
    | ok r =>
      rw [hset] at h
      have h : answered r = (true, ed') := Except.ok.inj h
      obtain ⟨applied, ed₁⟩ := r
      cases applied with
      | true => exact ⟨ed₁, rfl, (Prod.mk.inj h).2.symm⟩
      | false =>
        rw [answered, if_neg Bool.false_ne_true] at h
        split at h
        · cases h
        · cases h
  obtain ⟨hvalue, hcan, hset⟩ := setStyle_true hset
  replace hvalue := hvalue (Style.isSome_delimiter hstyle)
  by_cases hcaret : d.selection.isCollapsed = true
  · rw [if_pos hcaret] at hset
    exact hentered.toggle_iff hstyle hparse hreads rfl hcaret hvalue hset _
  · -- The check has read the value of a range, and there is no caret to read it of.
    rw [if_neg hcaret] at hset
    have hcell : (d.restyled gs style enabled).2.tableCell = none := by
      rw [Document.restyled]
      dsimp only
      split
      · rfl
      · rfl
    obtain ⟨d', hlands, -, hsame, hread, hiff⟩ := hentered.restyle_lands hstyle hparse rfl hcell
      (fun next _ _ hv => eq_of_beq hv) hset ed₁.revision.succ
    rw [StepsClear, if_neg hcaret, iff_true, hiff]
    intro hcaret'
    -- Had it collapsed, the style would not show there, nor could it have been taken away.
    cases enabled with
    | true =>
      have hon := @Document.selectedStyleValue_caret gs d' hcaret' style
      rw [eq_of_beq hread] at hon
      cases hon
    | false =>
      have hcan : d.canStyle gs style ((ed.entered at_).styleState style).value = true := by
        rw [if_neg Bool.false_ne_true] at hcan
        exact hentered.canDisable hstyle ▸ hcan
      rw [hreads.not_isCollapsed (Bool.eq_false_iff.2 hcaret) hcan hlands hsame] at hcaret'
      cases hcaret'

/-! ## Out of an emphasis -/

/-- A parser of two sources. -/
def setupOfTwo (source source' : Text) (model model' : RenderModel) : EditorSetup where
  parse text :=
    if text = source then .ok model
    else if text = source' then .ok model'
    else .error .other
  caps := History.defaultCaps

theorem setupOfTwo_conforms {source source' : Text} {model model' : RenderModel}
    (hmodel : model.SchemaConforms source) (hmodel' : model'.SchemaConforms source') (text : Text)
    (m : RenderModel) (h : (setupOfTwo source source' model model').parse text = .ok m) :
    m.SchemaConforms text := by
  simp only [setupOfTwo] at h
  split at h
  · next heq =>
    cases h
    rwa [heq]
  · split at h
    · next heq =>
      cases h
      rwa [heq]
    · cases h

/-- `*bc*`. -/
def emphasisWord : RenderModel where
  bytes := []
  words :=
    [0x354B4C46, 5, 4, 4, 1, 2, 1, 2, 0, 0, 0, 0] ++ [0] ++
    [0, 0xFFFFFFFF, 0, 4, 0, 1, 0, 0, 0, 0xFFFFFFFF] ++
    [1, 0, 0, 4, 0, 1, 0, 0, 0, 0xFFFFFFFF] ++
    [0, 4, 0, 0] ++ [0, 4, 0x10001, 2] ++ [1, 3, 0, 0x10001]

/-- `bc`. -/
def plainWord : RenderModel where
  bytes := []
  words :=
    [0x354B4C46, 5, 2, 2, 1, 2, 1, 1, 0, 0, 0, 0] ++ [0] ++
    [0, 0xFFFFFFFF, 0, 2, 0, 1, 0, 0, 0, 0xFFFFFFFF] ++
    [1, 0, 0, 2, 0, 1, 0, 0, 0, 0xFFFFFFFF] ++
    [0, 2, 0, 0] ++ [0, 2, 0, 1]

theorem emphasisWord_conforms : emphasisWord.SchemaConforms (Text.ofString "*bc*") where
  table := ⟨by decide, by decide⟩
  leaf := by decide
  parent := by decide
  blockStart := by decide
  contentLine := by decide
  lineOrder := by decide
  afterDefinitions := by decide
  runOrder := by decide
  runRange := by decide

theorem plainWord_conforms : plainWord.SchemaConforms (Text.ofString "bc") where
  table := ⟨by decide, by decide⟩
  leaf := by decide
  parent := by decide
  blockStart := by decide
  contentLine := by decide
  lineOrder := by decide
  afterDefinitions := by decide
  runOrder := by decide
  runRange := by decide

/-- The parser of the two sources. -/
def wordSetup : EditorSetup :=
  setupOfTwo (Text.ofString "*bc*") (Text.ofString "bc") emphasisWord plainWord

theorem wordSetup_conforms (text : Text) (m : RenderModel) (h : wordSetup.parse text = .ok m) :
    m.SchemaConforms text :=
  setupOfTwo_conforms emphasisWord_conforms plainWord_conforms text m h

/-- The caret between the two letters of the emphasis. -/
def caretWord : Document :=
  Document.project .units (Text.ofString "*bc*") emphasisWord (.collapsed 2) {} none

theorem caretWord_live : caretWord.Live .units :=
  ⟨Built.anew emphasisWord_conforms.toConforms {}, emphasisWord_conforms⟩

theorem caretOwner_word : caretWord.caretOwner .units Style.emphasis =
    some ⟨0, RunKind.emph, 0, 4, 1, 3⟩ := by
  decide

/-- The parser reads the letters without the emphasis, and nothing else goes. -/
theorem readsCuts_word : ReadsCuts .units wordSetup caretWord Style.emphasis false where
  unwrapped o ho _ _ d' hd' _ := by
    obtain rfl := Option.some.inj (caretOwner_word.symm.trans ho)
    obtain rfl := hd'.unique (Or.inr ⟨by decide, plainWord, by decide, rfl⟩)
    exact ⟨by decide, by decide⟩
  ends _ h := absurd h (by decide)

/-- An editor as it is made. -/
def opened (d : Document) : Editor .units := { snapshot := .live d }

theorem opened_live {d : Document} (h : d.Live .units) : (opened d).Live d := ⟨rfl, h, rfl, rfl⟩

/-- The emphasis goes from around the caret. -/
theorem setStyle_iff_word : ∃ ed',
    (opened caretWord).applySetStyle wordSetup Style.emphasis false 0 = .ok (true, ed') ∧
      SetsStyle wordSetup caretWord ed' Style.emphasis false := by
  have hrun : ((opened caretWord).applySetStyle wordSetup Style.emphasis false 0).toOption.any
      Prod.fst = true := by decide +kernel
  cases h : (opened caretWord).applySetStyle wordSetup Style.emphasis false 0 with
  | error failure =>
    rw [h] at hrun
    cases hrun
  | ok r =>
    obtain ⟨applied, ed'⟩ := r
    rw [h] at hrun
    obtain rfl : applied = true := hrun
    refine ⟨ed', rfl, (setStyle_iff (opened_live caretWord_live) wordSetup_conforms readsCuts_word
      (by decide) h).2 ?_⟩
    rw [StepsClear, if_pos (by decide), caretOwner_word]
    dsimp only
    rw [if_neg (by decide), if_neg (by decide)]
    decide

/-! ## Emphasis in emphasis -/

/-- `*a *b* c*`: the emphasis around a letter is in an emphasis. -/
def emphasisNested : RenderModel where
  bytes := []
  words :=
    [0x354B4C46, 5, 9, 9, 1, 2, 1, 5, 0, 0, 0, 0] ++ [0] ++
    [0, 0xFFFFFFFF, 0, 9, 0, 1, 0, 0, 0, 0xFFFFFFFF] ++
    [1, 0, 0, 9, 0, 1, 0, 0, 0, 0xFFFFFFFF] ++
    [0, 9, 0, 0] ++
    [0, 9, 0x10001, 2] ++ [1, 3, 0, 0x10001] ++ [3, 6, 0x10001, 0x20002] ++ [4, 5, 0, 0x10001] ++
    [6, 8, 0, 0x40001]

/-- `a *b* c`: the inner emphasis alone. -/
def emphasisInner : RenderModel where
  bytes := []
  words :=
    [0x354B4C46, 5, 7, 7, 1, 2, 1, 4, 0, 0, 0, 0] ++ [0] ++
    [0, 0xFFFFFFFF, 0, 7, 0, 1, 0, 0, 0, 0xFFFFFFFF] ++
    [1, 0, 0, 7, 0, 1, 0, 0, 0, 0xFFFFFFFF] ++
    [0, 7, 0, 0] ++
    [0, 2, 0, 1] ++ [2, 5, 0x10001, 2] ++ [3, 4, 0, 0x10001] ++ [5, 7, 0, 1]

theorem emphasisNested_conforms : emphasisNested.SchemaConforms (Text.ofString "*a *b* c*") where
  table := ⟨by decide, by decide⟩
  leaf := by decide
  parent := by decide
  blockStart := by decide
  contentLine := by decide
  lineOrder := by decide
  afterDefinitions := by decide
  runOrder := by decide
  runRange := by decide

theorem emphasisInner_conforms : emphasisInner.SchemaConforms (Text.ofString "a *b* c") where
  table := ⟨by decide, by decide⟩
  leaf := by decide
  parent := by decide
  blockStart := by decide
  contentLine := by decide
  lineOrder := by decide
  afterDefinitions := by decide
  runOrder := by decide
  runRange := by decide

/-- A parser of the two sources. -/
def emphasisSetup : EditorSetup where
  parse text :=
    if text = Text.ofString "*a *b* c*" then .ok emphasisNested
    else if text = Text.ofString "a *b* c" then .ok emphasisInner
    else .error .other
  caps := History.defaultCaps

theorem emphasisSetup_conforms (text : Text) (m : RenderModel)
    (h : emphasisSetup.parse text = .ok m) : m.SchemaConforms text :=
  setupOfTwo_conforms emphasisNested_conforms emphasisInner_conforms text m h

/-- The caret behind the letter, in both emphases. -/
def caretNested : Document :=
  Document.project .units (Text.ofString "*a *b* c*") emphasisNested (.collapsed 5) {} none

theorem caretNested_live : caretNested.Live .units :=
  ⟨Built.anew emphasisNested_conforms.toConforms {}, emphasisNested_conforms⟩

/-- Out of two emphases, the caret is still in one: the outer one goes. -/
theorem not_setsStyle_nested :
    (∀ text m, emphasisSetup.parse text = .ok m → m.SchemaConforms text) ∧
      (opened caretNested).Live caretNested ∧
      ∃ ed', (opened caretNested).applySetStyle emphasisSetup Style.emphasis false 0 =
          .ok (true, ed') ∧
        (ed'.styleState Style.emphasis).value = .on ∧
        ¬SetsStyle emphasisSetup caretNested ed' Style.emphasis false := by
  refine ⟨emphasisSetup_conforms, opened_live caretNested_live, ?_⟩
  have hrun : ((opened caretNested).applySetStyle emphasisSetup Style.emphasis false 0).toOption.any
      (fun r => r.1 && (r.2.styleState Style.emphasis).value == .on) = true := by decide +kernel
  cases h : (opened caretNested).applySetStyle emphasisSetup Style.emphasis false 0 with
  | error failure =>
    rw [h] at hrun
    cases hrun
  | ok r =>
    obtain ⟨applied, ed'⟩ := r
    rw [h] at hrun
    obtain ⟨happlied, hvalue⟩ := Bool.and_eq_true_iff.1 hrun
    obtain rfl : applied = true := happlied
    have hon : (ed'.styleState Style.emphasis).value = .on := eq_of_beq hvalue
    refine ⟨ed', rfl, hon, fun hsets => ?_⟩
    have hoff := hsets.value
    rw [hon] at hoff
    cases hoff

end Editor

end Flark
