import Flark.Kernel.SetStyle
import Flark.Kernel.Transactions

/-!
# Sessions

What holds of an editor after any calls, in any order, from its opening on, whatever the edits of a
live document write.

* `EditorState.Settled.run`: the invariant of any number of calls;
* `EditorState.snapshot_eq_anew`: what is shown is what opening the source anew shows;
* `EditorState.held_again`: every source that is held is admitted, and can be gone back to;
* `EditorState.refused_unedited`: a call that throws or is refused leaves what is edited as it was;
* `EditorState.expected_meets`: a call for a revision meets what was shown with that revision.
-/

namespace Flark

/-- A call that commits an open composition before all else. -/
def FlarkEditorCall.commits : FlarkEditorCall → Bool
  | .apply .undo _ _ | .setSourceMode _ => true
  | _ => false

/-- The revision that a call brings. -/
def FlarkEditorCall.expected : FlarkEditorCall → Option Nat
  | .apply _ _ expected | .applyAfterComposition _ _ expected
  | .replaceSourceRange _ _ _ expected _ | .loadMarkdown _ expected | .selectAll _ expected =>
    expected
  | _ => none

namespace EditorState

variable {gs : Graphemes} {setup : EditorSetup}

/-! ## Calls -/

/-- A call comes to nothing: it throws, or it returns false. -/
def Refuses (r : Except EditorFailure (Option Bool)) : Prop :=
  r = .ok (some false) ∨ ∃ failure, r = .error failure

/-- A call that comes to nothing does not return true. -/
theorem refuses_map_some {r : Except EditorFailure Bool} (h : Refuses (r.map some)) :
    r ≠ .ok true := by
  rintro rfl
  rcases h with hfalse | ⟨failure, hthrown⟩
  · cases hfalse
  · cases hthrown

/-- A call without an answer comes to nothing by throwing only. -/
theorem refuses_map_none {r : Except EditorFailure Unit} (h : Refuses (r.map fun _ => none)) :
    ∃ failure, r = .error failure := by
  cases r with
  | error failure => exact ⟨failure, rfl⟩
  | ok _ =>
    rcases h with hfalse | ⟨failure, hthrown⟩
    · cases hfalse
    · cases hthrown

/-- A call without an answer runs without a clock and returns nothing. -/
theorem returnsNone_apply (m : EditorProgram gs Unit) (s : EditorState gs) :
    returnsNone m s =
      ((m (enter none s).2).1.map fun _ => none, (m (enter none s).2).2) := by
  change (m >>= fun _ => pure none) (enter none s).2 = _
  rw [Program.bind_apply]
  rcases m (enter none s).2 with ⟨e | a, s'⟩ <;> rfl

/-- Reading the clock edits nothing. -/
theorem Unedited.readings (s : EditorState gs) (n : Nat) : s.Unedited { s with readings := n } :=
  ⟨rfl, rfl, rfl, rfl, rfl, rfl, rfl, rfl⟩

/-- The time of a call is given, or is a reading of the clock, and no more is changed. -/
theorem timeOf_cases (plans : EditorPlans gs) (at_ : Option Int) (s : EditorState gs) :
    ∃ time n, timeOf plans at_ s = (.ok time, { s with readings := n }) := by
  cases at_ with
  | none => exact ⟨_, _, rfl⟩
  | some time => exact ⟨time, s.readings, rfl⟩

theorem not_refuses_none : ¬Refuses ((.ok () : Except EditorFailure Unit).map fun _ => none) := by
  intro h
  obtain ⟨failure, hthrown⟩ := refuses_map_none h
  cases hthrown

/-- What a call comes to. Where it is refused, what is edited is as it was, or as the composition
    that it committed first left it. -/
structure Called (setup : EditorSetup) (plans : EditorPlans gs) (c : FlarkEditorCall)
    (s : EditorState gs) (r : Except EditorFailure (Option Bool) × EditorState gs) : Prop where
  stepped : s.Stepped setup r.2
  refused : Refuses r.1 → s.Unedited r.2 ∨ (c.commits = true ∧ ∃ s₁ s₂, s.Unedited s₁ ∧
    commitComposition setup plans s₁ = (.ok (), s₂) ∧ s₂.Unedited r.2)

/-- What a call does after something that edits nothing, it does. -/
theorem Called.of_unedited {plans : EditorPlans gs} {c : FlarkEditorCall} {s s' : EditorState gs}
    {r : Except EditorFailure (Option Bool) × EditorState gs} (h : s.Settled setup)
    (hs : s.Unedited s') (hr : Called setup plans c s' r) : Called setup plans c s r := by
  refine ⟨(h.stepped_unedited hs).trans hr.stepped, fun hrefuses => ?_⟩
  rcases hr.refused hrefuses with hs' | ⟨hc, s₁, s₂, hs₁, hrest⟩
  · exact Or.inl (hs.trans hs')
  · exact Or.inr ⟨hc, s₁, s₂, hs.trans hs₁, hrest⟩

theorem Acts.called (plans : EditorPlans gs) {s : EditorState gs} {m : EditorProgram gs Bool}
    (h : Acts setup s (m s)) (c : FlarkEditorCall) : Called setup plans c s ((some <$> m) s) := by
  rw [Program.map_apply]
  exact ⟨h.stepped, fun hrefuses => Or.inl (h.refused (refuses_map_some hrefuses))⟩

section

variable (hparse : ∀ text m, setup.parse text = .ok m → m.SchemaConforms text)
  (plans : EditorPlans gs)

include hparse

/-- A command is a call: stale, within a composition or past it. -/
theorem Settled.call_apply {s : EditorState gs} (h : s.Settled setup) (c : FlarkCommand)
    (time : Int) (at_ : Option Int) (expected : Option Nat) :
    Called setup plans (.apply c at_ expected) s
      ((some <$> EditorState.applyCommand setup plans c time expected) s) := by
  rw [Program.map_apply, EditorState.applyCommand]
  obtain ⟨s', hs, heq | heq⟩ := ifFresh_cases expected (EditorState.applyFresh setup plans c time) s
  · obtain ⟨hstepped, hrefused⟩ := (h.unedited hs).applyFresh_committed hparse plans c time
    refine .of_unedited h hs ?_
    rw [heq]
    refine ⟨hstepped, fun hrefuses => ?_⟩
    rcases hrefused (refuses_map_some hrefuses) with hs' | ⟨rfl, s₂, hcommitted, hs₂⟩
    · exact Or.inl hs'
    · exact Or.inr ⟨rfl, s', s₂, .refl s', hcommitted, hs₂⟩
  · rw [heq]
    exact ⟨h.stepped_unedited hs, fun _ => Or.inl hs⟩

/-- The end of a composition is a call. -/
theorem Settled.call_commit {s : EditorState gs} (h : s.Settled setup) :
    Called setup plans .commitComposition s (call setup plans .commitComposition s) := by
  refine .of_unedited h (unedited_enter s none) ?_
  rw [call, returnsNone_apply]
  rcases (h.unedited (unedited_enter s none)).commitComposition hparse plans with
    ⟨s', heq, hs, -⟩ | ⟨failure, s', heq, hs⟩
  · rw [heq]
    exact ⟨hs, fun hrefuses => absurd hrefuses not_refuses_none⟩
  · rw [heq]
    exact ⟨(h.unedited (unedited_enter s none)).stepped_unedited hs, fun _ => Or.inl hs⟩

/-- A composition taken back is a call. -/
theorem Settled.call_cancel {s : EditorState gs} (h : s.Settled setup) :
    Called setup plans .cancelComposition s (call setup plans .cancelComposition s) := by
  refine .of_unedited h (unedited_enter s none) ?_
  rw [call, returnsNone_apply]
  obtain ⟨s', heq, hs⟩ := (h.unedited (unedited_enter s none)).cancelComposition hparse
  rw [heq]
  exact ⟨hs, fun hrefuses => absurd hrefuses not_refuses_none⟩

/-- A switch of the mode is a call, once the composition has ended. -/
theorem Settled.call_setSourceMode {s : EditorState gs} (h : s.Settled setup) (enabled : Bool) :
    Called setup plans (.setSourceMode enabled) s (call setup plans (.setSourceMode enabled) s) := by
  have hentered := h.unedited (unedited_enter s none)
  refine .of_unedited h (unedited_enter s none) ?_
  rw [call, returnsNone_apply]
  rcases hentered.commitComposition hparse plans with
    ⟨s', heq, hs, hclosed, -⟩ | ⟨failure, s', heq, hs⟩
  · rw [Program.bind_ok heq]
    obtain ⟨hstepped, hthrows⟩ := hs.settled.showsSource hparse hclosed enabled
    refine ⟨hs.trans hstepped, fun hrefuses => ?_⟩
    obtain ⟨failure, hthrown⟩ := refuses_map_none hrefuses
    exact Or.inr ⟨rfl, _, s', .refl _, heq, hthrows failure hthrown⟩
  · rw [Program.bind_error heq]
    exact ⟨hentered.stepped_unedited hs, fun _ => Or.inl hs⟩

/-- Every call but one that begins a composition. -/
theorem Settled.called {s : EditorState gs} (h : s.Settled setup) {c : FlarkEditorCall}
    (hc : c ≠ .beginComposition) : Called setup plans c s (call setup plans c s) := by
  cases c with
  | apply c at_ expected =>
    obtain ⟨time, n, heq⟩ := timeOf_cases plans at_ s
    have hs := Unedited.readings s n
    rw [call, Program.bind_ok heq]
    exact .of_unedited h hs ((h.unedited hs).call_apply hparse plans c time at_ expected)
  | applyAfterComposition c at_ expected =>
    obtain ⟨time, n, heq⟩ := timeOf_cases plans at_ s
    have hs := Unedited.readings s n
    rw [call, Program.bind_ok heq]
    refine .of_unedited h hs (Acts.called plans ((h.unedited hs).ifFresh expected ?_) _)
    exact fun _ _ hsettled => hsettled.applyAfterEnding hparse plans (fun _ => rfl) time
  | replaceSourceRange start stop text expected replaceAll =>
    refine Acts.called plans (h.ifFresh expected ?_) _
    exact fun _ _ hsettled => hsettled.replaceSourceRange hparse plans start stop text replaceAll
  | loadMarkdown text expected =>
    refine Acts.called plans (h.ifFresh expected ?_) _
    exact fun _ _ hsettled => hsettled.loadMarkdown hparse text
  | selectAll codeBlock expected =>
    refine Acts.called plans (h.ifFresh expected ?_) _
    exact fun _ _ hsettled => hsettled.selectAllIn hparse plans codeBlock
  | beginComposition => exact absurd rfl hc
  | commitComposition => exact h.call_commit hparse plans
  | cancelComposition => exact h.call_cancel hparse plans
  | setSourceMode enabled => exact h.call_setSourceMode hparse plans enabled

/-! ## Runs -/

omit hparse in
theorem run_concat (s : EditorState gs) (calls : List FlarkEditorCall) (c : FlarkEditorCall) :
    run setup plans s (calls ++ [c]) = step setup plans (run setup plans s calls) c :=
  List.foldl_concat ..

omit hparse in
/-- A composition begins where none is open. -/
theorem step_begin (s : EditorState gs) :
    s.Unedited (step setup plans s .beginComposition) ∨
      (s.composition = none ∧ ∃ s', s.Unedited s' ∧ step setup plans s .beginComposition =
        { s' with composition := some ⟨s.held, s.history.group⟩, composed := none }) := by
  rw [step, call, returnsNone_apply, beginComposition, Program.modify_apply]
  dsimp only
  split_ifs with hopen
  · exact Or.inl (unedited_enter s none)
  · refine Or.inr ⟨?_, _, unedited_enter s none, rfl⟩
    rw [Editor.composing, Option.isSome_iff_ne_none, not_not] at hopen
    exact hopen

/-- A call steps, or opens a composition at what is held. -/
theorem Settled.step_cases {s : EditorState gs} (h : s.Settled setup) (c : FlarkEditorCall) :
    s.Stepped setup (step setup plans s c) ∨
      (c = .beginComposition ∧ s.composition = none ∧ ∃ s', s.Unedited s' ∧
        step setup plans s c =
          { s' with composition := some ⟨s.held, s.history.group⟩, composed := none }) := by
  by_cases hc : c = .beginComposition
  · subst hc
    rcases step_begin plans s with hs | ⟨hclosed, s', hs, heq⟩
    · exact Or.inl (h.stepped_unedited hs)
    · exact Or.inr ⟨rfl, hclosed, s', hs, heq⟩
  · exact Or.inl (h.called hparse plans hc).stepped

/-- A call keeps the editor settled. -/
theorem Settled.step {s : EditorState gs} (h : s.Settled setup) (c : FlarkEditorCall) :
    (step setup plans s c).Settled setup := by
  rcases h.step_cases hparse plans c with hs | ⟨-, -, s', hs, heq⟩
  · exact hs.settled
  · have hsettled := h.unedited hs
    rw [heq]
    refine ⟨hsettled.shown, hsettled.entries, fun e he => ?_, hsettled.cellOrigin⟩
    rw [← Option.some_inj.1 he]
    exact hs.forced ▸ h.held

/-- Any number of calls keeps what holds of an editor between two calls. -/
theorem Settled.run {s : EditorState gs} (h : s.Settled setup) (calls : List FlarkEditorCall) :
    (run setup plans s calls).Settled setup := by
  induction calls generalizing s with
  | nil => exact h
  | cons c calls ih => exact ih (h.step hparse plans c)

omit plans in
/-- An editor is settled when opened: it has no history yet. -/
theorem settled_opened {text : Text} {caret : Int} {s : EditorState gs}
    (h : opened setup gs text caret = .ok s) : s.Settled setup := by
  rw [opened] at h
  split_ifs at h
  split at h
  · cases h
  · next hadmitted =>
    split at h
    · cases h
    · next snapshot hsnapshot =>
      cases h
      obtain ⟨heq, hsound⟩ := sound_of_projectSnapshot hparse (.anew gs setup text) hsnapshot
      exact ⟨⟨hsound, heq ▸ hadmitted, nofun⟩, .empty, nofun, rfl⟩

omit hparse plans in
/-- An editor that a host can have: one that was opened, after any calls. -/
def Reached (setup : EditorSetup) (plans : EditorPlans gs) (s : EditorState gs) : Prop :=
  ∃ text caret s₀ calls, opened setup gs text caret = .ok s₀ ∧ run setup plans s₀ calls = s

/-- Edits of a live document that leave it as it is. -/
def idlePlans : EditorPlans .units where
  edit _ _ _ := .leaves none true
  newline _ _ _ := .edits (.leaves none true)
  leaveTable _ _ _ := .leaves none true
  pasteCode _ _ _ _ _ := none
  sameSource _ := true
  samePending _ := true
  clock n := n

/-- An editor as it is opened, its caret in two emphases. -/
def nested : EditorState .units := { snapshot := .live Editor.caretNested }

omit hparse plans in
/-- The source of two emphases is opened live. -/
theorem opened_nested :
    opened Editor.emphasisSetup .units (Text.ofString "*a *b* c*") 5 = .ok nested := by
  have hparsed : Editor.emphasisSetup.parse (Text.ofString "*a *b* c*") =
      .ok Editor.emphasisNested := by
    dsimp only [Editor.emphasisSetup]
    exact if_pos rfl
  have hshown : projectSnapshot .units Editor.emphasisSetup (Text.ofString "*a *b* c*")
      (.collapsed 5) false false none none none = .ok (.live Editor.caretNested) := by
    rw [projectSnapshot, if_neg (by decide +kernel), Option.elim_none, hparsed]
    exact if_neg (by decide)
  have hadmitted :
      flarkSourceRefusal (Text.ofString "*a *b* c*") Editor.emphasisSetup.sourceLimit = none := by
    decide +kernel
  rw [opened, if_neg (by decide), hadmitted]
  dsimp only
  rw [hshown]
  rfl

omit hparse plans in
theorem nested_reached (calls : List FlarkEditorCall) :
    (EditorState.run Editor.emphasisSetup idlePlans nested calls).Reached Editor.emphasisSetup
      idlePlans :=
  ⟨_, _, _, calls, opened_nested, rfl⟩

/-- The editor after a letter was typed in its source. -/
def typed : EditorState .units := run Editor.emphasisSetup idlePlans nested
  [.setSourceMode true, .apply (.insertText (Text.ofString "x")) none none]

omit hparse plans in
theorem typed_reached : typed.Reached Editor.emphasisSetup idlePlans := nested_reached _

omit hparse plans in
theorem twoParagraphs_schemaConforms : (twoParagraphs 4).SchemaConforms (Text.ofString "a\n\nb") ∧
    (twoParagraphs 5).SchemaConforms (Text.ofString "a\n\nbc") := by
  obtain ⟨hconforms, hconforms'⟩ := twoParagraphs_conforms
  exact ⟨⟨hconforms, by decide, by decide, by decide, by decide, by decide, by decide, by decide⟩,
    ⟨hconforms', by decide, by decide, by decide, by decide, by decide, by decide, by decide⟩⟩

/-- The parser of two paragraphs, before and after a letter is put at the end. -/
def paragraphsSetup : EditorSetup :=
  Editor.setupOfTwo (Text.ofString "a\n\nb") (Text.ofString "a\n\nbc") (twoParagraphs 4)
    (twoParagraphs 5)

omit hparse plans in
theorem paragraphsSetup_conforms (text : Text) (m : RenderModel)
    (h : paragraphsSetup.parse text = .ok m) : m.SchemaConforms text :=
  Editor.setupOfTwo_conforms twoParagraphs_schemaConforms.1 twoParagraphs_schemaConforms.2 text m h

/-- An editor as it is opened, its caret at the end of two paragraphs. -/
def paragraphs : EditorState .units where
  snapshot := .live
    (Document.project .units (Text.ofString "a\n\nb") (twoParagraphs 4) (.collapsed 4) {} none)

/-- The editor with its text composed anew, a letter longer. -/
def lettered : EditorState .units := run paragraphsSetup idlePlans paragraphs
  [.beginComposition, .apply (.replaceRange 0 4 (Text.ofString "a\n\nbc")) none none]

omit hparse plans in
/-- The source of two paragraphs is opened live. -/
theorem opened_paragraphs :
    opened paragraphsSetup .units (Text.ofString "a\n\nb") 4 = .ok paragraphs := by
  have hparsed : paragraphsSetup.parse (Text.ofString "a\n\nb") = .ok (twoParagraphs 4) := by
    dsimp only [paragraphsSetup, Editor.setupOfTwo]
    exact if_pos rfl
  have hshown : projectSnapshot .units paragraphsSetup (Text.ofString "a\n\nb") (.collapsed 4) false
      false none none none = .ok paragraphs.snapshot := by
    rw [projectSnapshot, if_neg (by decide +kernel), Option.elim_none, hparsed]
    exact if_neg (by decide)
  have hadmitted :
      flarkSourceRefusal (Text.ofString "a\n\nb") paragraphsSetup.sourceLimit = none := by
    decide +kernel
  rw [opened, if_neg (by decide), hadmitted]
  dsimp only
  rw [hshown]
  rfl

omit hparse plans in
theorem lettered_reached : lettered.Reached paragraphsSetup idlePlans :=
  ⟨_, _, _, _, opened_paragraphs, rfl⟩

variable {plans}

/-- Every editor reached is settled. -/
theorem Reached.settled {s : EditorState gs} (h : s.Reached setup plans) : s.Settled setup := by
  obtain ⟨text, caret, s₀, calls, hopened, rfl⟩ := h
  exact (settled_opened hparse hopened).run hparse plans calls

/-! ## What is shown and what is held -/

/-- What is shown is what opening the source anew shows, with the selection and in the mode that it
    is shown with: no call leaves rows behind that its source does not make. -/
theorem snapshot_eq_anew {s : EditorState gs} (h : s.Reached setup plans) :
    ∃ anew, projectSnapshot gs setup s.source s.selection s.forceSourceMode false none none none =
        .ok anew ∧ s.snapshot.Shows anew :=
  (h.settled hparse).shown.sound.fresh

omit hparse in
/-- The text of two paragraphs is composed anew, a letter longer, and the row of the first one is
    taken over. -/
theorem snapshot_eq_anew_lettered : lettered.source = Text.ofString "a\n\nbc" ∧
    lettered.snapshot.document?.map (fun d => d.projection.rows.map ProjectedRow.origin) =
      some [0, -1, -1] ∧
    ∃ anew, projectSnapshot .units paragraphsSetup lettered.source lettered.selection
      lettered.forceSourceMode false none none none = .ok anew ∧ lettered.snapshot.Shows anew :=
  ⟨by decide +kernel, by decide +kernel, snapshot_eq_anew paragraphsSetup_conforms lettered_reached⟩

/-- The source that is shown is admitted, and so is every source that history or an open composition
    holds: each of their states is shown again as it was, in the mode it was shown in, which for that
    of a composition is the mode the editor is in. History is within its caps, a style is pending in a
    live document only, and no cell is left prepared. -/
theorem held_again {s : EditorState gs} (h : s.Reached setup plans) :
    flarkSourceRefusal s.source setup.sourceLimit = none ∧
      (∀ e, e ∈ s.history.undo ++ s.history.redo ∨ e ∈ s.composition →
        flarkSourceRefusal e.state.source setup.sourceLimit = none ∧
        ∃ (forced : Bool) (next : EditorSnapshot gs), (e ∈ s.composition → forced = s.forceSourceMode) ∧
          projectSnapshot gs setup e.state.source e.state.selection forced false none none none =
            .ok next ∧ next.text = e.state.source ∧ next.selection = e.state.selection ∧
          (e.state.pending.isSome = true → next.document?.isSome = true)) ∧
      s.history.Valid setup.caps ∧ (s.pending.isSome = true → s.sourceMode = false) ∧
      s.cellOrigin = none := by
  have hs := h.settled hparse
  refine ⟨hs.shown.admitted, fun e he => ?_, hs.entries.valid, fun hpending => ?_, hs.cellOrigin⟩
  · obtain ⟨forced, hforced, hproper⟩ : ∃ forced, (e ∈ s.composition → forced = s.forceSourceMode) ∧
        e.state.Proper gs setup forced := by
      by_cases hcomposing : e ∈ s.composition
      · exact ⟨_, fun _ => rfl, hs.composition e hcomposing⟩
      · obtain ⟨forced, hproper⟩ := hs.entries.entries e (he.resolve_right hcomposing)
        exact ⟨forced, fun h => absurd h hcomposing, hproper⟩
    obtain ⟨next, hnext⟩ := hproper.again hparse
    exact ⟨hproper.admitted, forced, next, hforced, hnext⟩
  · rw [Editor.sourceMode, ← Option.not_isSome, hs.shown.pending hpending]
    rfl

omit hparse in
/-- A letter was typed, and the state before it is held. -/
theorem held_again_typed : typed.history.undo.length = 1 ∧ ∀ e ∈ typed.history.undo,
    flarkSourceRefusal e.state.source Editor.emphasisSetup.sourceLimit = none :=
  ⟨by decide +kernel, fun e he => ((held_again Editor.emphasisSetup_conforms
    typed_reached).2.1 e (Or.inl (List.mem_append_left _ he))).1⟩

/-- A call that leaves the revision leaves what is shown with it. -/
theorem Settled.step_published {s : EditorState gs} (h : s.Settled setup) (c : FlarkEditorCall) :
    s.revision ≤ (EditorState.step setup plans s c).revision ∧
      ((EditorState.step setup plans s c).revision = s.revision →
        (EditorState.step setup plans s c).snapshot = s.snapshot ∧
          (EditorState.step setup plans s c).pending = s.pending) := by
  rcases h.step_cases hparse plans c with hs | ⟨-, -, s', hs, heq⟩
  · exact ⟨hs.le, hs.published⟩
  · rw [heq]
    exact ⟨hs.revision.ge, fun _ => ⟨hs.snapshot, hs.pending⟩⟩

/-- Calls that leave the revision leave what is shown with it. -/
theorem Settled.run_published {s : EditorState gs} (h : s.Settled setup)
    (calls : List FlarkEditorCall) :
    s.revision ≤ (EditorState.run setup plans s calls).revision ∧
      ((EditorState.run setup plans s calls).revision = s.revision →
        (EditorState.run setup plans s calls).snapshot = s.snapshot ∧
          (EditorState.run setup plans s calls).pending = s.pending) := by
  induction calls generalizing s with
  | nil => exact ⟨le_rfl, fun _ => ⟨rfl, rfl⟩⟩
  | cons c calls ih =>
    obtain ⟨hle, hpublished⟩ := h.step_published hparse c
    obtain ⟨hle', hpublished'⟩ := ih (h.step hparse plans c)
    refine ⟨hle.trans hle', fun heq => ?_⟩
    -- The revisions do not fall, so that none of the calls publishes anything.
    have hstep := hle'.trans heq.le
    obtain ⟨hsnapshot, hpending⟩ := hpublished (le_antisymm hstep hle)
    obtain ⟨hsnapshot', hpending'⟩ := hpublished' (le_antisymm (heq.le.trans hle) hle')
    exact ⟨hsnapshot'.trans hsnapshot, hpending'.trans hpending⟩

omit hparse in
/-- A call for another revision is refused before it does anything. -/
theorem ifFresh_stale {s : EditorState gs} {revision : Nat} (h : revision ≠ s.revision)
    (m : EditorProgram gs Bool) :
    ifFresh (some revision) m s =
      (.ok false, { s with lastRejection := some .staleRevision, inert := false }) := by
  rw [ifFresh, Program.bind_apply, enter, Option.all_some, beq_eq_false_iff_ne.2 h]
  rfl

omit hparse in
/-- A call for another revision does nothing, but that it can read the clock. -/
theorem call_stale {s : EditorState gs} {c : FlarkEditorCall} {revision : Nat}
    (hc : c.expected = some revision) (h : revision ≠ s.revision) :
    (call setup plans c s).1 = .ok (some false) ∧ ∃ n, EditorState.step setup plans s c =
      { s with lastRejection := some .staleRevision, inert := false, readings := n } := by
  have hstale : ∀ (n : Nat) (m : EditorProgram gs Bool),
      call setup plans c s = (some <$> ifFresh (some revision) m) { s with readings := n } →
      (call setup plans c s).1 = .ok (some false) ∧ ∃ n, EditorState.step setup plans s c =
        { s with lastRejection := some .staleRevision, inert := false, readings := n } := by
    intro n m heq
    rw [EditorState.step, heq, Program.map_apply, @ifFresh_stale gs { s with readings := n } _ h]
    exact ⟨rfl, n, rfl⟩
  cases c with
  | apply c at_ expected =>
    obtain rfl : expected = some revision := hc
    obtain ⟨time, n, heq⟩ := timeOf_cases plans at_ s
    exact hstale n _ (by rw [call, Program.bind_ok heq]; rfl)
  | applyAfterComposition c at_ expected =>
    obtain rfl : expected = some revision := hc
    obtain ⟨time, n, heq⟩ := timeOf_cases plans at_ s
    exact hstale n _ (by rw [call, Program.bind_ok heq])
  | replaceSourceRange start stop text expected replaceAll =>
    obtain rfl : expected = some revision := hc
    exact hstale s.readings _ rfl
  | loadMarkdown text expected =>
    obtain rfl : expected = some revision := hc
    exact hstale s.readings _ rfl
  | selectAll codeBlock expected =>
    obtain rfl : expected = some revision := hc
    exact hstale s.readings _ rfl
  | _ => cases hc

/-- A call that brings the revision of an earlier editor meets the snapshot and the pending style of
    that editor, whatever calls came between; or it says that it is stale and does nothing, but that it
    can read the clock. -/
theorem expected_meets {s : EditorState gs} (h : s.Reached setup plans) (calls : List FlarkEditorCall)
    {c : FlarkEditorCall} (hc : c.expected = some s.revision) :
    ((EditorState.run setup plans s calls).snapshot = s.snapshot ∧
        (EditorState.run setup plans s calls).pending = s.pending) ∨
      ((call setup plans c (EditorState.run setup plans s calls)).1 = .ok (some false) ∧
        ∃ n, EditorState.run setup plans s (calls ++ [c]) =
          { EditorState.run setup plans s calls with
            lastRejection := some .staleRevision, inert := false, readings := n }) := by
  by_cases hsame : (EditorState.run setup plans s calls).revision = s.revision
  · exact Or.inl (((h.settled hparse).run_published hparse calls).2 hsame)
  · rw [run_concat]
    exact Or.inr (call_stale hc (Ne.symm hsame))

omit hparse in
/-- Undo for a revision that is past is refused. -/
theorem expected_meets_typed : (call Editor.emphasisSetup idlePlans (.apply .undo none (some 0))
    typed).1 = .ok (some false) := by
  have hreached : nested.Reached Editor.emphasisSetup idlePlans := nested_reached []
  have hsource : typed.snapshot.document?.isSome = false := by decide +kernel
  have hexpected : (FlarkEditorCall.apply .undo none (some 0)).expected = some nested.revision := by
    rw [show nested.revision = 0 from rfl]
    rfl
  rcases expected_meets Editor.emphasisSetup_conforms hreached
    [.setSourceMode true, .apply (.insertText (Text.ofString "x")) none none] hexpected with h | h
  · rw [typed, h.1] at hsource
    cases hsource
  · exact h.1

end

end EditorState

end Flark
