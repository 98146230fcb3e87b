import Flark.Kernel.Calls

/-!
# Settled editors

Between two calls an editor shows a sound snapshot of an admitted source, and history and an open
composition hold states of such snapshots. A command keeps that in either mode, and where it is not
applied it leaves what is edited as it was.

* `EditorSnapshot.Proper`, `History.Proper`: what an editor shows, and what it can go back to;
* `Editor.attempt_attempted`, `EditPlan.planned_run`: what an attempt and a plan can do;
* `EditorState.Settled`: an editor between two calls;
* `EditorState.Edits`: what a part of a call comes to;
* `EditorState.Settled.applyLive`, `EditorState.Settled.applySource`: the commands, in their modes.
-/

namespace Flark

/-! ## What an editor holds -/

/-- What holds of what an editor shows: a sound snapshot of an admitted source, and a style that is
    pending in a live document only. -/
structure EditorSnapshot.Proper {gs : Graphemes} (setup : EditorSetup) (forced : Bool)
    (snapshot : EditorSnapshot gs) (pending : Option PendingStyle) : Prop where
  sound : snapshot.Sound setup forced
  admitted : flarkSourceRefusal snapshot.text setup.sourceLimit = none
  pending : pending.isSome = true → snapshot.document?.isSome = true

/-- What is shown stays proper with another selection, and without a pending style. -/
theorem EditorSnapshot.Proper.withSelection {gs : Graphemes} {setup : EditorSetup} {forced : Bool}
    {snapshot : EditorSnapshot gs} {pending : Option PendingStyle}
    (h : snapshot.Proper setup forced pending) (s : Selection) :
    (snapshot.withSelection s).Proper setup forced none := by
  refine ⟨h.sound.withSelection s, ?_, nofun⟩
  have htext : (snapshot.withSelection s).text = snapshot.text := by cases snapshot <;> rfl
  rw [htext]
  exact h.admitted

/-- A state that an editor can show in a mode. -/
def HistoryState.Proper (gs : Graphemes) (setup : EditorSetup) (forced : Bool) (x : HistoryState) :
    Prop :=
  ∃ snapshot : EditorSnapshot gs, snapshot.Proper setup forced x.pending ∧
    snapshot.text = x.source ∧ snapshot.selection = x.selection

/-- A source that can be shown again is within the limits. -/
theorem HistoryState.Proper.admitted {gs : Graphemes} {setup : EditorSetup} {forced : Bool}
    {x : HistoryState} (h : x.Proper gs setup forced) :
    flarkSourceRefusal x.source setup.sourceLimit = none := by
  obtain ⟨snapshot, hproper, htext, -⟩ := h
  rw [← htext]
  exact hproper.admitted

/-- It is shown again as it was, in its mode. -/
theorem HistoryState.Proper.again {gs : Graphemes} {setup : EditorSetup} {forced : Bool}
    {x : HistoryState} (hparse : ∀ text m, setup.parse text = .ok m → m.SchemaConforms text)
    (h : x.Proper gs setup forced) :
    ∃ next : EditorSnapshot gs,
      projectSnapshot gs setup x.source x.selection forced false none none none = .ok next ∧
      next.text = x.source ∧ next.selection = x.selection ∧
      (x.pending.isSome = true → next.document?.isSome = true) := by
  obtain ⟨snapshot, hproper, htext, hselection⟩ := h
  obtain ⟨next, hnext, hshows⟩ := hproper.sound.fresh.again hparse
    fun d hd => absurd hd (Option.not_mem_none d)
  rw [htext, hselection] at hnext
  refine ⟨next, hnext, hshows.text.trans htext, hshows.selection.trans hselection, fun hpending => ?_⟩
  rw [hshows.isSome_document?]
  exact hproper.pending hpending

namespace History

variable (gs : Graphemes) (setup : EditorSetup)

/-- What holds of a history: it is valid, and each of its entries was shown, in one of the modes. -/
structure Proper (h : History) : Prop where
  valid : h.Valid setup.caps
  entries : ∀ e ∈ h.undo ++ h.redo, ∃ forced, e.state.Proper gs setup forced

variable {gs setup} {h : History}

theorem Proper.empty : (History.empty).Proper gs setup := ⟨Valid.empty setup.caps, nofun⟩

/-- What history holds does not depend on whether the next edit joins the last step. -/
theorem Proper.of_breakCoalescing {h' : History} (hp : h.Proper gs setup)
    (heq : h'.breakCoalescing = h.breakCoalescing) : h'.Proper gs setup := by
  obtain ⟨undo, redo, units, group, last, typing⟩ := h
  obtain ⟨undo', redo', units', group', last', typing'⟩ := h'
  cases heq
  exact ⟨⟨⟨hp.valid.units, hp.valid.increasing, hp.valid.current⟩, hp.valid.within⟩, hp.entries⟩

theorem Proper.breakCoalescing (hp : h.Proper gs setup) : h.breakCoalescing.Proper gs setup :=
  hp.of_breakCoalescing rfl

theorem Proper.clear (hp : h.Proper gs setup) : h.clear.Proper gs setup :=
  ⟨hp.valid.clear, nofun⟩

/-- Trimming takes entries only. -/
theorem mem_trim {caps : HistoryCaps} (h₀ : h.Consistent) {e : HistoryEntry}
    (he : e ∈ (h.trim caps).undo ++ (h.trim caps).redo) : e ∈ h.undo ++ h.redo := by
  obtain ⟨-, -, hundo, hredo, -⟩ := @trimFrom_spec caps h h₀ _ le_rfl
  exact (hundo.sublist.append hredo.sublist).subset he

/-- A recording puts one state in history, and trimming only takes some out. -/
theorem Proper.recordState (hp : h.Proper gs setup) {r : Recording} {forced : Bool}
    (hr : r.state.Proper gs setup forced) : (h.recordState setup.caps r).Proper gs setup := by
  refine ⟨hp.valid.recordState r, fun e he => ?_⟩
  obtain ⟨typing, last, heq⟩ := @recordState_fields setup.caps h r
  rw [heq] at he
  have hmem := mem_trim (hp.valid.recorded setup.caps r) he
  -- The entries that could be redone are gone, and the change has one where it joins no group.
  have hold : ∀ e ∈ h.undo, ∃ forced, e.state.Proper gs setup forced := fun e he =>
    hp.entries e (List.mem_append_left _ he)
  rw [recorded] at hmem
  split at hmem
  · rw [clearRedo, List.append_nil] at hmem
    exact hold e hmem
  · rw [clearRedo, List.append_nil] at hmem
    rcases List.mem_cons.1 hmem with rfl | hmem
    · exact ⟨forced, hr⟩
    · exact hold e hmem

/-- Undo puts the state it is called in on the other side. -/
theorem Proper.undoState (hp : h.Proper gs setup) {x : HistoryState} {forced : Bool}
    (hx : x.Proper gs setup forced) : (h.undoState setup.caps x).2.Proper gs setup := by
  refine ⟨hp.valid.undoState x, fun e he => ?_⟩
  rw [History.undoState] at he
  cases hundo : h.undo with
  | nil =>
    rw [hundo] at he
    exact hp.entries e he
  | cons top rest =>
    rw [hundo] at he
    have hmem := mem_trim (hp.valid.undone x) he
    rw [undone_eq hp.valid.toConsistent hundo] at hmem
    rcases List.mem_append.1 hmem with hmem | hmem
    · exact hp.entries e (List.mem_append_left _ (hundo ▸ List.mem_cons_of_mem _ hmem))
    · rcases List.mem_cons.1 hmem with rfl | hmem
      · exact ⟨forced, hx⟩
      · exact hp.entries e (List.mem_append_right _ hmem)

/-- Redo puts the state it is called in on the other side. -/
theorem Proper.redoState (hp : h.Proper gs setup) {x : HistoryState} {forced : Bool}
    (hx : x.Proper gs setup forced) : (h.redoState setup.caps x).2.Proper gs setup := by
  refine ⟨hp.valid.redoState x, fun e he => ?_⟩
  rw [History.redoState] at he
  cases hredo : h.redo with
  | nil =>
    rw [hredo] at he
    exact hp.entries e he
  | cons top rest =>
    rw [hredo] at he
    have hmem := mem_trim (hp.valid.redone x) he
    rw [redone_eq hredo] at hmem
    rcases List.mem_append.1 hmem with hmem | hmem
    · rcases List.mem_cons.1 hmem with rfl | hmem
      · exact ⟨forced, hx⟩
      · exact hp.entries e (List.mem_append_left _ hmem)
    · exact hp.entries e (List.mem_append_right _ (hredo ▸ List.mem_cons_of_mem _ hmem))

/-- What Undo goes to. -/
theorem Proper.undoTarget (hp : h.Proper gs setup) {e : HistoryEntry}
    (he : h.undoTarget = some e) : ∃ forced, e.state.Proper gs setup forced := by
  rw [hp.valid.undoTarget_eq] at he
  exact hp.entries e (List.mem_append_left _ (List.mem_of_head? he))

/-- What Redo would go back to can be shown again. -/
theorem Proper.redoTarget (hp : h.Proper gs setup) {e : HistoryEntry}
    (he : h.redoTarget = some e) : ∃ forced, e.state.Proper gs setup forced := by
  rw [hp.valid.redoTarget_eq] at he
  exact hp.entries e (List.mem_append_right _ (List.mem_of_head? he))

end History

/-! ## Attempts -/

namespace Editor

variable {gs : Graphemes} {setup : EditorSetup} {ed ed' : Editor gs}

/-- A source that is let in is within the limits, and live where the live limits let it. -/
theorem admits_ok {text : Text} {live : Bool} (h : admits setup text = .ok live) :
    flarkSourceRefusal text setup.sourceLimit = none ∧
      live = setup.liveLimits.admitsLive (SourceStats.of text) setup.syncLimit := by
  rw [admits] at h
  split_ifs at h with hvalid hlimit
  cases h
  rw [flarkSourceRefusal_eq_none, ← SourceStats.valid_of]
  exact ⟨⟨by simpa using hvalid, not_lt.1 hlimit⟩, rfl⟩

/-- The editor with its selection moved. -/
def selected (ed : Editor gs) (next : EditorSnapshot gs) : Editor gs :=
  { ed with
    snapshot := next
    pending := none
    goalColumn := none
    history := ed.history.breakCoalescing }

/-- A selection is made, or is the one there was. -/
theorem select_cases (d : Document) (s : Selection) :
    ed.select d s = (ed, false) ∨
      ed.select d s = (ed.selected (.live (d.withSelection gs s)), true) := by
  rw [select]
  exact (ite_eq_or_eq _ _ _)

/-- A selection of the source is made, or is the one there was. -/
theorem selectSource_cases (t : SourceSnapshot gs) (s : Selection) :
    ed.selectSource t s = (ed, false) ∨
      ed.selectSource t s = (ed.selected (.source (t.withSelection s)), true) := by
  rw [selectSource]
  exact (ite_eq_or_eq _ _ _)

/-- What an attempt commits: the selection moved in the snapshot that is shown, or the snapshot of
    an admitted source. -/
inductive Commits (setup : EditorSetup) (ed : Editor gs) : Editor gs → Prop
  | moved (s : Selection) : ed.cellOrigin = none →
      Commits setup ed { ed.selected (ed.snapshot.withSelection s) with inert := false }
  | published {a : Attempt} {next : EditorSnapshot gs} {reject : Bool}
      {parsed : Option RenderModel} {live : Bool} : admits setup a.source = .ok live →
      (∀ m ∈ parsed, setup.parse a.source = .ok m) →
      projectSnapshot gs setup a.source a.selection ed.forceSourceMode reject parsed (some live)
        ed.snapshot.document? = .ok next →
      Commits setup ed (ed.published setup a next)

/-- What an attempt comes to: a commit, or the outcome of the call and nothing else. -/
inductive Attempted (setup : EditorSetup) (ed : Editor gs) : Outcome × Editor gs → Prop
  | committed {ed' : Editor gs} : Commits setup ed ed' → Attempted setup ed (.committed, ed')
  | left {outcome : Outcome} (rejection : Option FlarkRejection) (inert : Bool) :
      outcome ≠ .committed →
      Attempted setup ed (outcome, { ed with lastRejection := rejection, inert := inert })

/-- An edit that changes the selection only attempts what an edit may. -/
theorem attempted_reselect (a : Attempt) (hcell : ed.cellOrigin = none) :
    Attempted setup ed (ed.reselect a) := by
  have hmoved : Commits setup ed _ := .moved a.selection hcell
  rw [reselect]
  cases hs : ed.snapshot with
  | live d =>
    rw [hs] at hmoved
    dsimp only
    split_ifs
    · exact .left ed.lastRejection ed.inert (fun h => by cases h)
    · rcases @select_cases gs ed d a.selection with heq | heq
      · rw [heq]
        exact .left ed.lastRejection true (fun h => by cases h)
      · rw [heq]
        exact .committed hmoved
  | source t =>
    rw [hs] at hmoved
    dsimp only
    split_ifs
    · exact .left ed.lastRejection ed.inert (fun h => by cases h)
    · rcases @selectSource_cases gs ed t a.selection with heq | heq
      · rw [heq]
        exact .left ed.lastRejection true (fun h => by cases h)
      · rw [heq]
        exact .committed hmoved

/-- What follows the admission of a source attempts what an edit may, if it does so once admitted.
    -/
theorem attempted_admitting {a : Attempt}
    {admitted : Bool → Except ParseFailure (Outcome × Editor gs)}
    (hadmitted : ∀ live, admits setup a.source = .ok live →
      ∀ r, admitted live = .ok r → Attempted setup ed r)
    {r : Outcome × Editor gs} (h : ed.admitting setup a admitted = .ok r) :
    Attempted setup ed r := by
  rw [admitting] at h
  split_ifs at h with hsame
  · cases h
    exact attempted_reselect a hsame.2
  · split at h
    · cases h
      exact .left _ ed.inert (fun h => by cases h)
    · next live hlive => exact hadmitted live hlive r h

/-- The edit's own document is published where it is parsed from the source admitted. -/
theorem attempted_publish {a : Attempt} {parsed : Option RenderModel} {live : Bool}
    (hlive : admits setup a.source = .ok live) (hparsed : ∀ m ∈ parsed, setup.parse a.source = .ok m)
    {r : Outcome × Editor gs} (h : ed.publish setup a parsed live = .ok r) :
    Attempted setup ed r := by
  rw [publish] at h
  split at h
  · cases h
    exact .left _ ed.inert (fun h => by cases h)
  · cases h
  · next d hnext =>
    split_ifs at h
    · cases h
      exact .left ed.lastRejection ed.inert (fun h => by cases h)
    · cases h
      exact .committed (.published hlive hparsed hnext)
  · next t hnext =>
    split_ifs at h
    · cases h
      exact .left ed.lastRejection ed.inert (fun h => by cases h)
    · cases h
      exact .committed (.published hlive hparsed hnext)

/-- Every edit attempts one of the three, or is refused. -/
theorem attempt_attempted {a : Attempt} {r : Outcome × Editor gs}
    (h : ed.attempt setup a = .ok r) : Attempted setup ed r := by
  refine attempted_admitting (fun live hlive r h => ?_) h
  split_ifs at h
  · split at h
    · cases h
      exact .left _ ed.inert nofun
    · cases h
    · next model hmodel =>
      split at h
      · next c _ =>
        -- The source with its fence completed is admitted on its own.
        exact attempted_admitting (fun live hlive r h =>
          attempted_publish hlive (fun m hm => absurd hm (Option.not_mem_none m)) h) h
      · exact attempted_publish hlive (fun m hm => by rw [← Option.some_inj.1 hm, hmodel]) h
  · exact attempted_publish hlive (fun m hm => absurd hm (Option.not_mem_none m)) h

/-- An edit is taken, and then commits, or leaves all but its rejection. -/
theorem commit_cases {a : Attempt} {r : Bool × Editor gs} (h : ed.commit setup a = .ok r) :
    (r.1 = true ∧ Commits setup ed r.2) ∨
      (r.1 = false ∧ ∃ rejection inert,
        r.2 = { ed with lastRejection := rejection, inert := inert }) := by
  rw [commit] at h
  cases hattempt : ed.attempt setup a with
  | error failure =>
    rw [hattempt] at h
    cases h
  | ok r' =>
    rw [hattempt] at h
    obtain rfl := Except.ok.inj h
    cases attempt_attempted hattempt with
    | committed hcommits => exact Or.inl ⟨rfl, hcommits⟩
    | left rejection inert hne => exact Or.inr ⟨beq_eq_false_iff_ne.2 hne, rejection, inert, rfl⟩

end Editor

/-! ## What a part of a call comes to -/

namespace EditorState

variable {gs : Graphemes} {setup : EditorSetup}

theorem composing_of_none {s : EditorState gs} (h : s.composition = none) : s.composing = false := by
  rw [Editor.composing, h]
  rfl

theorem composing_of_some {s : EditorState gs} {before : HistoryEntry}
    (h : s.composition = some before) : s.composing = true := by
  rw [Editor.composing, h]
  rfl

/-- What is edited is as it was, with the same steps in both stacks of history: what can differ is the
    outcome of the call, the column that vertical movement aims for, and whether typing goes on joining
    the last step. -/
structure Unedited (s s' : EditorState gs) : Prop where
  snapshot : s'.snapshot = s.snapshot
  pending : s'.pending = s.pending
  composition : s'.composition = s.composition
  composed : s'.composed = s.composed
  cellOrigin : s'.cellOrigin = s.cellOrigin
  history : s'.history.breakCoalescing = s.history.breakCoalescing
  forced : s'.forceSourceMode = s.forceSourceMode
  revision : s'.revision = s.revision

theorem Unedited.refl (s : EditorState gs) : s.Unedited s := ⟨rfl, rfl, rfl, rfl, rfl, rfl, rfl, rfl⟩

theorem Unedited.trans {s s' s'' : EditorState gs} (h : s.Unedited s') (h' : s'.Unedited s'') :
    s.Unedited s'' where
  snapshot := h'.snapshot.trans h.snapshot
  pending := h'.pending.trans h.pending
  composition := h'.composition.trans h.composition
  composed := h'.composed.trans h.composed
  cellOrigin := h'.cellOrigin.trans h.cellOrigin
  history := h'.history.trans h.history
  forced := h'.forced.trans h.forced
  revision := h'.revision.trans h.revision

/-- What an edit makes of an editor. While a composition is open it is no step of history. -/
structure Edited (setup : EditorSetup) (s s' : EditorState gs) : Prop where
  shown : s'.snapshot.Proper setup s.forceSourceMode s'.pending
  entries : s'.history.Proper gs setup
  composing : s.composing = true → s'.history.breakCoalescing = s.history.breakCoalescing
  composition : s'.composition = s.composition
  cellOrigin : s'.cellOrigin = s.cellOrigin
  forced : s'.forceSourceMode = s.forceSourceMode
  revision : s'.revision = s.revision

/-- A part of a call edits, or leaves what is edited as it was. -/
inductive Edits (setup : EditorSetup) (s : EditorState gs) :
    Except EditorFailure Bool × EditorState gs → Prop
  | edited {s' : EditorState gs} : s.Edited setup s' → Edits setup s (.ok true, s')
  | left {r : Except EditorFailure Bool} {s' : EditorState gs} : r ≠ .ok true → s.Unedited s' →
      Edits setup s (r, s')

/-- An editor between two calls. -/
structure Settled (setup : EditorSetup) (s : EditorState gs) : Prop where
  shown : s.snapshot.Proper setup s.forceSourceMode s.pending
  entries : s.history.Proper gs setup
  composition : ∀ e ∈ s.composition, e.state.Proper gs setup s.forceSourceMode
  cellOrigin : s.cellOrigin = none

/-- An editor whose next commit goes from what it shows, or from a cell that was prepared. -/
structure Ready (setup : EditorSetup) (s : EditorState gs) : Prop where
  live : ∀ d ∈ s.snapshot.document?, d.Live gs
  origin : (s.cellOrigin.getD s.snapshot).Proper setup s.forceSourceMode s.pending
  entries : s.history.Proper gs setup

/-- Between calls the editor is ready for an edit. -/
theorem Settled.ready {s : EditorState gs} (h : s.Settled setup) : s.Ready setup := by
  refine ⟨h.shown.sound.live, ?_, h.entries⟩
  rw [h.cellOrigin]
  exact h.shown

/-- What is shown can be recorded. -/
theorem Settled.held {s : EditorState gs} (h : s.Settled setup) :
    s.held.Proper gs setup s.forceSourceMode := ⟨s.snapshot, h.shown, rfl, rfl⟩

/-- A call that edits nothing keeps the editor settled. -/
theorem Settled.unedited {s s' : EditorState gs} (h : s.Settled setup) (hs : s.Unedited s') :
    s'.Settled setup where
  shown := by
    rw [hs.snapshot, hs.forced, hs.pending]
    exact h.shown
  entries := h.entries.of_breakCoalescing hs.history
  composition := by
    rw [hs.composition, hs.forced]
    exact h.composition
  cellOrigin := hs.cellOrigin.trans h.cellOrigin

/-- An edit keeps the editor settled. -/
theorem Settled.edited {s s' : EditorState gs} (h : s.Settled setup) (hs : s.Edited setup s') :
    s'.Settled setup where
  shown := by
    rw [hs.forced]
    exact hs.shown
  entries := hs.entries
  composition := by
    rw [hs.composition, hs.forced]
    exact h.composition
  cellOrigin := hs.cellOrigin.trans h.cellOrigin

/-- A program that edits, or does not, keeps the editor settled. -/
theorem Settled.edits {s : EditorState gs} {r : Except EditorFailure Bool × EditorState gs}
    (h : s.Settled setup) (hr : Edits setup s r) : r.2.Settled setup := by
  cases hr with
  | edited hs => exact h.edited hs
  | left _ hs => exact h.unedited hs

/-! ## Plans -/

/-- What a plan comes to: one attempt that is committed, or the outcome of the call only. -/
inductive Planned (setup : EditorSetup) (s : EditorState gs) :
    Except EditorFailure Bool × EditorState gs → Prop
  | applied (rejection : Option FlarkRejection) (inert : Bool) {ed : Editor gs} :
      Editor.Commits setup { s.toEditor with lastRejection := rejection, inert := inert } ed →
      Planned setup s (.ok true, { s with toEditor := ed })
  | left (rejection : Option FlarkRejection) (inert : Bool) {r : Except EditorFailure Bool} :
      r ≠ .ok true →
      Planned setup s (r, { s with lastRejection := rejection, inert := inert })

/-- A plan runs as one of the plans that a command can have. -/
theorem planned_run (plan : EditPlan) (s : EditorState gs) :
    Planned setup s (plan.run setup s) := by
  have hrun : ∀ (rejection : Option FlarkRejection) (inert : Bool),
      Planned setup s (plan.run setup { s with lastRejection := rejection, inert := inert }) := by
    induction plan with
    | leaves rejection inert => exact fun _ _ => .left rejection inert nofun
    | throws => exact fun rejection inert => .left rejection inert nofun
    | attempts rejection a next ih =>
      intro _ inert
      rw [EditPlan.run, Program.bind_apply, Program.modify_apply]
      dsimp only
      rw [Program.bind_apply, onEditor]
      dsimp only
      cases hattempt : ({ s.toEditor with lastRejection := rejection, inert := inert } :
          Editor gs).attempt setup a with
      | error failure => exact .left rejection inert nofun
      | ok r =>
        cases Editor.attempt_attempted hattempt with
        | committed hcommits => exact .applied rejection inert hcommits
        | @left outcome rejection inert hne =>
          change Planned setup s ((if outcome = .committed then pure true
            else (next outcome).run setup : EditorProgram gs Bool)
              { s with lastRejection := rejection, inert := inert })
          rw [if_neg hne]
          exact ih _ rejection inert
  exact hrun s.lastRejection s.inert

/-! ## Edits -/

/-- What was not edited may be edited next. -/
theorem Edited.of_unedited {s s' s'' : EditorState gs} (h : s.Unedited s')
    (hs : s'.Edited setup s'') : s.Edited setup s'' := by
  refine ⟨?_, hs.entries, fun hcomposing => ?_, hs.composition.trans h.composition,
    hs.cellOrigin.trans h.cellOrigin, hs.forced.trans h.forced, hs.revision.trans h.revision⟩
  · rw [← h.forced]
    exact hs.shown
  · refine (hs.composing ?_).trans h.history
    rw [Editor.composing, h.composition]
    exact hcomposing

/-- What edits after something that does not, edits. -/
theorem Edits.of_unedited {s s' : EditorState gs} {r : Except EditorFailure Bool × EditorState gs}
    (h : s.Unedited s') (hr : Edits setup s' r) : Edits setup s r := by
  cases hr with
  | edited hs => exact .edited (.of_unedited h hs)
  | left hne hs => exact .left hne (h.trans hs)

/-- Another column to aim for is no edit, and takes none back. -/
theorem Edits.aims {s s' : EditorState gs} {r : Except EditorFailure Bool}
    (h : Edits setup s (r, s')) (column : Option Int) :
    Edits setup s (r, { s' with goalColumn := column }) := by
  cases h with
  | left hne hs =>
    exact .left hne ⟨hs.snapshot, hs.pending, hs.composition, hs.composed, hs.cellOrigin, hs.history,
      hs.forced, hs.revision⟩
  | edited hs =>
    exact .edited ⟨hs.shown, hs.entries, hs.composing, hs.composition, hs.cellOrigin, hs.forced,
      hs.revision⟩

/-- What runs on the editor edits if every result of it does. -/
theorem edits_onEditor {s : EditorState gs}
    {f : Editor gs → Except ParseFailure (Bool × Editor gs)}
    (h : ∀ r, f s.toEditor = .ok r → Edits setup s (.ok r.1, { s with toEditor := r.2 })) :
    Edits setup s (onEditor f s) := by
  rw [onEditor]
  cases hf : f s.toEditor with
  | error failure => exact .left nofun (.refl s)
  | ok r => exact h r hf

/-- A selection of a live document edits the selection only. -/
theorem Settled.select {s : EditorState gs} (h : s.Settled setup) {d : Document}
    (hd : s.snapshot = .live d) (selected : Selection) :
    Edits setup s (selects d selected s) := by
  have hshown := h.shown.withSelection selected
  rw [hd] at hshown
  rw [selects]
  rcases @Editor.select_cases gs s.toEditor d selected with heq | heq
  · rw [heq]
    exact .left nofun (.refl s)
  · rw [heq]
    exact .edited ⟨hshown, h.entries.breakCoalescing, fun _ => rfl, rfl, rfl, rfl, rfl⟩

/-- A selection of the source edits the selection only. -/
theorem Settled.selectSource {s : EditorState gs} (h : s.Settled setup) {t : SourceSnapshot gs}
    (ht : s.snapshot = .source t) (selected : Selection) :
    Edits setup s (selectsSource t selected s) := by
  have hshown := h.shown.withSelection selected
  rw [ht] at hshown
  rw [selectsSource]
  rcases @Editor.selectSource_cases gs s.toEditor t selected with heq | heq
  · rw [heq]
    exact .left nofun (.refl s)
  · rw [heq]
    exact .edited ⟨hshown, h.entries.breakCoalescing, fun _ => rfl, rfl, rfl, rfl, rfl⟩

section

variable (hparse : ∀ text m, setup.parse text = .ok m → m.SchemaConforms text)

include hparse

/-- What an edit commits is an edit: its source is admitted, and its step recorded. -/
theorem Ready.commits {s : EditorState gs} (h : s.Ready setup) {ed : Editor gs}
    (hc : Editor.Commits setup s.toEditor ed) : s.Edited setup { s with toEditor := ed } := by
  cases hc with
  | moved selected hcell =>
    have horigin := h.origin
    rw [hcell] at horigin
    exact ⟨horigin.withSelection selected, h.entries.breakCoalescing, fun _ => rfl, rfl, rfl, rfl,
      rfl⟩
  | @published a next reject parsed live hlive hparsed hnext =>
    obtain ⟨hadmitted, hlive⟩ := Editor.admits_ok hlive
    have hfrom : ProjectedFrom gs setup a.source parsed (some live) s.snapshot.document? :=
      ⟨hparsed, fun l hl => by rw [← Option.some_inj.1 hl, hlive], h.live⟩
    obtain ⟨htext, hsound⟩ := sound_of_projectSnapshot hparse hfrom hnext
    refine ⟨⟨hsound, htext ▸ hadmitted, fun hpending => ?_⟩, ?_, fun hcomposing => ?_, rfl, rfl, rfl,
      rfl⟩
    · rw [Editor.published] at hpending
      dsimp only at hpending
      split_ifs at hpending with hdocument
      · exact hdocument
      · cases hpending
    · -- An unwritten cell is recorded as it was.
      rw [Editor.published, Editor.recorded]
      dsimp only
      split_ifs
      · exact h.entries
      · exact h.entries.recordState ⟨_, h.origin, rfl, rfl⟩
    · rw [Editor.published, Editor.recorded]
      exact congrArg History.breakCoalescing (if_pos hcomposing)

/-- Each kind of plan edits, or leaves things as they were. -/
theorem Ready.planned {s : EditorState gs} (h : s.Ready setup)
    {r : Except EditorFailure Bool × EditorState gs} (hr : Planned setup s r) :
    Edits setup s r := by
  cases hr with
  | left rejection inert hne => exact .left hne ⟨rfl, rfl, rfl, rfl, rfl, rfl, rfl, rfl⟩
  | applied rejection inert hc =>
    have hready : Ready setup { s with lastRejection := rejection, inert := inert } :=
      ⟨h.live, h.origin, h.entries⟩
    have hs := hready.commits hparse hc
    exact .edited ⟨hs.shown, hs.entries, hs.composing, hs.composition, hs.cellOrigin, hs.forced,
      hs.revision⟩

theorem Ready.plan {s : EditorState gs} (h : s.Ready setup) (plan : EditPlan) :
    Edits setup s (plan.run setup s) := h.planned hparse (planned_run plan s)

/-- An attempt of its own. -/
theorem Ready.commit {s : EditorState gs} (h : s.Ready setup) (f : Editor gs → Attempt) :
    Edits setup s (onEditor (fun ed => ed.commit setup (f ed)) s) := by
  refine edits_onEditor fun r hr => ?_
  rcases Editor.commit_cases hr with ⟨hcommitted, hc⟩ | ⟨hleft, rejection, inert, heq⟩
  · rw [hcommitted]
    exact .edited (h.commits hparse hc)
  · rw [hleft, heq]
    exact .left nofun ⟨rfl, rfl, rfl, rfl, rfl, rfl, rfl, rfl⟩

/-- What a state that was shown once is built to. -/
theorem Settled.build {s : EditorState gs} (h : s.Settled setup) {text : Text}
    (htext : flarkSourceRefusal text setup.sourceLimit = none) {selected : Selection}
    {next : EditorSnapshot gs} (hnext : s.build setup text selected = .ok next)
    {pending : Option PendingStyle}
    (hpending : pending.isSome = true → next.document?.isSome = true) :
    next.Proper setup s.forceSourceMode pending := by
  obtain ⟨heq, hsound⟩ :=
    sound_of_projectSnapshot hparse (.plain gs setup text h.shown.sound.live) hnext
  exact ⟨hsound, by rw [heq, htext], hpending⟩

/-- A state that can be shown in the mode that is on is restored as it was shown. -/
theorem Settled.restore {s : EditorState gs} (h : s.Settled setup) {e : HistoryEntry}
    {snapshot : EditorSnapshot gs}
    (hs : snapshot.Proper setup s.forceSourceMode e.state.pending)
    (htext : snapshot.text = e.state.source) (hselection : snapshot.selection = e.state.selection) :
    ∃ next, s.restoreSnapshot setup e = .ok next ∧
      next.Proper setup s.forceSourceMode e.state.pending ∧ next.Shows snapshot := by
  obtain ⟨next, hnext, hshows⟩ := hs.sound.fresh.again hparse h.shown.sound.live
  rw [htext, hselection] at hnext
  refine ⟨next, hnext, h.build hparse (htext ▸ hs.admitted) hnext fun hpending => ?_, hshows⟩
  rw [hshows.isSome_document?]
  exact hs.pending hpending

/-! ## History -/

/-- A state of history that is shown again is an edit. -/
theorem Settled.restores {s : EditorState gs} (h : s.Settled setup) {e : HistoryEntry}
    {forced : Bool} (he : e.state.Proper gs setup forced) {next : EditorSnapshot gs}
    (hnext : s.restoreSnapshot setup e = .ok next) (hcomposing : s.composing = false)
    {history : History} (hhistory : history.Proper gs setup) :
    s.Edited setup (s.restores e next history) := by
  refine ⟨h.build hparse he.admitted hnext fun hpending => ?_, hhistory, fun hc => ?_, rfl, rfl, rfl,
    rfl⟩
  · rw [EditorState.restores] at hpending
    dsimp only at hpending
    split_ifs at hpending with hdocument
    · exact hdocument
    · cases hpending
  · rw [hcomposing] at hc
    cases hc

/-- Undo goes back to a state that can be shown, or does nothing. -/
theorem Settled.undo {s : EditorState gs} (h : s.Settled setup) (hcomposing : s.composing = false) :
    Edits setup s (undo setup s) := by
  rw [EditorState.undo]
  split
  · exact .left nofun ⟨rfl, rfl, rfl, rfl, rfl, rfl, rfl, rfl⟩
  · next target htarget =>
    split
    · exact .left nofun (.refl s)
    · next next hnext =>
      obtain ⟨forced, he⟩ := h.entries.undoTarget htarget
      have hfst : (s.history.undoState setup.caps s.held).1.getD target = target := by
        rw [h.entries.valid.undoState_fst, ← h.entries.valid.undoTarget_eq, htarget]
        rfl
      dsimp only
      rw [hfst]
      exact .edited (h.restores hparse he hnext hcomposing (h.entries.undoState h.held))

/-- Redo goes back to a state that can be shown, or does nothing. -/
theorem Settled.redo {s : EditorState gs} (h : s.Settled setup) (hcomposing : s.composing = false) :
    Edits setup s (redo setup s) := by
  rw [EditorState.redo]
  split
  · exact .left nofun ⟨rfl, rfl, rfl, rfl, rfl, rfl, rfl, rfl⟩
  · next target htarget =>
    split
    · exact .left nofun (.refl s)
    · next next hnext =>
      obtain ⟨forced, he⟩ := h.entries.redoTarget htarget
      have hfst : (s.history.redoState setup.caps s.held).1.getD target = target := by
        rw [History.redoState_fst, ← h.entries.valid.redoTarget_eq, htarget]
        rfl
      dsimp only
      rw [hfst]
      exact .edited (h.restores hparse he hnext hcomposing (h.entries.redoState h.held))

/-! ## Source mode -/

theorem Settled.commitsSource {s : EditorState gs} (h : s.Settled setup) (source : Text)
    (caret : Int) (coalesce : Bool) : Edits setup s (commitsSource setup source caret coalesce s) :=
  h.ready.commit hparse fun _ => _

theorem Settled.sourceInsert {s : EditorState gs} (h : s.Settled setup) (t : SourceSnapshot gs)
    (text : Text) (typing : Bool) : Edits setup s (sourceInsert setup t text typing s) := by
  rw [EditorState.sourceInsert]
  split_ifs
  · exact .left nofun (.refl s)
  · exact h.commitsSource hparse _ _ _

theorem Settled.sourceDelete {s : EditorState gs} (h : s.Settled setup) (t : SourceSnapshot gs)
    (backward word : Bool) : Edits setup s (sourceDelete setup t backward word s) := by
  rw [EditorState.sourceDelete]
  cases t.sourceDelete backward word with
  | none => exact .left nofun (.refl s)
  | some c => exact h.commitsSource hparse _ _ _

/-- Every command in source mode edits, or leaves things as they were. -/
theorem Settled.applySource {s : EditorState gs} (h : s.Settled setup) {t : SourceSnapshot gs}
    (ht : s.snapshot = .source t) {c : FlarkCommand}
    (hhistory : c = .undo ∨ c = .redo → s.composing = false) :
    Edits setup s (applySource setup t c s) := by
  cases c with
  | insertText text => exact h.sourceInsert hparse t text true
  | paste text => exact h.sourceInsert hparse t text false
  | deleteBackward word => exact h.sourceDelete hparse t true word
  | deleteForward word => exact h.sourceDelete hparse t false word
  | newline paragraph => exact h.sourceInsert hparse t _ false
  | replaceRange start stop text =>
    rw [EditorState.applySource, sourceReplace]
    split_ifs
    · exact .left nofun (.refl s)
    · exact h.commitsSource hparse _ _ _
  | setSelection base extent => exact h.selectSource ht _
  | selectAll => exact h.selectSource ht _
  | moveCaret forward unit extend =>
    rw [EditorState.applySource, moveSource]
    split
    · exact h.selectSource ht _
    · exact .left nofun (.refl s)
  | undo => exact h.undo hparse (hhistory (Or.inl rfl))
  | redo => exact h.redo hparse (hhistory (Or.inr rfl))
  | _ => exact .left nofun (.refl s)

/-! ## Live commands -/

omit hparse in
/-- The end of a movement selects, and no more. -/
theorem Settled.lands {s : EditorState gs} (h : s.Settled setup) {d : Document}
    (hd : s.snapshot = .live d) (placed : Selection) : Edits setup s (lands d placed s) := by
  have hselect := h.select hd placed
  rw [selects] at hselect
  rw [EditorState.lands]
  rcases @Editor.select_cases gs s.toEditor d placed with heq | heq
  · rw [heq]
    dsimp only
    rw [if_neg Bool.false_ne_true]
    cases hpending : s.pending with
    | none => exact .left nofun ⟨rfl, hpending.symm, rfl, rfl, rfl, rfl, rfl, rfl⟩
    | some p =>
      exact .edited ⟨⟨h.shown.sound, h.shown.admitted, nofun⟩, h.entries.breakCoalescing,
        fun _ => rfl, rfl, rfl, rfl, rfl⟩
  · rw [heq] at hselect ⊢
    exact hselect

omit hparse in
/-- A press selects, and no more. -/
theorem Settled.place {s : EditorState gs} (h : s.Settled setup) {d : Document}
    (hd : s.snapshot = .live d) (row offset : Int) (leadingHalf extend : Bool) :
    Edits setup s (place d row offset leadingHalf extend s) := by
  rw [EditorState.place]
  match d.placeSelection gs row offset leadingHalf extend with
  | none => exact .left nofun (.refl s)
  | some none => exact .left nofun (.refl s)
  | some (some placed) => exact h.lands hd placed

omit hparse in
/-- A movement selects, and no more. -/
theorem Settled.move {s : EditorState gs} (h : s.Settled setup) {d : Document}
    (hd : s.snapshot = .live d) (forward : Bool) (unit : MoveUnit) (extend : Bool) :
    Edits setup s (move d forward unit extend s) := by
  rw [EditorState.move]
  split
  · exact .left nofun (.refl s)
  · exact .left nofun (.refl s)
  · next target _ =>
    split_ifs
    · exact h.lands hd target
    · -- The column that a vertical movement aims for is no part of what is edited.
      exact (h.select hd target).aims _
    · exact h.select hd target

omit hparse in
/-- Selecting all selects, and no more. -/
theorem Settled.selectAll {s : EditorState gs} (h : s.Settled setup) {d : Document}
    (hd : s.snapshot = .live d) : Edits setup s (selectAll d s) := by
  have hscope : ∀ (scope : Bool) (selected : Selection),
      Edits setup s (selects d selected { s with selectedCodeScope := scope }) := by
    intro scope selected
    have hs : s.Unedited { s with selectedCodeScope := scope } :=
      ⟨rfl, rfl, rfl, rfl, rfl, rfl, rfl, rfl⟩
    exact .of_unedited hs ((h.unedited hs).select hd selected)
  rw [EditorState.selectAll]
  split
  · dsimp only
    split_ifs
    · exact hscope true _
    · exact hscope false _
  · exact .left nofun (.refl s)

/-- A move to another cell selects, or runs a plan. -/
theorem Settled.moveTableCell {s : EditorState gs} (h : s.Settled setup) (plans : EditorPlans gs)
    {d : Document} (hd : s.snapshot = .live d) (backward : Bool) :
    Edits setup s (moveTableCell setup plans d backward s) := by
  rw [EditorState.moveTableCell]
  split
  · exact .left nofun (.refl s)
  · dsimp only
    split_ifs
    · exact .left nofun (.refl s)
    · exact h.place hd _ _ _ _
    · exact .left nofun (.refl s)
    · exact h.place hd _ _ _ _
    · exact h.ready.plan hparse _

/-- A style that is set is pending, or is an edit of the source, step by step. -/
theorem Settled.setStyle {s : EditorState gs} (h : s.Settled setup) {d : Document}
    (hd : s.snapshot = .live d) (style : Nat) (enabled : Editor gs → Bool) :
    Edits setup s (onEditor (fun ed => ed.setStyle setup d style (enabled ed)) s) := by
  refine edits_onEditor fun r hr => ?_
  -- Whatever it writes goes through `commit`, and whatever else it does is a selection, or a
  -- pending style.
  have hcommit : ∀ {written : Text × Selection} {value : Document → Bool},
      s.toEditor.restyle setup d style written value = .ok r →
      Edits setup s (.ok r.1, { s with toEditor := r.2 }) := by
    intro written value hr
    have hcommit := h.ready.commit hparse fun _ => {
      source := written.1
      selection := written.2
      coalesce := false
      accept := some fun next =>
        value next && d.formattingContent style == next.formattingContent style }
    rw [onEditor] at hcommit
    rw [Editor.restyle] at hr
    rw [hr] at hcommit
    exact hcommit
  have hselect : ∀ {selected : Selection},
      (.ok (s.toEditor.select d selected).swap : Except ParseFailure (Bool × Editor gs)) = .ok r →
      Edits setup s (.ok r.1, { s with toEditor := r.2 }) := by
    rintro selected hr
    obtain rfl := Except.ok.inj hr
    exact h.select hd selected
  rw [Editor.setStyle] at hr
  split at hr
  · cases hr
    exact .left nofun ⟨rfl, rfl, rfl, rfl, rfl, rfl, rfl, rfl⟩
  · by_cases hcan : (!if enabled s.toEditor = true then (s.toEditor.styleState style).canEnable
        else (s.toEditor.styleState style).canDisable) = true
    · rw [if_pos hcan] at hr
      cases hr
      exact .left nofun (.refl s)
    · rw [if_neg hcan] at hr
      split at hr
      · rw [Editor.toggleCaretStyle] at hr
        dsimp only at hr
        cases howner : d.caretOwner gs style with
        | some o =>
          rw [howner] at hr
          dsimp only at hr
          split_ifs at hr
          · exact hselect hr
          · exact hselect hr
          · exact hcommit hr
        | none =>
          rw [howner] at hr
          cases htouched : d.touchedOwner gs style with
          | some o =>
            rw [htouched] at hr
            exact hselect hr
          | none =>
            rw [htouched] at hr
            dsimp only at hr
            split_ifs at hr
            · cases hr
              exact .left nofun (.refl s)
            all_goals
              cases hr
              refine .edited ⟨⟨h.shown.sound, h.shown.admitted, fun _ => ?_⟩,
                h.entries.breakCoalescing, fun _ => rfl, rfl, rfl, rfl, rfl⟩
              rw [hd]
              rfl
      · exact hcommit hr

omit hparse in
theorem applyLive_newline (plans : EditorPlans gs) (d : Document) (paragraph : Bool)
    (s : EditorState gs) : EditorState.applyLive setup plans d (.newline paragraph) s =
      match plans.newline paragraph s d with
      | .edits plan => plan.run setup s
      | .places row => EditorState.place d row 0 true false s := rfl

/-- Every command in a live document edits, or leaves things as they were. -/
theorem Settled.applyLive {s : EditorState gs} (h : s.Settled setup) (plans : EditorPlans gs)
    {d : Document} (hd : s.snapshot = .live d) {c : FlarkCommand}
    (hhistory : c = .undo ∨ c = .redo → s.composing = false) :
    Edits setup s (applyLive setup plans d c s) := by
  cases c with
  | setSelection base extent => exact h.select hd _
  | selectAll => exact h.selectAll hd
  | placeCaret row offset leadingHalf extend => exact h.place hd _ _ _ _
  | moveCaret forward unit extend => exact h.move hd _ _ _
  | moveTableCell backward => exact h.moveTableCell hparse plans hd backward
  | undo => exact h.undo hparse (hhistory (Or.inl rfl))
  | redo => exact h.redo hparse (hhistory (Or.inr rfl))
  | toggleStyle style =>
    exact h.setStyle hparse hd style fun ed => (ed.styleState style).value != .on
  | setStyle style enabled => exact h.setStyle hparse hd style fun _ => enabled
  | newline paragraph =>
    rw [applyLive_newline]
    cases plans.newline paragraph s d with
    | edits plan => exact h.ready.plan hparse plan
    | places row => exact h.place hd _ _ _ _
  | _ => exact h.ready.plan hparse _

/-! ## Unwritten cells -/

omit hparse in
theorem applyLive_planned (plans : EditorPlans gs) (d : Document) {c : FlarkCommand}
    (hc : plannedEdit c = true) (s : EditorState gs) :
    EditorState.applyLive setup plans d c s = (plans.edit c s d).run setup s := by
  cases c <;> first | rfl | cases hc

omit hparse in
theorem plannedEdit_cellEdit {caret : Int} {c : FlarkCommand} {edit : Int → FlarkCommand}
    (h : cellEdit caret c = some edit) (o : Int) : plannedEdit (edit o) = true := by
  rw [cellEdit.eq_def] at h
  split at h
  · split_ifs at h
    cases h
    rfl
  · split_ifs at h with hc
    cases h
    exact hc

/-- A document that is loaded is live. -/
theorem live_of_load {text : Text} {caret : Int} {d : Document}
    (h : load gs setup text caret = .ok d) : d.Live gs := by
  rw [load] at h
  split_ifs at h
  split at h
  · cases h
  · next m hm =>
    cases h
    exact ⟨Built.anew (hparse _ _ hm).toConforms _, hparse _ _ hm⟩

omit hparse in
/-- What was not applied in a prepared cell is put back. -/
theorem closeCell_left {s s' : EditorState gs} {r : Except EditorFailure Bool} (hr : r ≠ .ok true)
    (hforced : s'.forceSourceMode = s.forceSourceMode) (hrevision : s'.revision = s.revision) :
    Edits setup s (closeCell s (r, s')) := by
  rw [closeCell.eq_def]
  split
  · next heq => exact absurd (congrArg Prod.fst heq) hr
  · next heq =>
    cases heq
    exact .left nofun ⟨rfl, rfl, rfl, rfl, rfl, rfl, hforced, hrevision⟩
  · next heq =>
    cases heq
    exact .left hr ⟨rfl, rfl, rfl, rfl, rfl, rfl, hforced, hrevision⟩

omit hparse in
/-- What was applied in it is an edit of what was shown. -/
theorem edits_closeCell {s : EditorState gs} {cell : Option (EditorSnapshot gs)}
    {prepared : EditorSnapshot gs} {r : Except EditorFailure Bool × EditorState gs}
    (hcell : s.cellOrigin = none)
    (h : Edits setup { s with cellOrigin := cell, snapshot := prepared } r) :
    Edits setup s (closeCell s r) := by
  cases h with
  | edited hs =>
    exact .edited ⟨hs.shown, hs.entries, hs.composing, hs.composition, hcell.symm, hs.forced,
      hs.revision⟩
  | left hne hs => exact closeCell_left hne hs.forced hs.revision

/-- A command on a cell that is missing edits once the cell is there, or leaves things as they were.
    -/
theorem Settled.withMissingCell {s : EditorState gs} (h : s.Settled setup) (plans : EditorPlans gs)
    {d : Document} (hd : s.snapshot = .live d) {c : FlarkCommand}
    (hhistory : c = .undo ∨ c = .redo → s.composing = false) :
    Edits setup s (withMissingCell setup plans d c s) := by
  rw [EditorState.withMissingCell]
  split
  · exact h.applyLive hparse plans hd hhistory
  · split_ifs
    · exact .left nofun (.refl s)
    · split
      · exact h.applyLive hparse plans hd hhistory
      · next edit hedit =>
        split
        · exact .left nofun (.refl s)
        · dsimp only
          split_ifs
          · exact .left nofun ⟨rfl, rfl, rfl, rfl, rfl, rfl, rfl, rfl⟩
          · split
            · exact closeCell_left nofun rfl rfl
            · next prepared hload =>
              -- The cell is prepared outside of what is shown, and the edit goes from there.
              have hready : Ready setup
                  { s with cellOrigin := some s.snapshot, snapshot := .live prepared } := by
                refine ⟨fun d' hd' => ?_, h.shown, h.entries⟩
                rw [← Option.some_inj.1 hd']
                exact live_of_load hparse hload
              rw [applyLive_planned plans prepared (plannedEdit_cellEdit hedit _)]
              exact edits_closeCell h.cellOrigin (hready.plan hparse _)

end

end EditorState

end Flark
