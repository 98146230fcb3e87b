import Flark.Kernel.Settled

/-!
# Composing

What the parts of a composition come to. Composed text goes into the source outside history; typing
it is tried on the editor, which is put back, so that a text that typing refuses leaves nothing
behind. The end of a composition is one step of history from the state that it began in.

* `EditorState.Settled.compose`, `EditorState.Settled.retypeComposition`: while it composes, and as
  it ends;
* `EditorState.Ended`: what the end of a composition makes of an editor.
-/

namespace Flark

namespace EditorState

variable {gs : Graphemes} {setup : EditorSetup}

/-! ## Composed text -/

theorem Unedited.aside {s s' : EditorState gs} (hforced : s'.forceSourceMode = s.forceSourceMode)
    (hrevision : s'.revision = s.revision) : s.Unedited (s'.withEditState s) :=
  ⟨rfl, rfl, rfl, rfl, rfl, rfl, hforced, hrevision⟩

section

variable (hparse : ∀ text m, setup.parse text = .ok m → m.SchemaConforms text)
  (plans : EditorPlans gs)

include hparse

/-- What typing makes of a composed text: a text that was typed, outside history, or nothing. -/
theorem Settled.typeComposed {s : EditorState gs} (h : s.Settled setup) {d : Document}
    {pending : Option PendingStyle}
    (hd : (EditorSnapshot.live d : EditorSnapshot gs).Proper setup s.forceSourceMode pending)
    (text : Text) :
    (∃ s', typeComposed setup plans d pending text s = (.ok none, s') ∧ s.Edited setup s' ∧
      s'.composed = s.composed ∧ s'.history = s.history) ∨
    ∃ r s', typeComposed setup plans d pending text s = (r, s') ∧ r ≠ .ok none ∧ s.Unedited s' := by
  have hsettled : Settled setup
      { s with composition := none, snapshot := .live d, pending := pending, lastRejection := none } :=
    ⟨hd, h.entries, nofun, h.cellOrigin⟩
  have hedits : Edits setup _ (EditorState.withMissingCell setup plans d
      (if text = [] then .deleteBackward false else .insertText text) _) :=
    hsettled.withMissingCell hparse plans rfl fun _ => rfl
  rw [EditorState.typeComposed]
  generalize EditorState.withMissingCell setup plans d
    (if text = [] then .deleteBackward false else .insertText text) _ = x at hedits ⊢
  cases hedits with
  | edited hs =>
    exact Or.inl ⟨_, rfl, ⟨hs.shown, h.entries, fun _ => rfl, rfl, rfl, hs.forced, hs.revision⟩, rfl,
      rfl⟩
  | @left r s' hne hs =>
    have hback : s.Unedited
        { s'.withEditState s with lastRejection := s.lastRejection, inert := s.inert } :=
      ⟨rfl, rfl, rfl, rfl, rfl, rfl, hs.forced, hs.revision⟩
    match r with
    | .error failure => exact Or.inr ⟨_, _, rfl, nofun, hback⟩
    | .ok false => exact Or.inr ⟨_, _, rfl, nofun, hback⟩
    | .ok true => exact absurd rfl hne

theorem Settled.composes {s : EditorState gs} (h : s.Settled setup) (first last : Int)
    (text : Text) : Edits setup s (composes setup plans first last text s) := by
  have hcommit := h.ready.commit hparse fun ed =>
    ⟨ed.source.replaceRange first.toNat last.toNat text, .collapsed (first + text.length), false,
      false, ed.pending, none, none, true⟩
  rw [EditorState.composes]
  revert hcommit
  generalize onEditor _ s = x
  intro hcommit
  cases hcommit with
  | edited hs =>
    exact .edited ⟨hs.shown, hs.entries, hs.composing, hs.composition, hs.cellOrigin, hs.forced,
      hs.revision⟩
  | @left r s' hne hs =>
    match r with
    | .error failure => exact .left hne hs
    | .ok false => exact .left hne hs
    | .ok true => exact absurd rfl hne

theorem Settled.composesApart {s : EditorState gs} (h : s.Settled setup) {d : Document}
    (hd : (EditorSnapshot.live d : EditorSnapshot gs).Proper setup s.forceSourceMode s.pending)
    (first last : Int) (text : Text) :
    Edits setup s (composesApart setup plans d first last text s) := by
  rw [EditorState.composesApart]
  rcases h.typeComposed hparse plans hd text with ⟨s', heq, hs, -⟩ | ⟨r, s', heq, hne, hs⟩
  · rw [heq]
    have haside : s.Unedited (s'.withEditState s) := .aside hs.forced hs.revision
    exact .of_unedited haside ((h.unedited haside).composes hparse plans first last text)
  · rw [heq]
    match r with
    | .error failure => exact .left nofun hs
    | .ok (some reason) =>
      exact .left nofun ⟨rfl, rfl, rfl, rfl, rfl, rfl, hs.forced, hs.revision⟩
    | .ok none => exact absurd rfl hne

theorem Settled.compose {s : EditorState gs} (h : s.Settled setup) {d : Document}
    (hd : s.snapshot = .live d) (start stop : Int) (text : Text) :
    Edits setup s (compose setup plans d start stop text s) := by
  have hshown := h.shown
  rw [hd] at hshown
  have hfrom : ∀ selected : Selection, (EditorSnapshot.live (d.withSelection gs selected) :
      EditorSnapshot gs).Proper setup s.forceSourceMode s.pending := fun selected =>
    ⟨hshown.sound.withSelection selected, hshown.admitted, fun _ => rfl⟩
  rw [EditorState.compose]
  dsimp only
  split_ifs
  · exact .left nofun (.refl s)
  · exact h.composes hparse plans _ _ _
  · split
    · exact h.ready.plan hparse _
    · exact h.composesApart hparse plans hshown _ _ _
  · split
    · exact h.ready.plan hparse _
    · exact h.composesApart hparse plans (hfrom _) _ _ _

omit hparse in
/-- What a composed text is typed over is the document it began in, with another selection. -/
theorem settleRange_document (d : Document) (at_ over_ : Selection) (begun : Bool) (text : Text) :
    (settleRange gs d at_ over_ begun text).document = d ∨
      ∃ selected, (settleRange gs d at_ over_ begun text).document =
        d.withSelection gs selected := by
  rw [settleRange]
  dsimp only
  split_ifs
  · exact Or.inl rfl
  · exact Or.inr ⟨_, rfl⟩
  · exact Or.inr ⟨_, rfl⟩
  · exact Or.inl rfl

omit hparse in
/-- A composed text that was typed: as it was composed, it keeps the selection that it has, with the
    intent of typing. -/
theorem Settled.retyped_typed {s s' : EditorState gs} (h : s.Settled setup)
    (before : HistoryEntry) {d : Document} (hd : s.snapshot = .live d) (r : Retyping)
    (range : Option Composed) (hs : s.Edited setup s') (hcomposed : s'.composed = s.composed)
    (hhistory : s'.history = s.history) :
    Edits setup s (retyped setup plans before range r s none s') := by
  rw [retyped]
  dsimp only
  split_ifs
  · exact .edited hs
  · cases hchanged : s'.pending != s.pending || s'.pending.isSome && !plans.samePending s' with
    | true =>
      refine .edited ⟨⟨h.shown.sound, h.shown.admitted, fun _ => ?_⟩, hs.entries, hs.composing,
        hs.composition, hs.cellOrigin, hs.forced, hs.revision⟩
      rw [hd]
      rfl
    | false =>
      rw [Bool.or_eq_false_iff, bne_eq_false_iff_eq] at hchanged
      exact .left nofun ⟨rfl, hchanged.1, hs.composition, hcomposed, hs.cellOrigin,
        congrArg History.breakCoalescing hhistory, hs.forced, hs.revision⟩

/-- A composed text that typing refuses is withdrawn: what is shown goes back to where the
    composition began. -/
theorem Settled.retyped_refused {s s' : EditorState gs} (h : s.Settled setup)
    {before : HistoryEntry} (hbefore : before.state.Proper gs setup s.forceSourceMode)
    {r : Retyping} (hr : (EditorSnapshot.live r.document : EditorSnapshot gs).Proper setup
      s.forceSourceMode before.state.pending) (range : Option Composed) (hs : s.Unedited s')
    (reason : FlarkRejection) :
    Edits setup s (retyped setup plans before range r s (some reason) s') := by
  have hedited : ∀ next : EditorSnapshot gs,
      next.Proper setup s.forceSourceMode before.state.pending → s.Edited setup { s' with
        snapshot := next, pending := before.state.pending, lastRejection := some reason } :=
    fun next hnext => ⟨hnext, h.entries.of_breakCoalescing hs.history, fun _ => hs.history,
      hs.composition, hs.cellOrigin, hs.forced, hs.revision⟩
  rw [retyped]
  dsimp only
  split_ifs
  · exact .left nofun hs
  · exact .edited (hedited _ hr)
  · obtain ⟨snapshot, hproper, htext, hselection⟩ := hbefore
    rw [← hs.forced] at hproper
    obtain ⟨next, hnext, hshown, -⟩ :=
      (h.unedited hs).restore hparse hproper htext hselection
    rw [hs.forced] at hshown
    rw [hnext]
    exact .edited (hedited _ hshown)

theorem Settled.retypes {s : EditorState gs} (h : s.Settled setup) {before : HistoryEntry}
    (hbefore : before.state.Proper gs setup s.forceSourceMode) {d : Document}
    (hd : s.snapshot = .live d) {r : Retyping}
    (hr : ∀ pending, (EditorSnapshot.live r.document : EditorSnapshot gs).Proper setup
      s.forceSourceMode pending) (range : Option Composed) (text : Text) :
    Edits setup s (retypes setup plans before range r text s) := by
  rw [EditorState.retypes]
  split
  · exact .left nofun (.refl s)
  · rcases h.typeComposed hparse plans (hr _) text with ⟨s', heq, hs, hcomposed, hhistory⟩ |
      ⟨x, s', heq, hne, hs⟩
    · rw [Program.bind_ok heq]
      exact h.retyped_typed plans before hd r range hs hcomposed hhistory
    · match x with
      | .error failure =>
        rw [Program.bind_error heq]
        exact .left nofun hs
      | .ok none => exact absurd rfl hne
      | .ok (some reason) =>
        rw [Program.bind_ok heq]
        exact h.retyped_refused hparse plans hbefore (hr _) range hs reason

theorem Settled.retypeComposition {s : EditorState gs} (h : s.Settled setup)
    {before : HistoryEntry} (hbefore : before ∈ s.composition) :
    Edits setup s (retypeComposition setup plans before s) := by
  have hproper := h.composition before hbefore
  rw [EditorState.retypeComposition]
  dsimp only
  split
  · exact .left nofun (.refl s)
  · next hlive =>
    split
    · exact .left nofun (.refl s)
    · split
      · exact .left nofun (.refl s)
      · exact .left nofun (.refl s)
      · next d hd =>
        have hsource : s.sourceMode = false := by
          rw [Bool.or_eq_true, not_or] at hlive
          exact Bool.eq_false_of_not_eq_true hlive.1
        obtain ⟨d₀, hd₀⟩ : ∃ d₀, s.snapshot = .live d₀ := by
          rw [Editor.sourceMode] at hsource
          cases hs : s.snapshot with
          | live d₀ => exact ⟨d₀, rfl⟩
          | source t =>
            rw [hs] at hsource
            cases hsource
        refine h.retypes hparse plans hproper hd₀ (fun pending => ?_) _ _
        have hshown : EditorSnapshot.Proper setup s.forceSourceMode (.live d) pending :=
          h.build hparse hproper.admitted hd fun _ => rfl
        rcases @settleRange_document gs d before.state.selection _ _ _ with heq | ⟨selected, heq⟩
        · rw [heq]
          exact hshown
        · rw [heq]
          exact ⟨hshown.sound.withSelection selected, hshown.admitted, fun _ => rfl⟩

/-! ## The end of a composition -/

/-- What the end of a composition makes of an editor: one step of history from the state that it
    began in, where the source is not the one that it began with. -/
structure Ended (setup : EditorSetup) (s s' : EditorState gs) : Prop where
  shown : s'.snapshot.Proper setup s.forceSourceMode s'.pending
  entries : s'.history.Proper gs setup
  recorded : ∀ before ∈ s.composition, ∃ history : History,
    history.breakCoalescing = s.history.breakCoalescing ∧
      (s'.source = before.state.source → s'.history = history.breakCoalescing) ∧
      (s'.source ≠ before.state.source → ∃ time, s'.history =
        (history.recordState setup.caps ⟨before.state, false, time⟩).breakCoalescing)
  composition : s'.composition = none
  cellOrigin : s'.cellOrigin = none
  forced : s'.forceSourceMode = s.forceSourceMode
  revision : s'.revision = s.revision

omit hparse in
theorem Ended.settled {s s' : EditorState gs} (h : s.Ended setup s') : s'.Settled setup := by
  refine ⟨?_, h.entries, ?_, h.cellOrigin⟩
  · rw [h.forced]
    exact h.shown
  · rw [h.composition]
    exact nofun

omit hparse in
/-- Without a composition there is nothing to end. -/
theorem endComposition_none {s : EditorState gs} (hs : s.composition = none) (retype : Bool) :
    endComposition setup plans retype s = (.ok false, s) := by
  rw [endComposition, hs]

omit hparse in
@[simp] theorem closes_snapshot (before : HistoryEntry) (s : EditorState gs) :
    (closes setup plans before s).snapshot = s.snapshot := by
  rw [closes]
  split_ifs <;> rfl

omit hparse in
@[simp] theorem closes_pending (before : HistoryEntry) (s : EditorState gs) :
    (closes setup plans before s).pending = s.pending := by
  rw [closes]
  split_ifs <;> rfl

omit hparse in
/-- The close of a composition, from what its text was typed as. -/
theorem ended_closes {s s' : EditorState gs} (h : s.Settled setup) {before : HistoryEntry}
    (hbefore : before ∈ s.composition)
    (hshown : s'.snapshot.Proper setup s.forceSourceMode s'.pending)
    (hhistory : s'.history.breakCoalescing = s.history.breakCoalescing)
    (hcell : s'.cellOrigin = none) (hforced : s'.forceSourceMode = s.forceSourceMode)
    (hrevision : s'.revision = s.revision) : s.Ended setup (closes setup plans before s') := by
  have hentries : s'.history.Proper gs setup := h.entries.of_breakCoalescing hhistory
  rw [closes]
  split_ifs with hsource
  · refine ⟨hshown, (hentries.recordState (h.composition before hbefore)).breakCoalescing, ?_, rfl,
      hcell, hforced, hrevision⟩
    intro b hb
    obtain rfl := Option.some_inj.1 (hb.symm.trans hbefore)
    exact ⟨s'.history, hhistory, fun heq => absurd heq hsource, fun _ => ⟨_, rfl⟩⟩
  · refine ⟨hshown, hentries.breakCoalescing, ?_, rfl, hcell, hforced, hrevision⟩
    intro b hb
    obtain rfl := Option.some_inj.1 (hb.symm.trans hbefore)
    exact ⟨s'.history, hhistory, fun _ => rfl, fun hne => absurd hne hsource⟩

/-- A composition ends, or is left open where its text cannot be typed again. -/
theorem Settled.endComposition {s : EditorState gs} (h : s.Settled setup)
    {before : HistoryEntry} (hbefore : before ∈ s.composition) (retype : Bool) :
    (∃ changed s', endComposition setup plans retype s = (.ok changed, s') ∧ s.Ended setup s' ∧
      (changed = false → s'.snapshot = s.snapshot ∧ s'.pending = s.pending)) ∨
    ∃ failure s', endComposition setup plans retype s = (.error failure, s') ∧ s.Unedited s' ∧
      retype = true := by
  have hopen : s.composing = true := composing_of_some hbefore
  rw [EditorState.endComposition, hbefore]
  dsimp only
  cases retype with
  | false =>
    exact Or.inl ⟨false, _, rfl,
      ended_closes plans h hbefore h.shown rfl h.cellOrigin rfl rfl,
      fun _ => ⟨closes_snapshot plans before s, closes_pending plans before s⟩⟩
  | true =>
    rw [if_pos rfl]
    have hretyped := h.retypeComposition hparse plans hbefore
    generalize EditorState.retypeComposition setup plans before s = x at hretyped ⊢
    cases hretyped with
    | edited hs =>
      exact Or.inl ⟨true, _, rfl, ended_closes plans h hbefore hs.shown (hs.composing hopen)
        (hs.cellOrigin.trans h.cellOrigin) hs.forced hs.revision, (fun h => by cases h)⟩
    | @left r s' hne hs =>
      rcases r with failure | changed
      · exact Or.inr ⟨failure, s', rfl, hs, rfl⟩
      cases changed with
      | true => exact absurd rfl hne
      | false =>
        have hshown := (h.unedited hs).shown
        rw [hs.forced] at hshown
        exact Or.inl ⟨false, _, rfl, ended_closes plans h hbefore hshown hs.history
          (hs.cellOrigin.trans h.cellOrigin) hs.forced hs.revision,
          fun _ => ⟨(closes_snapshot plans before s').trans hs.snapshot,
            (closes_pending plans before s').trans hs.pending⟩⟩

end

end EditorState

end Flark
