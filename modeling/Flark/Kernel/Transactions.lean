import Flark.Kernel.Composing

/-!
# Transactions

What the calls of an editor come to, and any number of them. A call that is not applied leaves what
is edited as it was, though it tried it; each change of what is shown is published by a revision of
its own; and a composition is one transaction.

* `EditorState.Stepped`: what every call keeps;
* `EditorState.Acts`: what a call that may be refused comes to;
* `EditorState.Settled.step`, `EditorState.Settled.run`: the calls, and any number of them.
-/

namespace Flark

namespace EditorState

variable {gs : Graphemes} {setup : EditorSetup}

/-! ## Calls -/

/-- What every call keeps, but one that begins a composition. -/
structure Stepped (setup : EditorSetup) (s s' : EditorState gs) : Prop where
  settled : s'.Settled setup
  le : s.revision ≤ s'.revision
  published : s'.revision = s.revision → s'.snapshot = s.snapshot ∧ s'.pending = s.pending
  closed : s.composition = none → s'.composition = none
  /-- A composition that is still open is the one that was begun, and takes no step of history. -/
  stillOpen : ∀ before ∈ s.composition, s'.composing = true → s'.composition = some before ∧
    s'.history.breakCoalescing = s.history.breakCoalescing ∧ s'.forceSourceMode = s.forceSourceMode

/-- A settled editor steps to itself. -/
theorem Settled.stepped {s : EditorState gs} (h : s.Settled setup) : s.Stepped setup s :=
  ⟨h, le_rfl, fun _ => ⟨rfl, rfl⟩, id, fun _ hbefore _ => ⟨hbefore, rfl, rfl⟩⟩

/-- A step and then another make a step. -/
theorem Stepped.trans {s s' s'' : EditorState gs} (h : s.Stepped setup s')
    (h' : s'.Stepped setup s'') : s.Stepped setup s'' := by
  refine ⟨h'.settled, h.le.trans h'.le, fun heq => ?_, fun hclosed => h'.closed (h.closed hclosed),
    fun before hbefore hopen => ?_⟩
  · have hle := h.le
    have hle' := h'.le
    obtain ⟨hsnapshot, hpending⟩ := h.published (by omega)
    obtain ⟨hsnapshot', hpending'⟩ := h'.published (by omega)
    exact ⟨hsnapshot'.trans hsnapshot, hpending'.trans hpending⟩
  · -- It was open in between: what is closed stays closed.
    have hbetween : s'.composing = true := by
      rw [Editor.composing, Option.isSome_iff_ne_none]
      intro hclosed
      rw [Editor.composing, h'.closed hclosed] at hopen
      cases hopen
    obtain ⟨hsame, hhistory, hforced⟩ := h.stillOpen before hbefore hbetween
    obtain ⟨hsame', hhistory', hforced'⟩ := h'.stillOpen before hsame hopen
    exact ⟨hsame', hhistory'.trans hhistory, hforced'.trans hforced⟩

/-- What edits nothing is a step. -/
theorem Settled.stepped_unedited {s s' : EditorState gs} (h : s.Settled setup)
    (hs : s.Unedited s') : s.Stepped setup s' :=
  ⟨h.unedited hs, hs.revision.ge, fun _ => ⟨hs.snapshot, hs.pending⟩,
    fun hclosed => hs.composition.trans hclosed,
    fun _ hbefore _ => ⟨hs.composition.trans hbefore, hs.history, hs.forced⟩⟩

/-- An edit is a step, once it is notified. -/
theorem Settled.stepped_edited {s s' : EditorState gs} (h : s.Settled setup)
    (hs : s.Edited setup s') : s.Stepped setup (notified s') := by
  have hsettled := h.edited hs
  refine ⟨⟨hsettled.shown, hsettled.entries, hsettled.composition, hsettled.cellOrigin⟩, ?_,
    fun heq => ?_, fun hclosed => hs.composition.trans hclosed, fun before hbefore _ => ?_⟩
  · exact hs.revision.ge.trans (Nat.le_succ _)
  · exact absurd (heq.trans hs.revision.symm) (Nat.succ_ne_self _)
  · refine ⟨hs.composition.trans hbefore, hs.composing ?_, hs.forced⟩
    rw [Editor.composing, hbefore]
    rfl

/-- A composition that ends with its text as it was composed is a step. -/
theorem Ended.stepped {s s' : EditorState gs} (h : s.Ended setup s')
    (hsame : s'.snapshot = s.snapshot ∧ s'.pending = s.pending) : s.Stepped setup s' := by
  refine ⟨h.settled, h.revision.ge, fun _ => hsame, fun _ => h.composition, fun before _ hopen => ?_⟩
  rw [Editor.composing, h.composition] at hopen
  cases hopen

/-- A composition that ends is a step, once it is notified. -/
theorem Ended.stepped_notified {s s' : EditorState gs} (h : s.Ended setup s') :
    s.Stepped setup (notified s') := by
  have hsettled := h.settled
  refine ⟨⟨hsettled.shown, hsettled.entries, hsettled.composition, hsettled.cellOrigin⟩,
    h.revision.ge.trans (Nat.le_succ _), fun heq => ?_, fun _ => h.composition,
    fun before _ hopen => ?_⟩
  · exact absurd (heq.trans h.revision.symm) (Nat.succ_ne_self _)
  · rw [Editor.composing, notified, h.composition] at hopen
    cases hopen

/-- An edit at the end of a composition is a step, once it is notified. -/
theorem Ended.stepped_edited {s s' s'' : EditorState gs} (h : s.Ended setup s')
    (hs : s'.Edited setup s'') : s.Stepped setup (notified s'') := by
  have hstepped := h.settled.stepped_edited hs
  refine ⟨hstepped.settled, h.revision.ge.trans hstepped.le, fun heq => ?_,
    fun _ => hstepped.closed h.composition, fun before _ hopen => ?_⟩
  · exact absurd (heq.trans (hs.revision.trans h.revision).symm) (Nat.succ_ne_self _)
  · rw [Editor.composing, hstepped.closed h.composition] at hopen
    cases hopen

/-- A call that may be refused. -/
structure Acts (setup : EditorSetup) (s : EditorState gs)
    (r : Except EditorFailure Bool × EditorState gs) : Prop where
  stepped : s.Stepped setup r.2
  refused : r.1 ≠ .ok true → s.Unedited r.2

/-- What edits nothing acts as a call may. -/
theorem Settled.acts_unedited {s s' : EditorState gs} (h : s.Settled setup) (hs : s.Unedited s')
    (r : Except EditorFailure Bool) : Acts setup s (r, s') := ⟨h.stepped_unedited hs, fun _ => hs⟩

/-- What acts after something that edits nothing acts. -/
theorem Acts.of_unedited {s s' : EditorState gs} {r : Except EditorFailure Bool × EditorState gs}
    (h : s.Settled setup) (hs : s.Unedited s') (hr : Acts setup s' r) : Acts setup s r :=
  ⟨(h.stepped_unedited hs).trans hr.stepped, fun hne => hs.trans (hr.refused hne)⟩

/-- A call that edits publishes what it edited. -/
inductive Answered (setup : EditorSetup) (s : EditorState gs) :
    Except EditorFailure Bool × EditorState gs → Prop
  | edited {s' : EditorState gs} : s.Edited setup s' → Answered setup s (.ok true, notified s')
  | left {r : Except EditorFailure Bool} {s' : EditorState gs} : r ≠ .ok true → s.Unedited s' →
      Answered setup s (r, s')

/-- A command that is answered acts as a call may. -/
theorem Answered.acts {s : EditorState gs} {r : Except EditorFailure Bool × EditorState gs}
    (h : s.Settled setup) (hr : Answered setup s r) : Acts setup s r := by
  cases hr with
  | edited hs => exact ⟨h.stepped_edited hs, fun hne => absurd rfl hne⟩
  | left _ hs => exact h.acts_unedited hs _

theorem Answered.of_unedited {s s' : EditorState gs}
    {r : Except EditorFailure Bool × EditorState gs} (hs : s.Unedited s')
    (hr : Answered setup s' r) : Answered setup s r := by
  cases hr with
  | edited hs' => exact .edited (.of_unedited hs hs')
  | left hne hs' => exact .left hne (hs.trans hs')

section

variable (hparse : ∀ text m, setup.parse text = .ok m → m.SchemaConforms text)
  (plans : EditorPlans gs)

include hparse

/-! ## Commands -/

/-- A command in its mode edits, or leaves things as they were. -/
theorem Settled.applyIn {s : EditorState gs} (h : s.Settled setup) {c : FlarkCommand}
    (hhistory : c = .undo ∨ c = .redo → s.composing = false) :
    Edits setup s (applyIn setup plans c s) := by
  rw [EditorState.applyIn.eq_def]
  cases hs : s.snapshot with
  | source t => exact h.applySource hparse hs hhistory
  | live d =>
    have hcell := h.withMissingCell hparse plans hs hhistory
    cases c with
    | insertText text =>
      dsimp only
      split_ifs
      · exact h.compose hparse plans hs _ _ _
      · exact hcell
    | replaceRange start stop text =>
      dsimp only
      split_ifs
      · exact h.compose hparse plans hs _ _ _
      · exact hcell
    | _ => exact hcell

omit hparse in
/-- A command that was not applied gives its reason, if it has one. -/
theorem answers_false (c : FlarkCommand) (s : EditorState gs) :
    ∃ s', answers c false s = (.ok false, s') ∧ s.Unedited s' := by
  rw [answers, if_neg Bool.false_ne_true]
  split_ifs
  · exact ⟨s, rfl, .refl s⟩
  · exact ⟨_, rfl, rfl, rfl, rfl, rfl, rfl, rfl, rfl, rfl⟩

/-- A command is answered with what it changed. -/
theorem Settled.applies {s : EditorState gs} (h : s.Settled setup) {c : FlarkCommand} (at_ : Int)
    (hhistory : c = .undo ∨ c = .redo → s.composing = false) :
    Answered setup s (applies setup plans c at_ s) := by
  have hs : s.Unedited { s with
      selectedCodeScope := if c = .selectAll then s.selectedCodeScope else false, now := at_ } :=
    ⟨rfl, rfl, rfl, rfl, rfl, rfl, rfl, rfl⟩
  have hedits := Edits.of_unedited hs ((h.unedited hs).applyIn hparse plans hhistory)
  rw [EditorState.applies, Program.bind_apply]
  generalize EditorState.applyIn setup plans c _ = x at hedits ⊢
  cases hedits with
  | edited hs' => exact .edited hs'
  | @left r s' hne hs' =>
    match r with
    | .error failure => exact .left nofun hs'
    | .ok false =>
      obtain ⟨s'', heq, hs''⟩ := answers_false c s'
      dsimp only
      rw [heq]
      exact .left nofun (hs'.trans hs'')
    | .ok true => exact absurd rfl hne

/-- The commit of a composition publishes what it changes; where it throws, it leaves it open. -/
theorem Settled.commitComposition {s : EditorState gs} (h : s.Settled setup) :
    (∃ s', commitComposition setup plans s = (.ok (), s') ∧ s.Stepped setup s' ∧
      s'.composition = none ∧ s'.forceSourceMode = s.forceSourceMode) ∨
    ∃ failure s', commitComposition setup plans s = (.error failure, s') ∧ s.Unedited s' := by
  rw [EditorState.commitComposition]
  cases hcomposition : s.composition with
  | none =>
    rw [endComposition_none plans hcomposition]
    exact Or.inl ⟨s, rfl, h.stepped, hcomposition, rfl⟩
  | some before =>
    rcases h.endComposition hparse plans hcomposition true with
      ⟨changed, s', heq, hs, hsame⟩ | ⟨failure, s', heq, hs, -⟩
    · rw [heq]
      refine Or.inl ⟨_, rfl, ?_⟩
      cases changed with
      | false => exact ⟨hs.stepped (hsame rfl), hs.composition, hs.forced⟩
      | true => exact ⟨hs.stepped_notified, hs.composition, hs.forced⟩
    · rw [heq]
      exact Or.inr ⟨failure, s', rfl, hs⟩

/-- A command that is not stale is answered, Undo where no composition is open. -/
theorem Settled.applyFresh {s : EditorState gs} (h : s.Settled setup) {c : FlarkCommand} (at_ : Int)
    (hundo : s.composing = true → c ≠ .undo) :
    Answered setup s (applyFresh setup plans c at_ s) := by
  rw [EditorState.applyFresh]
  split_ifs with hredo hcomposing
  · exact .left nofun ⟨rfl, rfl, rfl, rfl, rfl, rfl, rfl, rfl⟩
  · rw [Bool.and_eq_true, beq_iff_eq] at hcomposing
    exact absurd hcomposing.2 (hundo hcomposing.1)
  · refine h.applies hparse plans at_ fun hc => Bool.eq_false_of_not_eq_true fun hopen => ?_
    rcases hc with rfl | rfl
    · exact hundo hopen rfl
    · rw [hopen] at hredo
      exact hredo rfl

omit hparse in
/-- Undo during a composition commits it first. -/
theorem applyFresh_undo {s : EditorState gs} (hopen : s.composing = true) (at_ : Int) :
    EditorState.applyFresh setup plans .undo at_ s =
      (EditorState.commitComposition setup plans >>= fun _ =>
        EditorState.applies setup plans .undo at_) s := by
  rw [EditorState.applyFresh, hopen]
  rfl

/-- Undo during a composition commits it first, and what it takes back is what was committed. -/
theorem Settled.applyFresh_committed {s : EditorState gs} (h : s.Settled setup) (c : FlarkCommand)
    (at_ : Int) :
    s.Stepped setup (EditorState.applyFresh setup plans c at_ s).2 ∧
      ((EditorState.applyFresh setup plans c at_ s).1 ≠ .ok true →
        s.Unedited (EditorState.applyFresh setup plans c at_ s).2 ∨ (c = .undo ∧ ∃ s',
          EditorState.commitComposition setup plans s = (.ok (), s') ∧
          s'.Unedited (EditorState.applyFresh setup plans c at_ s).2)) := by
  by_cases hundo : s.composing = true ∧ c = .undo
  · obtain ⟨hopen, rfl⟩ := hundo
    rw [applyFresh_undo plans hopen]
    rcases h.commitComposition hparse plans with ⟨s', heq, hs, hclosed, -⟩ | ⟨failure, s', heq, hs⟩
    · have hcomposing : s'.composing = false := composing_of_none hclosed
      have hacts := (hs.settled.applies hparse plans (c := .undo) at_ fun _ => hcomposing).acts
        hs.settled
      rw [Program.bind_ok heq]
      exact ⟨hs.trans hacts.stepped, fun hne => Or.inr ⟨rfl, s', heq, hacts.refused hne⟩⟩
    · rw [Program.bind_error heq]
      exact ⟨h.stepped_unedited hs, fun _ => Or.inl hs⟩
  · have hacts := (h.applyFresh hparse plans at_ fun hopen hc => hundo ⟨hopen, hc⟩).acts h
    exact ⟨hacts.stepped, fun hne => Or.inl (hacts.refused hne)⟩

omit hparse in
theorem unedited_enter (s : EditorState gs) (expected : Option Nat) :
    s.Unedited (enter expected s).2 := ⟨rfl, rfl, rfl, rfl, rfl, rfl, rfl, rfl⟩

omit hparse in
/-- A stale call does nothing, and another one what it does. -/
theorem ifFresh_cases (expected : Option Nat) (m : EditorProgram gs Bool) (s : EditorState gs) :
    ∃ s', s.Unedited s' ∧
      (ifFresh expected m s = m s' ∨ ifFresh expected m s = (.ok false, s')) := by
  refine ⟨(enter expected s).2, unedited_enter s expected, ?_⟩
  rw [ifFresh, Program.bind_apply, enter]
  dsimp only
  cases expected.all fun revision => revision == s.revision with
  | true => exact Or.inl rfl
  | false => exact Or.inr rfl

omit hparse in
/-- A call that may be stale acts if it acts when it is not. -/
theorem Settled.ifFresh {s : EditorState gs} (h : s.Settled setup) (expected : Option Nat)
    {m : EditorProgram gs Bool} (hm : ∀ s', s.Unedited s' → s'.Settled setup → Acts setup s' (m s')) :
    Acts setup s (ifFresh expected m s) := by
  obtain ⟨s', hs, heq | heq⟩ := ifFresh_cases expected m s
  · rw [heq]
    exact .of_unedited h hs (hm s' hs (h.unedited hs))
  · rw [heq]
    exact h.acts_unedited hs _

/-- A command is answered, stale or not. -/
theorem Settled.applyCommand {s : EditorState gs} (h : s.Settled setup) {c : FlarkCommand}
    (at_ : Int) (expected : Option Nat) (hundo : s.composing = true → c ≠ .undo) :
    Answered setup s (applyCommand setup plans c at_ expected s) := by
  rw [EditorState.applyCommand]
  obtain ⟨s', hs, heq | heq⟩ := ifFresh_cases expected (EditorState.applyFresh setup plans c at_) s
  · rw [heq]
    refine .of_unedited hs ((h.unedited hs).applyFresh hparse plans at_ fun hopen => hundo ?_)
    rw [Editor.composing, ← hs.composition]
    exact hopen
  · rw [heq]
    exact .left (fun h => by cases h) hs

/-! ## After a composition -/

/-- A command that is built from the state is answered. -/
theorem Settled.applyBuilt {s : EditorState gs} (h : s.Settled setup)
    {build : EditorProgram gs FlarkCommand} (hbuild : ∀ s, (build s).2 = s) (at_ : Int)
    (hclosed : s.composing = false) :
    Answered setup s ((build >>= fun c => EditorState.applyCommand setup plans c at_ none) s) := by
  have hleft : build s = ((build s).1, s) := Prod.ext rfl (hbuild s)
  cases hbuilt : (build s).1 with
  | error failure =>
    rw [hbuilt] at hleft
    rw [Program.bind_error hleft]
    exact .left nofun (.refl s)
  | ok c =>
    rw [hbuilt] at hleft
    rw [Program.bind_ok hleft]
    refine h.applyCommand hparse plans at_ none fun hopen => ?_
    rw [hclosed] at hopen
    cases hopen

/-- A command after a composition: where it is refused, the composition is left open. -/
theorem Settled.applyAfterEnding {s : EditorState gs} (h : s.Settled setup)
    {build : EditorProgram gs FlarkCommand} (hbuild : ∀ s, (build s).2 = s) (at_ : Int) :
    Acts setup s (applyAfterEnding setup plans build at_ s) := by
  rw [EditorState.applyAfterEnding]
  cases hcomposition : s.composition with
  | none =>
    have hclosed : s.composing = false := composing_of_none hcomposition
    rw [hclosed]
    exact (h.applyBuilt hparse plans hbuild at_ hclosed).acts h
  | some before =>
    have hopen : s.composing = true := composing_of_some hcomposition
    rw [hopen]
    rcases h.endComposition hparse plans hcomposition true with
      ⟨changed, ended, heq, hs, -⟩ | ⟨failure, s', heq, hs, -⟩
    · -- The command is applied to what the composition ended as, and refused puts that back.
      have hclosed : ended.composing = false := composing_of_none hs.composition
      have happlied := hs.settled.applyBuilt hparse plans hbuild at_ hclosed
      rw [heq]
      dsimp only
      generalize (build >>= fun c => EditorState.applyCommand setup plans c at_ none) ended = x
        at happlied ⊢
      cases happlied with
      | @edited s' hs' =>
        refine ⟨(hs.stepped_edited hs').trans ?_, fun hne => absurd rfl hne⟩
        exact (hs.stepped_edited hs').settled.stepped_unedited
          ⟨rfl, rfl, rfl, rfl, rfl, rfl, rfl, rfl⟩
      | @left r s' hne hs' =>
        have haside : s.Unedited (s'.withEditState s) :=
          .aside (hs'.forced.trans hs.forced) (hs'.revision.trans hs.revision)
        rcases r with failure | applied
        · dsimp only
          rw [if_pos hs'.revision]
          exact h.acts_unedited haside _
        · cases applied with
          | true => exact absurd rfl hne
          | false => exact h.acts_unedited haside _
    · rw [heq]
      exact h.acts_unedited hs _

/-! ## Whole sources -/

/-- A source is admitted with a snapshot of it, or nothing happens. -/
theorem admitSource_cases (s : EditorState gs) (text : Text) (selected : Selection) :
    (∃ next : EditorSnapshot gs, admitSource setup text selected s = (.ok (some next), s) ∧
      next.Proper setup s.forceSourceMode none) ∨
    (∃ s', admitSource setup text selected s = (.ok none, s') ∧ s.Unedited s') ∨
    ∃ failure, admitSource setup text selected s = (.error failure, s) := by
  rw [admitSource]
  cases hadmits : Editor.admits setup text with
  | error reason => exact Or.inr (Or.inl ⟨_, rfl, rfl, rfl, rfl, rfl, rfl, rfl, rfl, rfl⟩)
  | ok live =>
    obtain ⟨hadmitted, hlive⟩ := Editor.admits_ok hadmits
    have hfrom : ProjectedFrom gs setup text none (some live) none :=
      ⟨nofun, fun l hl => by rw [← Option.some_inj.1 hl, hlive], nofun⟩
    dsimp only
    cases hnext : projectSnapshot gs setup text selected s.forceSourceMode (!s.sourceMode) none
        (some live) none with
    | ok next =>
      obtain ⟨heq, hsound⟩ := sound_of_projectSnapshot hparse hfrom hnext
      exact Or.inl ⟨next, rfl, hsound, by rw [heq, hadmitted], nofun⟩
    | error failure =>
      cases failure with
      | extractionDeviation => exact Or.inr (Or.inl ⟨_, rfl, rfl, rfl, rfl, rfl, rfl, rfl, rfl, rfl⟩)
      | other => exact Or.inr (Or.inr ⟨_, rfl⟩)

omit hparse in
/-- A splice is a step of history, from the source that the composition ended with. -/
theorem Settled.spliced {s : EditorState gs} (h : s.Settled setup) (hclosed : s.composing = false)
    {next : EditorSnapshot gs} (hnext : next.Proper setup s.forceSourceMode none) :
    s.Edited setup (spliced setup plans next s) := by
  refine ⟨hnext, h.entries.recordState h.held, fun hopen => ?_, rfl, h.cellOrigin.symm, rfl, rfl⟩
  rw [hclosed] at hopen
  cases hopen

/-- A splice steps: the composition ends, and the source is replaced. -/
theorem Settled.splices {s : EditorState gs} (h : s.Settled setup) {next : EditorSnapshot gs}
    (hnext : next.Proper setup s.forceSourceMode none) :
    Acts setup s (splices setup plans next s) := by
  cases hcomposition : s.composition with
  | none =>
    have hclosed : s.composing = false := composing_of_none hcomposition
    rw [EditorState.splices, Program.bind_ok (endComposition_none plans hcomposition false)]
    exact ⟨h.stepped_edited (h.spliced plans hclosed hnext), fun hne => absurd rfl hne⟩
  | some before =>
    rcases h.endComposition hparse plans hcomposition false with
      ⟨changed, s', heq, hs, -⟩ | ⟨failure, s', heq, hs, hretype⟩
    · have hclosed : s'.composing = false := composing_of_none hs.composition
      rw [EditorState.splices, Program.bind_ok heq]
      rw [← hs.forced] at hnext
      exact ⟨hs.stepped_edited (hs.settled.spliced plans hclosed hnext), fun hne => absurd rfl hne⟩
    · -- Only what is typed again can throw, and a splice types nothing again.
      cases hretype

omit hparse in
/-- A selection in either mode selects, and no more. -/
theorem Settled.selectsIn {s : EditorState gs} (h : s.Settled setup) (selected : Selection) :
    Edits setup s (selectsIn selected s) := by
  rw [EditorState.selectsIn]
  cases hs : s.snapshot with
  | source t => exact h.selectSource hs selected
  | live d => exact h.select hs selected

/-- A splice of the source acts: refused, the same source or a new one. -/
theorem Settled.replaceSourceRange {s : EditorState gs} (h : s.Settled setup) (start stop : Int)
    (text : Text) (replaceAll : Bool) :
    Acts setup s (replaceSourceRange setup plans start stop text replaceAll s) := by
  rw [EditorState.replaceSourceRange]
  dsimp only
  split
  · refine h.acts_unedited ?_ _
    exact ⟨rfl, rfl, rfl, rfl, rfl, rfl, rfl, rfl⟩
  · split
    · -- The source stays as it is, and the selection may move.
      generalize splicedSelection s.selection start stop text _ = selected
      have hmoved := h.selectsIn selected
      generalize EditorState.selectsIn selected s = x at hmoved ⊢
      cases hmoved with
      | edited hs => exact ⟨h.stepped_edited hs, fun hne => absurd rfl hne⟩
      | @left r s' hne hs =>
        match r with
        | .ok true => exact absurd rfl hne
        | .ok false => exact h.acts_unedited hs _
        | .error failure => exact h.acts_unedited hs _
    · rcases admitSource_cases hparse s _ _ with ⟨next, heq, hnext⟩ | ⟨s', heq, hs⟩ | ⟨failure, heq⟩
      · rw [heq]
        exact h.splices hparse plans hnext
      · rw [heq]
        exact h.acts_unedited hs _
      · rw [heq]
        exact h.acts_unedited (.refl s) _

/-- A text that is loaded acts, with history cleared. -/
theorem Settled.loadMarkdown {s : EditorState gs} (h : s.Settled setup) (text : Text) :
    Acts setup s (loadMarkdown setup text s) := by
  rw [EditorState.loadMarkdown]
  rcases admitSource_cases hparse s text (.collapsed 0) with ⟨next, heq, hnext⟩ | ⟨s', heq, hs⟩ |
    ⟨failure, heq⟩
  · rw [heq]
    refine ⟨⟨⟨hnext, h.entries.clear, nofun, rfl⟩, Nat.le_succ _, fun hsame => ?_, fun _ => rfl,
      fun _ _ hopen => ?_⟩, fun hne => absurd rfl hne⟩
    · exact absurd hsame (Nat.succ_ne_self _)
    · cases hopen
  · rw [heq]
    exact h.acts_unedited hs _
  · rw [heq]
    exact h.acts_unedited (.refl s) _

/-- Selecting all acts, in a code block or in the source. -/
theorem Settled.selectAllIn {s : EditorState gs} (h : s.Settled setup) (codeBlock : Bool) :
    Acts setup s (selectAllIn setup plans codeBlock s) := by
  have hending : ∀ build : EditorProgram gs FlarkCommand, (∀ s, (build s).2 = s) →
      Acts setup s ((now_ plans >>= EditorState.applyAfterEnding setup plans build) s) := by
    intro build hbuild
    have hs : s.Unedited { s with readings := s.readings + 1 } :=
      ⟨rfl, rfl, rfl, rfl, rfl, rfl, rfl, rfl⟩
    exact .of_unedited h hs ((h.unedited hs).applyAfterEnding hparse plans hbuild _)
  have hrefused : Acts setup s (.ok false, { s with lastRejection := some .unsupportedEdit }) := by
    refine h.acts_unedited ?_ _
    exact ⟨rfl, rfl, rfl, rfl, rfl, rfl, rfl, rfl⟩
  rw [EditorState.selectAllIn]
  split_ifs
  · split
    · exact hrefused
    · split
      · exact h.acts_unedited (.refl s) _
      · split_ifs
        · refine hending selectsCode fun s => ?_
          rw [selectsCode]
          split <;> rfl
        · exact hrefused
  · exact hending selectsWhole fun _ => rfl

/-! ## Compositions and modes -/

omit hparse in
/-- What is edited stays as it is when a composition begins. -/
theorem Settled.beginComposition {s : EditorState gs} (h : s.Settled setup) :
    (beginComposition s).2.Settled setup := by
  rw [EditorState.beginComposition, Program.modify_apply]
  dsimp only
  split_ifs
  · exact h
  · refine ⟨h.shown, h.entries, fun e he => ?_, h.cellOrigin⟩
    rw [← Option.some_inj.1 he]
    exact h.held

/-- What the cancelling of a composition goes back to is what it began in: it never throws. -/
theorem Settled.cancelComposition {s : EditorState gs} (h : s.Settled setup) :
    ∃ s', cancelComposition setup s = (.ok (), s') ∧ s.Stepped setup s' := by
  rw [EditorState.cancelComposition]
  cases hcomposition : s.composition with
  | none => exact ⟨s, rfl, h.stepped⟩
  | some before =>
    obtain ⟨snapshot, hproper, htext, hselection⟩ := h.composition before hcomposition
    obtain ⟨next, hnext, hshown, -⟩ := h.restore hparse hproper htext hselection
    dsimp only
    rw [hnext]
    refine ⟨_, rfl, ⟨hshown, h.entries, nofun, h.cellOrigin⟩, Nat.le_succ _, fun hsame => ?_,
      fun _ => rfl, fun _ _ hopen => ?_⟩
    · exact absurd hsame (Nat.succ_ne_self _)
    · cases hopen

/-- The change of the mode, with no composition open: where it throws, the mode is as it was. -/
theorem Settled.showsSource {s : EditorState gs} (h : s.Settled setup) (hclosed : s.composition = none)
    (enabled : Bool) :
    s.Stepped setup (showsSource setup enabled s).2 ∧
      ∀ failure, (EditorState.showsSource setup enabled s).1 = .error failure →
        s.Unedited (EditorState.showsSource setup enabled s).2 := by
  have hscope : s.Unedited { s with selectedCodeScope := false } :=
    ⟨rfl, rfl, rfl, rfl, rfl, rfl, rfl, rfl⟩
  rw [EditorState.showsSource]
  dsimp only
  split
  · exact ⟨h.stepped_unedited hscope, fun _ _ => hscope⟩
  · next next hnext =>
    obtain ⟨heq, hsound⟩ :=
      sound_of_projectSnapshot hparse (.plain gs setup _ h.shown.sound.live) hnext
    have hcomposition : ∀ e ∈ s.composition, e.state.Proper gs setup enabled := by
      rw [hclosed]
      exact nofun
    refine ⟨⟨⟨⟨hsound, ?_, nofun⟩, h.entries.breakCoalescing, hcomposition, h.cellOrigin⟩,
      Nat.le_succ _, fun hsame => ?_, fun _ => hclosed, fun before hbefore _ => ?_⟩,
      fun _ hthrown => ?_⟩
    · have hadmitted := h.shown.admitted
      change flarkSourceRefusal next.text setup.sourceLimit = none
      rw [heq]
      exact hadmitted
    · exact absurd hsame (Nat.succ_ne_self _)
    · rw [hclosed] at hbefore
      cases hbefore
    · cases hthrown

end

end EditorState

end Flark
