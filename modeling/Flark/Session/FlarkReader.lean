import Flark.Session.FlarkSession

/-!
# Readers

`FlarkReader`: it loads a parser and shows one document with it, which its host may replace at
any time. The model is a machine of the same kind as that of a session.

* `FlarkReader.run_kept`: what holds of leases, futures and the document after any run;
* `session_and_reader_kept`: what sessions and readers own is disposed once, and what a session
  edits is published once.
-/

namespace Flark

namespace FlarkReader

/-- The code behind a call of `_notify`. -/
inductive After
  | opens (attempt : Nat)
  | fails (attempt : Nat)
  | done
  deriving DecidableEq, Repr

inductive Frame
  /-- `notifyEach(_listeners)`. -/
  | notifying (after : After)
  /-- The loader, called for an attempt. -/
  | loader (attempt : Nat)
  /-- The rest of `retry`, which notifies once `_start` returns. -/
  | retrying
  deriving DecidableEq, Repr

/-- The attempt that goes on to await its loader. -/
def Frame.awaits : Frame → Option Nat
  | loader a => some a
  | _ => none

end FlarkReader

structure FlarkReader extends Holder where
  /-- `_markdown`. -/
  markdown : Text
  /-- `_document`, with its text. -/
  document : Option Text := none
  stack : List FlarkReader.Frame := []
  deriving DecidableEq, Repr

namespace FlarkReader

variable (s : FlarkReader)

/-- `_notify`, up to the listeners. -/
def notify (after : After) : FlarkReader := { s with stack := .notifying after :: s.stack }

/-- `_start`, up to the loader. -/
def start : FlarkReader := { s with
  toHolder := { s.begin .loading with awaiting := s.awaiting ++ [s.attempts.length] }
  stack := .loader s.attempts.length :: s.stack }

/-- The `catch` of an attempt, with the lease that it was given. -/
def attemptFails (a : Nat) (lease : Option Nat) : FlarkReader :=
  let s := if s.lease = lease then { s with lease := none } else s
  let s := { s with toHolder := s.release lease .failed }
  if s.status ≠ .disposed then notify { s with status := .failed } (.fails a)
  else { s with toHolder := s.complete a }

/-- The rest of an attempt, once its loader has answered. -/
def loadEnds (a : Nat) (outcome : FlarkSession.Outcome) : FlarkReader :=
  let s := { s with awaiting := s.awaiting.erase a }
  match outcome with
  | .fails => s.attemptFails a none
  | .gives opens =>
    let lease := s.leases.length
    let s := { s with leases := s.leases ++ [[]] }
    if s.status = .disposed then
      { s with toHolder := (s.release (some lease) .onArrival).complete a }
    else
      let s := { s with lease := some lease }
      if opens then notify { s with document := some s.markdown, status := .ready } (.opens a)
      else s.attemptFails a (some lease)

/-! ## The calls -/

inductive Call
  /-- `update`, and whether the document throws. -/
  | update (markdown : Text) (throws : Bool)
  /-- `select`, and whether the document's selection changed. -/
  | select (moved : Bool)
  | retry
  | dispose
  deriving DecidableEq, Repr

def update (markdown : Text) (throws : Bool) : FlarkReader :=
  if s.status = .disposed ∨ markdown = s.markdown then s
  else
    let s := { s with markdown := markdown }
    let s :=
      if s.status = .ready then
        if throws then { s with status := .failed } else { s with document := some markdown }
      else s
    notify s .done

def select (moved : Bool) : FlarkReader :=
  if s.status = .ready ∧ moved = true then notify s .done else s

def retry : FlarkReader :=
  if s.status = .failed then
    start { s with toHolder := s.drop .failed, document := none, stack := .retrying :: s.stack }
  else s

def dispose : FlarkReader :=
  if s.status = .disposed then s
  else
    let s := { s with status := .disposed }
    let s := { s with toHolder := s.abandon, document := none }
    { s with toHolder := s.drop .disposed }

def call : Call → FlarkReader
  | .update markdown throws => s.update markdown throws
  | .select moved => s.select moved
  | .retry => s.retry
  | .dispose => s.dispose

/-! ## Events -/

inductive Event
  | call (c : Call)
  | returns
  | loaderThrows
  | loadEnds (attempt : Nat) (outcome : FlarkSession.Outcome)
  deriving DecidableEq, Repr

/-- Once `_start` returns to it, `retry` notifies. -/
def unwind : FlarkReader :=
  match s.stack with
  | .retrying :: rest => { s with stack := .notifying .done :: rest }
  | _ => s

/-- The code behind a notification. -/
def resume : After → FlarkReader
  | .opens a | .fails a => { s with toHolder := s.complete a }
  | .done => s

def step : Event → Option FlarkReader
  | .call c => some (s.call c)
  | .returns =>
    match s.stack with
    | .notifying after :: rest => some (unwind (resume { s with stack := rest } after))
    | .loader _ :: rest => some (unwind { s with stack := rest })
    | _ => none
  | .loaderThrows =>
    match s.stack with
    | .loader a :: rest =>
      some (unwind (attemptFails { s with stack := rest, awaiting := s.awaiting.erase a } a none))
    | _ => none
  | .loadEnds a outcome =>
    if s.stack = [] ∧ a ∈ s.awaiting then some (s.loadEnds a outcome) else none

/-- The constructor, which starts the first attempt. -/
def create (markdown : Text) : FlarkReader := start { markdown := markdown }

/-! ## What every event keeps -/

structure Invariant : Prop where
  owns : s.toHolder.Owns
  awaited : (s.stack.filterMap Frame.awaits).Sublist s.awaiting
  shown : s.status = .ready → s.document = some s.markdown

variable {s}

theorem Invariant.unwind (h : s.Invariant) : s.unwind.Invariant := by
  rw [FlarkReader.unwind]
  split
  · next rest hstack =>
    have hawaited := h.awaited
    rw [hstack] at hawaited
    exact ⟨h.owns, hawaited, h.shown⟩
  · exact h

theorem Invariant.complete (h : s.Invariant) (a : Nat) :
    Invariant { s with toHolder := s.complete a } where
  owns := h.owns.complete a
  awaited := by
    rw [Holder.complete_awaiting]
    exact h.awaited
  shown hready := h.shown (by rwa [Holder.complete_status] at hready)

theorem Invariant.start (h : s.Invariant) (hlease : s.lease = none) (hawaiting : s.awaiting = []) :
    s.start.Invariant where
  owns := h.owns.begin_loading hlease hawaiting
  awaited := by
    have hnone := h.awaited
    rw [hawaiting, List.sublist_nil] at hnone
    change (s.attempts.length :: s.stack.filterMap Frame.awaits).Sublist
      (s.awaiting ++ [s.attempts.length])
    rw [hnone, hawaiting]
    exact List.Sublist.refl _
  shown := nofun

theorem attemptFails_none (hlease : s.lease = none) (a : Nat) : s.attemptFails a none =
    if s.status ≠ .disposed then notify { s with status := .failed } (.fails a)
    else { s with toHolder := s.complete a } := by
  have hsame : (if s.lease = none then { s with lease := none } else s) = s := by
    rw [if_pos hlease, ← hlease]
  rw [attemptFails, hsame]
  rfl

theorem attemptFails_given (hlease : s.lease = none) (a : Nat) :
    attemptFails { s with leases := s.leases ++ [[]], lease := some s.leases.length } a
      (some s.leases.length) =
    attemptFails { s with leases := s.leases ++ [[.failed]] } a none := by
  have hrelease : ({ s.toHolder with leases := s.leases ++ [[]], lease := none } : Holder).release
      (some s.leases.length) .failed = { s.toHolder with leases := s.leases ++ [[.failed]] } := by
    rw [Holder.release, Holder.release_given, ← hlease]
  rw [attemptFails_none (s := { s with leases := s.leases ++ [[.failed]] }) hlease, attemptFails,
    if_pos rfl]
  dsimp only
  rw [hrelease]

/-- The attempt whose load is over fails, with what it was given disposed. -/
theorem Invariant.attemptFails (h : s.Invariant) (hawaiting : s.awaiting = [])
    (hlease : s.lease = none) (a : Nat) : (s.attemptFails a none).Invariant := by
  rw [attemptFails_none hlease]
  split
  · exact ⟨h.owns.fails hawaiting, h.awaited, nofun⟩
  · exact h.complete a

theorem Invariant.loadEnds (h : s.Invariant) (hstack : s.stack = []) {a : Nat} (ha : a ∈ s.awaiting)
    (outcome : FlarkSession.Outcome) : (s.loadEnds a outcome).Invariant := by
  have herase := h.owns.erase_eq_nil ha
  have hlease := h.owns.free (h.owns.awaited a ha).1
  have hquiet : (s.stack.filterMap Frame.awaits).Sublist (s.awaiting.erase a) := by
    rw [hstack]
    exact List.nil_sublist _
  have hanswered : Invariant { s with awaiting := s.awaiting.erase a } :=
    ⟨h.owns.answered a, hquiet, h.shown⟩
  cases outcome with
  | fails => exact hanswered.attemptFails herase hlease a
  | gives opens =>
    simp only [FlarkReader.loadEnds]
    split
    · simp only [Holder.release, Holder.release_given]
      have hgiven : Invariant { s with
          awaiting := s.awaiting.erase a
          leases := s.leases ++ [[.onArrival]] } :=
        ⟨hanswered.owns.released_append (fun h => by cases h), hquiet, h.shown⟩
      exact hgiven.complete a
    · split
      · exact ⟨h.owns.opened hlease ha, hquiet, fun _ => rfl⟩
      · have heq := attemptFails_given (s := { s with awaiting := s.awaiting.erase a }) hlease a
        dsimp only at heq
        rw [heq]
        have hgiven : Invariant { s with
            awaiting := s.awaiting.erase a
            leases := s.leases ++ [[.failed]] } :=
          ⟨hanswered.owns.released_append (fun h => by cases h), hquiet, h.shown⟩
        exact hgiven.attemptFails herase hlease a

theorem Invariant.call (h : s.Invariant) (c : Call) : (s.call c).Invariant := by
  cases c with
  | update markdown throws =>
    rw [FlarkReader.call, update]
    split
    · exact h
    · dsimp only
      split
      · next hready =>
        have hawaiting := h.owns.awaiting_eq_nil (Or.inl hready)
        split
        · exact ⟨h.owns.fails hawaiting, h.awaited, nofun⟩
        · exact ⟨h.owns, h.awaited, fun _ => rfl⟩
      · next hready => exact ⟨h.owns, h.awaited, fun hnow => absurd hnow hready⟩
  | select moved =>
    rw [FlarkReader.call, select]
    split
    · exact ⟨h.owns, h.awaited, h.shown⟩
    · exact h
  | retry =>
    rw [FlarkReader.call, retry]
    split
    · next hfailed =>
      have hawaiting := h.owns.awaiting_eq_nil (Or.inr hfailed)
      have hdropped : Invariant { s with
          toHolder := s.drop .failed
          document := none
          stack := .retrying :: s.stack } := by
        refine ⟨h.owns.drop .failed nofun, ?_, fun hready => ?_⟩
        · rw [Holder.drop_awaiting]
          exact h.awaited
        · rw [Holder.drop_status, hfailed] at hready
          cases hready
      refine hdropped.start rfl ?_
      exact (Holder.drop_awaiting _).trans hawaiting
    · exact h
  | dispose =>
    rw [FlarkReader.call, dispose]
    split
    · exact h
    · dsimp only
      -- What is held goes; that the reader counts as disposed before is no matter.
      rw [Holder.abandon_withStatus, Holder.drop_withStatus]
      have howns := (h.owns.abandon.drop .disposed nofun).disposed rfl
      refine ⟨howns, ?_, nofun⟩
      dsimp only
      rw [Holder.drop_awaiting, Holder.abandon_awaiting]
      exact h.awaited

theorem Invariant.step (h : s.Invariant) {e : Event} {s' : FlarkReader} (hs' : s.step e = some s') :
    s'.Invariant := by
  cases e with
  | call c =>
    cases hs'
    exact h.call c
  | returns =>
    rw [FlarkReader.step] at hs'
    split at hs'
    · next after rest hstack =>
      cases hs'
      have hawaited := h.awaited
      rw [hstack] at hawaited
      have hover : Invariant { s with stack := rest } := ⟨h.owns, hawaited, h.shown⟩
      refine Invariant.unwind ?_
      cases after with
      | opens a | fails a => exact hover.complete a
      | done => exact hover
    · next a rest hstack =>
      cases hs'
      have hawaited := h.awaited
      rw [hstack] at hawaited
      have hover : Invariant { s with stack := rest } :=
        ⟨h.owns, (List.sublist_cons_self a _).trans hawaited, h.shown⟩
      exact hover.unwind
    · cases hs'
  | loaderThrows =>
    rw [FlarkReader.step] at hs'
    split at hs'
    · next a rest hstack =>
      cases hs'
      have hawaited := h.awaited
      rw [hstack] at hawaited
      have hsub : (a :: rest.filterMap Frame.awaits).Sublist s.awaiting := hawaited
      have ha : a ∈ s.awaiting := hsub.subset List.mem_cons_self
      have herase := h.owns.erase_eq_nil ha
      have hover : Invariant { s with stack := rest, awaiting := s.awaiting.erase a } := by
        refine ⟨h.owns.answered a, ?_, h.shown⟩
        have hrest := hsub.erase a
        rwa [List.erase_cons_head] at hrest
      -- A loader that throws is the one called last, so that its attempt is the current one.
      have hfails := hover.attemptFails herase (h.owns.free (h.owns.awaited a ha).1) a
      exact hfails.unwind
    · cases hs'
  | loadEnds a outcome =>
    rw [FlarkReader.step] at hs'
    split at hs'
    · next hends =>
      cases hs'
      exact h.loadEnds hends.1 hends.2 outcome
    · cases hs'

theorem invariant_create (markdown : Text) : (create markdown).Invariant := by
  have hnew : Invariant { markdown := markdown } := ⟨Holder.owns_init, List.Sublist.refl _, nofun⟩
  exact hnew.start rfl rfl

/-! ## Every run -/

/-- A disposed reader stays so, with the text that it had. -/
theorem Invariant.step_of_disposed (h : s.Invariant) (hdisposed : s.status = .disposed) {e : Event}
    {s' : FlarkReader} (hs' : s.step e = some s') :
    s'.status = .disposed ∧ s'.markdown = s.markdown := by
  have hunwind : ∀ x : FlarkReader, x.unwind.status = x.status ∧ x.unwind.markdown = x.markdown := by
    intro x
    rw [FlarkReader.unwind]
    split <;> exact ⟨rfl, rfl⟩
  have hfails : ∀ (x : FlarkReader) (a : Nat), x.status = .disposed → x.lease = none →
      (x.attemptFails a none).status = .disposed ∧ (x.attemptFails a none).markdown = x.markdown := by
    intro x a hx hlease
    rw [attemptFails_none hlease, if_neg (not_not.2 hx)]
    exact ⟨(Holder.complete_status a).trans hx, rfl⟩
  have hlease := h.owns.free (Or.inr hdisposed)
  -- Every call is turned away, and what still runs gives back what it gets.
  cases e with
  | call c =>
    cases hs'
    cases c with
    | update markdown throws =>
      rw [FlarkReader.call, update, if_pos (Or.inl hdisposed)]
      exact ⟨hdisposed, rfl⟩
    | select moved =>
      rw [FlarkReader.call, select, if_neg (by simp [hdisposed])]
      exact ⟨hdisposed, rfl⟩
    | retry =>
      rw [FlarkReader.call, retry, if_neg (by simp [hdisposed])]
      exact ⟨hdisposed, rfl⟩
    | dispose =>
      rw [FlarkReader.call, dispose, if_pos hdisposed]
      exact ⟨hdisposed, rfl⟩
  | returns =>
    rw [FlarkReader.step] at hs'
    split at hs'
    · next after rest hstack =>
      cases hs'
      rw [(hunwind _).1, (hunwind _).2]
      cases after with
      | opens a | fails a => exact ⟨(Holder.complete_status a).trans hdisposed, rfl⟩
      | done => exact ⟨hdisposed, rfl⟩
    · cases hs'
      rw [(hunwind _).1, (hunwind _).2]
      exact ⟨hdisposed, rfl⟩
    · cases hs'
  | loaderThrows =>
    rw [FlarkReader.step] at hs'
    split at hs'
    · next a rest hstack =>
      cases hs'
      rw [(hunwind _).1, (hunwind _).2]
      exact hfails { s with stack := rest, awaiting := s.awaiting.erase a } a hdisposed hlease
    · cases hs'
  | loadEnds a outcome =>
    rw [FlarkReader.step] at hs'
    split at hs'
    · cases hs'
      cases outcome with
      | fails => exact hfails { s with awaiting := s.awaiting.erase a } a hdisposed hlease
      | gives opens =>
        simp only [FlarkReader.loadEnds]
        rw [if_pos hdisposed]
        exact ⟨(Holder.complete_status a).trans ((Holder.release_status _ _).trans hdisposed), rfl⟩
    · cases hs'

/-- What holds of a reader at any time. -/
structure Kept (s : FlarkReader) : Prop where
  /-- Every lease given was disposed once, but for the one that the reader holds. -/
  leases : ∀ (l : Nat) (whys : List Release), s.leases[l]? = some whys →
    s.lease = some l ∧ whys = [] ∨
      s.lease ≠ some l ∧ ∃ why ∈ [Release.disposed, .failed, .onArrival], whys = [why]
  futures : ∀ n ∈ s.attempts, n ≤ 1
  shown : s.status = .ready → s.document = some s.markdown
  disposed : s.status = .disposed → s.lease = none ∧
    ∀ events s', Runs.run step s events = some s' →
      s'.status = .disposed ∧ s'.markdown = s.markdown

theorem Invariant.kept (h : s.Invariant) : s.Kept where
  leases l whys hl := by
    rcases h.owns.released l whys hl with hheld | ⟨hfree, why, hwhy, hne⟩
    · exact Or.inl hheld
    · refine Or.inr ⟨hfree, why, ?_, hwhy⟩
      cases why with
      | superseded => exact absurd rfl hne
      | disposed | failed | onArrival => simp
  futures := h.owns.once
  shown := h.shown
  disposed hdisposed := by
    refine ⟨h.owns.free (Or.inr hdisposed), fun events s' hrun => ?_⟩
    have hboth := Runs.run_invariant
      (P := fun x => x.Invariant ∧ x.status = .disposed ∧ x.markdown = s.markdown)
      (fun x e x' ⟨hx, hgone, hsame⟩ hstep => by
        obtain ⟨hgone', hsame'⟩ := hx.step_of_disposed hgone hstep
        exact ⟨hx.step hstep, hgone', hsame'.trans hsame⟩)
      hrun ⟨h, hdisposed, rfl⟩
    exact hboth.2

/-- What holds of a reader after any run. -/
theorem run_kept {markdown : Text} {events : List Event}
    (h : Runs.run step (create markdown) events = some s) : s.Kept := by
  have hinvariant := Runs.run_invariant (P := Invariant) (fun _ _ _ hs hstep => hs.step hstep) h
    (invariant_create markdown)
  exact hinvariant.kept

end FlarkReader

/-- In every run a session and a reader own their leases and futures, and what a session edits
    is published once. -/
theorem session_and_reader_kept :
    (∀ (markdown : Text) (events : List FlarkSession.Event) (s : FlarkSession),
      Runs.run FlarkSession.step (FlarkSession.create markdown) events = some s → s.Kept) ∧
    ∀ (markdown : Text) (events : List FlarkReader.Event) (s : FlarkReader),
      Runs.run FlarkReader.step (FlarkReader.create markdown) events = some s → s.Kept :=
  ⟨fun _ _ _ => FlarkSession.run_kept, fun _ _ _ => FlarkReader.run_kept⟩

/-- A listener told that the session is ready loads a document, one told of that load edits it,
    and the session is disposed while the change is sent. -/
def disposedWhileSending : List FlarkSession.Event :=
  [.returns, .returns, .loadEnds 0 (.gives true),
    .call (.loadMarkdown (Text.ofString "b") (some 0)), .publishes (Text.ofString "b"),
    .call (.edit (some 1)), .publishes (Text.ofString "c"), .returns, .returns, .returns,
    .returns, .returns, .returns, .returns, .call .dispose, .returns, .returns]

/-- A reader whose parser fails on an update tries again inside the notification of that. -/
def retriedInside : List FlarkReader.Event :=
  [.returns, .loadEnds 0 (.gives true), .returns,
    .call (.update (Text.ofString "b") true), .call .retry, .returns, .returns, .returns,
    .loadEnds 1 (.gives true)]

theorem session_and_reader_kept_nested :
    (∃ s, Runs.run FlarkSession.step (FlarkSession.create (Text.ofString "a"))
        disposedWhileSending = some s ∧ s.Kept ∧ s.leases = [[.disposed]] ∧
        s.sent = [Text.ofString "c"]) ∧
      ∃ s, Runs.run FlarkReader.step (FlarkReader.create (Text.ofString "a")) retriedInside = some s ∧
        s.Kept ∧ s.leases = [[.failed], []] ∧ s.document = some (Text.ofString "b") := by
  have hsession : (Runs.run FlarkSession.step (FlarkSession.create (Text.ofString "a"))
      disposedWhileSending).any fun s => s.leases == [[.disposed]] && s.sent == [Text.ofString "c"] := by
    decide
  have hreader : (Runs.run FlarkReader.step (FlarkReader.create (Text.ofString "a"))
      retriedInside).any fun s =>
        s.leases == [[.failed], []] && s.document == some (Text.ofString "b") := by
    decide
  simp only [Option.any_eq_true, Bool.and_eq_true, beq_iff_eq] at hsession hreader
  obtain ⟨s, hs, hleases, hsent⟩ := hsession
  obtain ⟨r, hr, hleases', hdocument⟩ := hreader
  exact ⟨⟨s, hs, session_and_reader_kept.1 _ _ s hs, hleases, hsent⟩,
    ⟨r, hr, session_and_reader_kept.2 _ _ r hr, hleases', hdocument⟩⟩

end Flark
